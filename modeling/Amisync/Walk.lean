import Amisync.Dos

/-!
# Walking a folder (`folder_walk`)

The scanner's view of a folder: every entry the walk reports, under the name the
entry has on the wire.

* `Tree`: drawers and files as they are on disk. A listing may end early, or
  never begin; the walk does not tell.
* `Reaches`: what it takes for a name to be reported, drawer by drawer.
* `mem_walk_iff`: a name is reported exactly when it is reached.
-/

namespace Amisync

/-! ## The tree -/

mutual

/-- `listed` is the number of entries a listing of the drawer shows: none if it cannot be
locked or examined, fewer than there are if the listing breaks off. -/
inductive Tree where
  | file (size modifiedS : Int)
  | drawer (listed : Nat) (modifiedS : Int) (entries : Entries)

inductive Entries where
  | nil
  | cons (name : Bytes) (t : Tree) (rest : Entries)

end

namespace Entries

def toList : Entries → List (Bytes × Tree)
  | nil => []
  | cons name t rest => (name, t) :: rest.toList

/-- The file system does not tell upper from lower case. -/
def find (fold : Bytes → Bytes) (es : Entries) (name : Bytes) : Option Tree :=
  (es.toList.find? fun p => fold p.1 = fold name).map Prod.snd

end Entries

namespace Tree

def isDir : Tree → Bool
  | file _ _ => false
  | drawer _ _ _ => true

def size : Tree → Int
  | file s _ => s
  | drawer _ _ _ => 0

def modifiedS : Tree → Int
  | file _ m => m
  | drawer _ m _ => m

/-- What is at a path below a drawer. -/
def lookup (fold : Bytes → Bytes) : List Bytes → Tree → Option Tree
  | [], t => some t
  | _ :: _, file _ _ => none
  | c :: cs, drawer _ _ es => (es.find fold c).bind (Tree.lookup fold cs)

end Tree

/-! ## The walk -/

def lower (b : UInt8) : UInt8 := if 65 ≤ b ∧ b ≤ 90 then b + 32 else b

/-- `strcasecmp(a, b) == 0` -/
def strcaseEq (a b : Bytes) : Bool := a.map lower = b.map lower

/-- `.stignore` -/
def stignore : Bytes := [46, 115, 116, 105, 103, 110, 111, 114, 101]

/-- `.stversions` -/
def stversions : Bytes := [46, 115, 116, 118, 101, 114, 115, 105, 111, 110, 115]

/-- Entries that are never synced. -/
def skippable (name : Bytes) (depth : Nat) : Bool :=
  strcaseEq name stignore || (depth = 0 && strcaseEq name stversions) ||
    (amitmp.length ≤ name.length && strcaseEq (name.drop (name.length - amitmp.length)) amitmp)

def joinRel (pre name : Name) : Option Name :=
  fitted bepPathMax (if pre = [] then name else pre ++ slash :: name)

structure FolderEntry where
  name : Name
  isDir : Bool
  size : Int
  modifiedS : Int
  deriving DecidableEq, Repr

def Tree.entry (t : Tree) (name : Name) : FolderEntry := ⟨name, t.isDir, t.size, t.modifiedS⟩

/-- The wire name of the entry `l` of the drawer `rel`, where the walk reports it. -/
def reported (ign : Name → Bool) (rel : Name) (depth : Nat) (l : Bytes) : Option Name :=
  if skippable l depth then none
  else match (nameFromLocal bepPathMax l).bind (joinRel rel) with
    | none => none
    | some n => if ign n then none else some n

mutual

/-- `walk`: the entries in the order they are reported. `ign` is the ignore set. -/
def walk (ign : Name → Bool) : Tree → Path → Name → Nat → List FolderEntry
  | .file _ _, _, _, _ => []
  | .drawer listed _ es, abs, rel, depth => walkEntries ign es listed abs rel depth

def walkEntries (ign : Name → Bool) : Entries → Nat → Path → Name → Nat → List FolderEntry
  | .nil, _, _, _, _ => []
  | .cons _ _ _, 0, _, _, _ => []
  | .cons l t rest, listed + 1, abs, rel, depth =>
    (match reported ign rel depth l with
      | none => []
      | some n => t.entry n ::
        (if t.isDir ∧ depth + 1 < folderMaxDepth then
          match joinFull abs l with
          | none => []
          | some sub => walk ign t sub n (depth + 1)
        else [])) ++ walkEntries ign rest listed abs rel depth

end

/-! ## What the walk reaches -/

/-- The entry is reported, or it is a drawer that is reported and entered and the name is
reached in it. -/
inductive Reaches (ign : Name → Bool) (n : Name) : Tree → Path → Name → Nat → Prop
  | here {listed : Nat} {m : Int} {es : Entries} {abs : Path} {rel : Name} {depth : Nat} {l : Bytes}
      {t : Tree} (listed_mem : (l, t) ∈ es.toList.take listed)
      (hn : reported ign rel depth l = some n) : Reaches ign n (.drawer listed m es) abs rel depth
  | inside {listed : Nat} {m : Int} {es : Entries} {abs sub : Path} {rel rel' : Name} {depth : Nat}
      {l : Bytes} {t : Tree} (listed_mem : (l, t) ∈ es.toList.take listed)
      (hrel : reported ign rel depth l = some rel') (hdir : t.isDir = true)
      (hdepth : depth + 1 < folderMaxDepth) (hsub : joinFull abs l = some sub)
      (ht : Reaches ign n t sub rel' (depth + 1)) : Reaches ign n (.drawer listed m es) abs rel depth

section Reaches
variable {ign : Name → Bool} {n : Name}

/-- The first entry of a listing, or the rest of it. -/
theorem reaches_cons_iff {listed : Nat} {m : Int} {l : Bytes} {t : Tree} {rest : Entries} {abs : Path}
    {rel : Name} {depth : Nat} :
    Reaches ign n (.drawer (listed + 1) m (.cons l t rest)) abs rel depth ↔
      (reported ign rel depth l = some n ∨
        ∃ rel' sub, reported ign rel depth l = some rel' ∧ t.isDir = true ∧
          depth + 1 < folderMaxDepth ∧ joinFull abs l = some sub ∧
          Reaches ign n t sub rel' (depth + 1)) ∨
      Reaches ign n (.drawer listed m rest) abs rel depth := by
  constructor
  · intro h
    cases h with
    | here hmem hn =>
      rw [Entries.toList, List.take_succ_cons] at hmem
      rcases List.mem_cons.mp hmem with he | hmem
      · cases he
        exact Or.inl (Or.inl hn)
      · exact Or.inr (.here hmem hn)
    | inside hmem hrel hdir hdepth hsub ht =>
      rw [Entries.toList, List.take_succ_cons] at hmem
      rcases List.mem_cons.mp hmem with he | hmem
      · cases he
        exact Or.inl (Or.inr ⟨_, _, hrel, hdir, hdepth, hsub, ht⟩)
      · exact Or.inr (.inside hmem hrel hdir hdepth hsub ht)
  · have hfirst : (l, t) ∈ (Entries.cons l t rest).toList.take (listed + 1) := by
      rw [Entries.toList, List.take_succ_cons]
      exact List.mem_cons_self
    have hrest : ∀ p ∈ rest.toList.take listed,
        p ∈ (Entries.cons l t rest).toList.take (listed + 1) := by
      intro p hp
      rw [Entries.toList, List.take_succ_cons]
      exact List.mem_cons_of_mem _ hp
    rintro ((hn | ⟨rel', sub, hrel, hdir, hdepth, hsub, ht⟩) | h)
    · exact .here hfirst hn
    · exact .inside hfirst hrel hdir hdepth hsub ht
    · cases h with
      | here hmem hn => exact .here (hrest _ hmem) hn
      | inside hmem hrel hdir hdepth hsub ht => exact .inside (hrest _ hmem) hrel hdir hdepth hsub ht

theorem not_reaches_file {s m : Int} {abs : Path} {rel : Name} {depth : Nat} :
    ¬ Reaches ign n (.file s m) abs rel depth := by
  intro h
  cases h

theorem not_reaches_unlisted {m : Int} {es : Entries} {abs : Path} {rel : Name} {depth : Nat}
    (h : es = .nil) (listed : Nat) : ¬ Reaches ign n (.drawer listed m es) abs rel depth := by
  subst h
  intro h
  cases h with
  | here hmem => simp [Entries.toList] at hmem
  | inside hmem => simp [Entries.toList] at hmem

theorem not_reaches_zero {m : Int} {es : Entries} {abs : Path} {rel : Name} {depth : Nat} :
    ¬ Reaches ign n (.drawer 0 m es) abs rel depth := by
  intro h
  cases h with
  | here hmem => simp at hmem
  | inside hmem => simp at hmem

mutual

/-- **Walk.** A name is reported exactly when it is reached. -/
theorem mem_walk_iff (t : Tree) (abs : Path) (rel : Name) (depth : Nat) :
    (∃ e ∈ walk ign t abs rel depth, e.name = n) ↔ Reaches ign n t abs rel depth := by
  cases t with
  | file s m =>
    simp only [walk, List.not_mem_nil, false_and, exists_false, false_iff]
    exact not_reaches_file
  | drawer listed m es =>
    rw [walk]
    exact mem_walkEntries_iff m es listed abs rel depth

theorem mem_walkEntries_iff (m : Int) (es : Entries) (listed : Nat) (abs : Path) (rel : Name)
    (depth : Nat) : (∃ e ∈ walkEntries ign es listed abs rel depth, e.name = n) ↔
      Reaches ign n (.drawer listed m es) abs rel depth := by
  cases es with
  | nil =>
    simp only [walkEntries, List.not_mem_nil, false_and, exists_false, false_iff]
    exact not_reaches_unlisted rfl listed
  | cons l t rest =>
    cases listed with
    | zero =>
      simp only [walkEntries, List.not_mem_nil, false_and, exists_false, false_iff]
      exact not_reaches_zero
    | succ listed =>
      rw [reaches_cons_iff, ← mem_walkEntries_iff m rest listed abs rel depth, walkEntries]
      simp only [List.mem_append, or_and_right, exists_or]
      refine or_congr ?_ Iff.rfl
      cases hrep : reported ign rel depth l with
      | none => simp
      | some rel' =>
        simp only [List.mem_cons, exists_eq_or_imp, Tree.entry, Option.some.injEq]
        refine or_congr Iff.rfl ?_
        by_cases hin : t.isDir ∧ depth + 1 < folderMaxDepth
        · rw [if_pos hin]
          cases hsub : joinFull abs l with
          | none => simp
          | some sub =>
            simp only [Option.some.injEq, hin.1, hin.2, true_and]
            rw [mem_walk_iff t sub rel' (depth + 1)]
            constructor
            · exact fun h => ⟨rel', sub, rfl, rfl, h⟩
            · rintro ⟨_, _, rfl, rfl, h⟩
              exact h
        · rw [if_neg hin]
          simp only [List.not_mem_nil, false_and, exists_false, false_iff, not_exists, not_and]
          intro _ _ _ hdir hdepth
          exact absurd ⟨hdir, hdepth⟩ hin

end

end Reaches

end Amisync

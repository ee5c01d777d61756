import Amisync.Session
import Amisync.Dos
import Amisync.Lib.InPlace

/-!
# Deferred deletions on the disk (`flush_deferred`)

The peer's deletions wait in a list until no fetch needs the file any more. A
flush applies those of files, then those of drawers from the deepest up.

* `Disk`: the names in one folder, with the rule that a drawer must be empty.
* `Flusher`: the list, in its arrays, with the folders it is about.
* `flushDeferred`: the flush as it is done in place. `flushed_flushDeferred`: the
  same without the arrays (`Flushed`).
* `gone_file`, `gone_drawer`: what one deletion does where nothing is in its way.
* `flush_deferred_converges`: a tree whose names are all listed is removed in one
  flush; in any case the list keeps what is still wanted or still in use.
-/

namespace Amisync.Deferred

/-! ## The disk -/

inductive Kind where
  | file
  | drawer
  deriving DecidableEq, Repr

structure Item where
  name : Name
  kind : Kind
  deriving DecidableEq, Repr

/-- What a folder holds. -/
abbrev Disk := List Item

/-- `m` lies directly in the drawer `n`. -/
def inDrawer (n m : Name) : Bool :=
  (n ++ [slash]).isPrefixOf m && !(m.drop (n.length + 1)).contains slash

namespace Disk

def kind (d : Disk) (n : Name) : Option Kind := (d.find? fun i => i.name = n).map Item.kind

def erase (d : Disk) (n : Name) : Disk := d.filter fun i => i.name ≠ n

def full (d : Disk) (n : Name) : Bool := d.any fun i => inDrawer n i.name

/-- `DeleteFile`; `granted` is the file system's own answer. -/
def deleteFile (granted : Bool) (d : Disk) (n : Name) : Disk × Bool :=
  match d.kind n with
  | none => (d, false)
  | some .file => if granted then (d.erase n, true) else (d, false)
  | some .drawer => if granted && !d.full n then (d.erase n, true) else (d, false)

/-- `folder_delete`, for a path that can be formed or not. The second try, without protection, is
in the answer. -/
def folderDelete (addressable granted : Bool) (d : Disk) (n : Name) : Disk × Bool :=
  if !addressable then (d, false)
  else
    let r := d.deleteFile granted n
    if r.2 then r else (r.1, (d.kind n).isNone)

def createDir (d : Disk) (n : Name) : Disk := if (d.kind n).isNone then ⟨n, .drawer⟩ :: d else d

end Disk

/-- The drawers above a name, the first one first. -/
def drawersOf (n : Name) : List Name :=
  (List.range n.length).filterMap fun i => if n[i]? = some slash then some (n.take i) else none

/-- What the file system and the memory answer in the course of one deletion. `made` is the number
of drawers that `ensure_path_dirs` finds or makes. -/
structure Answer where
  made : Nat
  freed : Bool
  renamed : Bool
  cleared : Bool
  deleted : Bool
  mem : UpsertMem
  deriving DecidableEq, Repr

/-- `folder_archive` -/
def folderArchive (versioning addressable : Bool) (a : Answer) (d : Disk) (n : Name) : Disk :=
  let dst := versionsDir ++ n
  if !versioning || !addressable || d.kind n ≠ some .file then d
  else
    let d := ((drawersOf dst).take a.made).foldl Disk.createDir d
    if a.made < (drawersOf dst).length then d
    else
      let d := (d.deleteFile a.freed dst).1
      if a.renamed && (d.kind dst).isNone then ⟨dst, .file⟩ :: d.erase n else d

/-! ## The folders -/

/-- What a flush finds and does not change. `answers` has one entry for each deletion. -/
structure Site where
  mode : FolderIdx → FolderMode
  versioning : Bool
  addressable : FolderIdx → Name → Bool
  temp : Name → Option Name
  wantAny : FolderIdx → Hash → Int → Bool
  outstanding : FolderIdx → Bool
  answers : Nat → Answer

structure Folders where
  index : FolderIdx → FolderState
  disk : FolderIdx → Disk
  calls : Nat

abbrev Entry := FolderIdx × SyncMeta

def Entry.key (e : Entry) : Key := (e.1, e.2.name)

namespace Folders

def record (v : Folders) (k : Key) : Option SyncMeta := (v.index k.1).record k.2

def kind (v : Folders) (k : Key) : Option Kind := (v.disk k.1).kind k.2

def store (v : Folders) (e : Entry) (mem : UpsertMem) : Folders :=
  { v with index := Function.update v.index e.1 ((v.index e.1).store e.2 [] mem) }

/-- One deletion is done. -/
def setDisk (v : Folders) (f : FolderIdx) (d : Disk) : Folders :=
  { v with disk := Function.update v.disk f d, calls := v.calls + 1 }

end Folders

section Handlers
variable (site : Site)

/-- `defer_matches_pending` -/
def matchesPending (v : Folders) (e : Entry) : Bool :=
  match v.record e.key with
  | none => false
  | some h => !h.deleted && h.contentHash.any fun c => site.wantAny e.1 c h.size

/-- `apply_peer_delete` -/
def applyPeerDelete (v : Folders) (e : Entry) : Folders :=
  let a := site.answers v.calls
  let addressable := site.addressable e.1 e.2.name
  let d := folderArchive site.versioning addressable a (v.disk e.1) e.2.name
  let d := (site.temp e.2.name).elim d fun t => (d.deleteFile a.cleared t).1
  let r := d.folderDelete addressable a.deleted e.2.name
  if r.2 then (v.setDisk e.1 r.1).store e a.mem else v.setDisk e.1 r.1

/-- `apply_deferred_delete` -/
def applyDeferredDelete (v : Folders) (e : Entry) : Folders :=
  if syncClassifyIncoming (v.record e.key) (site.mode e.1) e.2 = .delete then applyPeerDelete site v e
  else v

/-- `apply_peer_dir_delete` -/
def applyPeerDirDelete (v : Folders) (e : Entry) : Folders × Bool :=
  let held := v.record e.key
  if Session.dirDeleteStale held e.2 then (v, true)
  else
    let a := site.answers v.calls
    let addressable := site.addressable e.1 e.2.name
    let r := (v.disk e.1).folderDelete addressable a.deleted e.2.name
    if r.2 || (held.isNone && !addressable) then ((v.setDisk e.1 r.1).store e a.mem, true)
    else (v.setDisk e.1 r.1, false)

end Handlers

/-! ## The list in its arrays -/

def wkDirDelTries : UInt8 := 3
def deferDone : UInt8 := 0xFF

/-- `defer` and `defer_fidx` are one list; `defer_tries` is indexed by the slot. -/
structure Flusher where
  folders : Folders
  defer : List Entry
  tries : Nat → UInt8
  progress : Nat

def nameDepth (n : Name) : Nat := n.count slash

def isDir (e : Entry) : Bool := e.2.type = .directory

section Flush
variable (site : Site)

/-- The first loop, at the slot `i` with `n` more to look at. The numbers of tries stay where they
are when the last entry moves. -/
def flushFiles : Nat → Nat → Flusher → Flusher
  | 0, _, s => s
  | n + 1, i, s =>
    match s.defer[i]? with
    | none => s
    | some e =>
      if isDir e || matchesPending site s.folders e then flushFiles n (i + 1) s
      else
        flushFiles n i { s with
          folders := applyDeferredDelete site s.folders e
          progress := s.progress + 1
          defer := Keyed.swapRemove i s.defer }

/-- The body of the second loop, for the entry `e` in the slot `i`. -/
def flushDir (s : Flusher) (e : Entry) (i : Nat) : Flusher :=
  let r := applyPeerDirDelete site s.folders e
  let s := { s with folders := r.1 }
  if r.2 then
    { s with tries := Function.update s.tries i deferDone, progress := s.progress + 1 }
  else if 0 < s.progress || site.outstanding e.1 then
    { s with tries := Function.update s.tries i 0 }
  else
    let t := s.tries i + 1
    { s with tries := Function.update s.tries i (if wkDirDelTries ≤ t then deferDone else t) }

/-- The drawers of the list with their slots, deepest first. -/
def dirOrder (s : Flusher) : List (Entry × Nat) :=
  InPlace.sort (fun p => nameDepth p.1.2.name) (s.defer.zipIdx.filter fun p => isDir p.1)

def flushDirs (s : Flusher) : Flusher :=
  (dirOrder s).foldl (fun s p => flushDir site s p.1 p.2) s

/-- What is left in the list, with its numbers of tries. -/
def compactDefer (s : Flusher) : Flusher :=
  let kept := InPlace.compact (fun p => !(isDir p.1 && s.tries p.2 = deferDone)) s.defer.zipIdx
  { s with
    defer := kept.map Prod.fst
    tries := fun w => (kept[w]?).elim (s.tries w) fun p => s.tries p.2 }

def flushDeferred (done : Nat) (s : Flusher) : Flusher :=
  let s := { s with progress := done }
  compactDefer (flushDirs site (flushFiles site s.defer.length 0 s))

end Flush

/-! ## Without the arrays -/

/-- One try at a drawer. `quiet`: nothing was removed in this flush and nothing else is to come. -/
structure Attempt where
  entry : Entry
  tries : UInt8
  settled : Bool
  quiet : Bool

/-- The removal failed, with tries left. -/
def Attempt.kept (a : Attempt) : Bool := !a.settled && (!a.quiet || a.tries + 1 < wkDirDelTries)

/-- The drawers in turn, each with its number of tries. -/
def attempts (site : Site) : Folders → Nat → List (Entry × UInt8) → Folders × List Attempt
  | v, _, [] => (v, [])
  | v, progress, (e, t) :: rest =>
    let r := applyPeerDirDelete site v e
    let later := attempts site r.1 (if r.2 then progress + 1 else progress) rest
    (later.1, ⟨e, t, r.2, !(0 < progress || site.outstanding e.1)⟩ :: later.2)

/-- `t` is `s` after a flush: the files nobody wants any more, then the drawers, deepest first. The
list keeps the files that are wanted and the drawers that could not be removed yet. -/
def Flushed (site : Site) (done : Nat) (s t : Flusher) : Prop :=
  ∃ (applied : List Entry) (order : List (Entry × UInt8)),
    applied.Perm (s.defer.filter fun e => !(isDir e || matchesPending site s.folders e)) ∧
    (order.map Prod.fst).Perm (s.defer.filter isDir) ∧
    (order.Pairwise fun p q => nameDepth q.1.2.name ≤ nameDepth p.1.2.name) ∧
    let v := applied.foldl (applyDeferredDelete site) s.folders
    let r := attempts site v (done + applied.length) order
    t.folders = r.1 ∧
    (∀ a ∈ r.2, a.quiet = true → ∃ i, s.defer[i]? = some a.entry ∧ a.tries = s.tries i) ∧
    t.defer.Perm ((s.defer.filter fun e => !isDir e && matchesPending site s.folders e) ++
      (r.2.filter Attempt.kept).map Attempt.entry)

/-! ## Records -/

section Records
variable {site : Site} {v : Folders} {e : Entry} {k : Key}

theorem record_store_of_ne (h : k ≠ e.key) (mem : UpsertMem) : (v.store e mem).record k = v.record k := by
  unfold Folders.record Folders.store
  dsimp only
  by_cases hf : k.1 = e.1
  · have hn : k.2 ≠ e.2.name := fun hn => h (Prod.ext hf hn)
    rw [hf, Function.update_self]
    exact congrArg (Option.map Slot.record) (FolderState.find_store_of_ne _ hn [] mem)
  · rw [Function.update_of_ne hf]

theorem record_store_self (hdel : e.2.deleted = true) (mem : UpsertMem) :
    ((v.store e mem).record e.key).all (·.deleted) = true := by
  cases hr : (v.store e mem).record e.key with
  | none => rfl
  | some m =>
    unfold Folders.record Folders.store Entry.key at hr
    dsimp only at hr
    rw [Function.update_self] at hr
    obtain ⟨t, ht, rfl⟩ := Option.map_eq_some_iff.mp hr
    rw [FolderState.eq_slotFor_of_find _ ht]
    exact hdel

@[simp] theorem record_setDisk (f : FolderIdx) (d : Disk) : (v.setDisk f d).record k = v.record k := rfl

/-- What is deleted was a deletion. -/
theorem deleted_of_classify {held : Option SyncMeta} {mode : FolderMode} {m : SyncMeta}
    (h : syncClassifyIncoming held mode m = .delete) : m.deleted = true := by
  cases held with
  | none =>
    unfold syncClassifyIncoming at h
    split at h
    · simp at h
    · dsimp only at h
      split at h <;> simp at h
  | some r =>
    have hv := verdict_classify r m mode
    rw [h] at hv
    cases hv with
    | delete gone rel => exact gone

variable (site) in
/-- A deletion changes one record, if any, and that one is deleted then. -/
theorem record_applyDeferredDelete (v : Folders) (e : Entry) (k : Key) :
    (applyDeferredDelete site v e).record k = v.record k ∨
      (k = e.key ∧ ((applyDeferredDelete site v e).record k).all (·.deleted) = true) := by
  unfold applyDeferredDelete
  split
  · rename_i hact
    unfold applyPeerDelete
    dsimp only
    split
    · by_cases hk : k = e.key
      · subst hk
        exact Or.inr ⟨rfl, record_store_self (deleted_of_classify hact) _⟩
      · exact Or.inl (record_store_of_ne hk _)
    · exact Or.inl rfl
  · exact Or.inl rfl

/-- What is wanted does not depend on the files that went. -/
theorem matchesPending_applyDeferredDelete (hfree : matchesPending site v e = false) (e' : Entry) :
    matchesPending site (applyDeferredDelete site v e) e' = matchesPending site v e' := by
  rcases record_applyDeferredDelete site v e e'.key with h | ⟨hk, h⟩
  · unfold matchesPending
    rw [h]
  · have hbefore : matchesPending site v e' = false := by
      rw [← hfree]
      unfold matchesPending
      have hfolder : e'.1 = e.1 := congrArg (fun k : Key => k.1) hk
      rw [hk, hfolder]
    rw [hbefore]
    unfold matchesPending
    cases hr : (applyDeferredDelete site v e).record e'.key with
    | none => rfl
    | some m =>
      rw [hr] at h
      simp [show m.deleted = true from h]

end Records

/-! ## The first loop -/

section FirstLoop
variable {site : Site}

/-- It takes out the files that nobody wants. -/
theorem flushFiles_spec (site : Site) {n i : Nat} {s : Flusher} (hn : s.defer.length = i + n)
    (hi : ∀ j < i, ∀ e, s.defer[j]? = some e → (isDir e || matchesPending site s.folders e) = true) :
    ∃ applied : List Entry,
      (applied ++ (flushFiles site n i s).defer).Perm s.defer ∧
      (∀ e ∈ applied, (isDir e || matchesPending site s.folders e) = false) ∧
      (∀ e ∈ (flushFiles site n i s).defer, (isDir e || matchesPending site s.folders e) = true) ∧
      (flushFiles site n i s).folders = applied.foldl (applyDeferredDelete site) s.folders ∧
      (flushFiles site n i s).progress = s.progress + applied.length ∧
      (flushFiles site n i s).tries = s.tries ∧
      (applied = [] → (flushFiles site n i s).defer = s.defer) := by
  induction n generalizing i s with
  | zero =>
    refine ⟨[], List.Perm.refl _, by simp, ?_, rfl, rfl, rfl, fun _ => rfl⟩
    intro e he
    obtain ⟨j, hj⟩ := List.mem_iff_getElem?.mp he
    have hlt : j < s.defer.length := (List.getElem?_eq_some_iff.mp hj).1
    exact hi j (by omega) e hj
  | succ n ih =>
    have hlt : i < s.defer.length := by omega
    have hat : s.defer[i]? = some s.defer[i] := List.getElem?_eq_getElem hlt
    rw [flushFiles, hat]
    dsimp only
    split
    · rename_i hkeep
      refine ih (by omega) ?_
      intro j hj e he
      by_cases hji : j = i
      · subst hji
        rw [hat] at he
        obtain rfl := Option.some.inj he
        exact hkeep
      · exact hi j (by omega) e he
    · rename_i hgo
      rw [Bool.not_eq_true] at hgo
      have hfree : matchesPending site s.folders s.defer[i] = false := (Bool.or_eq_false_iff.mp hgo).2
      have hsame := matchesPending_applyDeferredDelete hfree
      have hperm := Keyed.perm_cons_swapRemove hat
      obtain ⟨applied, h₁, h₂, h₃, h₄, h₅, h₆, -⟩ := ih (i := i)
        (s := { s with
          folders := applyDeferredDelete site s.folders s.defer[i]
          progress := s.progress + 1
          defer := Keyed.swapRemove i s.defer })
        (by
          have := hperm.length_eq
          simp only [List.length_cons] at this
          dsimp only
          omega)
        (by
          intro j hj e he
          dsimp only at he ⊢
          rw [Keyed.getElem?_swapRemove hlt, if_neg (by omega : ¬ j = i)] at he
          rw [hsame]
          split at he
          · exact hi j hj e he
          · simp at he)
      simp only [hsame] at h₂ h₃
      refine ⟨s.defer[i] :: applied, ?_, ?_, h₃, h₄, ?_, h₆, by simp⟩
      · rw [List.cons_append]
        exact (h₁.cons _).trans hperm.symm
      · intro e he
        rcases List.mem_cons.mp he with rfl | he
        · exact hgo
        · exact h₂ e he
      · rw [h₅, List.length_cons]
        dsimp only
        omega

end FirstLoop

/-! ## The second loop -/

section SecondLoop
variable {site : Site}

/-- What one round does to the number of tries of its slot, and to no other. -/
theorem flushDir_spec (site : Site) (s : Flusher) (e : Entry) (i : Nat) :
    let r := applyPeerDirDelete site s.folders e
    let a : Attempt := ⟨e, s.tries i, r.2, !(0 < s.progress || site.outstanding e.1)⟩
    (flushDir site s e i).folders = r.1 ∧
      (flushDir site s e i).progress = (if r.2 then s.progress + 1 else s.progress) ∧
      (flushDir site s e i).defer = s.defer ∧
      (((flushDir site s e i).tries i = deferDone) ↔ a.kept = false) ∧
      ∀ j ≠ i, (flushDir site s e i).tries j = s.tries j := by
  unfold flushDir Attempt.kept
  dsimp only
  cases hsettled : (applyPeerDirDelete site s.folders e).2 with
  | true =>
    refine ⟨by simp, by simp, by simp, by simp, ?_⟩
    intro j hj
    simp [Function.update_of_ne hj]
  | false =>
    cases hbusy : (0 < s.progress || site.outstanding e.1 : Bool) with
    | true =>
      refine ⟨by simp, by simp, by simp, ?_, ?_⟩
      · simp only [Bool.false_eq_true, if_false, if_true, Function.update_self]
        simp
        decide
      · intro j hj
        simp [Function.update_of_ne hj]
    | false =>
      refine ⟨by simp, by simp, by simp, ?_, ?_⟩
      · simp only [Bool.false_eq_true, if_false, Function.update_self]
        by_cases ht : wkDirDelTries ≤ s.tries i + 1
        · simp [ht, UInt8.not_lt.mpr ht]
        · have hlt := UInt8.not_le.mp ht
          have hne : s.tries i + 1 ≠ deferDone := by
            intro he
            rw [he] at hlt
            exact absurd hlt (by decide)
          simp [ht, hlt, hne]
      · intro j hj
        simp [Function.update_of_ne hj]

/-- The second loop, entry by entry: each slot is settled, or its attempt is kept. -/
theorem flushDirs_spec (site : Site) {order : List (Entry × Nat)} (hn : (order.map Prod.snd).Nodup)
    (s : Flusher) :
    let t := order.foldl (fun s p => flushDir site s p.1 p.2) s
    let r := attempts site s.folders s.progress (order.map fun p => (p.1, s.tries p.2))
    t.folders = r.1 ∧ t.defer = s.defer ∧
      (order.filter fun p => t.tries p.2 ≠ deferDone).map Prod.fst =
        (r.2.filter Attempt.kept).map Attempt.entry ∧
      ∀ j ∉ order.map Prod.snd, t.tries j = s.tries j := by
  induction order generalizing s with
  | nil => exact ⟨rfl, rfl, rfl, fun _ _ => rfl⟩
  | cons p order ih =>
    obtain ⟨hp, hn⟩ := List.nodup_cons.mp hn
    obtain ⟨hfolders, hprogress, hdefer, htries, hother⟩ := flushDir_spec site s p.1 p.2
    obtain ⟨h₁, h₂, h₃, h₄⟩ := ih hn (flushDir site s p.1 p.2)
    have hmap : (order.map fun q => (q.1, (flushDir site s p.1 p.2).tries q.2)) =
        order.map fun q => (q.1, s.tries q.2) := by
      refine List.map_congr_left ?_
      intro q hq
      rw [hother q.2 (fun h => hp (h ▸ List.mem_map_of_mem hq))]
    rw [hfolders, hprogress, hmap] at h₁ h₃
    dsimp only at h₁ h₂ h₃ h₄ ⊢
    rw [List.foldl_cons, List.map_cons, attempts]
    dsimp only
    refine ⟨h₁, h₂.trans hdefer, ?_, ?_⟩
    · have hslot := h₄ p.2 hp
      cases hkept : (⟨p.1, s.tries p.2, (applyPeerDirDelete site s.folders p.1).2,
          !(0 < s.progress || site.outstanding p.1.1)⟩ : Attempt).kept with
      | false =>
        rw [List.filter_cons_of_neg (by simpa [hslot] using htries.mpr hkept),
          List.filter_cons_of_neg (by simpa using hkept)]
        exact h₃
      | true =>
        have hne : (flushDir site s p.1 p.2).tries p.2 ≠ deferDone := by
          intro h
          rw [htries.mp h] at hkept
          simp at hkept
        rw [List.filter_cons_of_pos (by simpa [hslot] using hne), List.filter_cons_of_pos hkept,
          List.map_cons, List.map_cons, h₃]
    · intro j hj
      rw [List.map_cons, List.mem_cons, not_or] at hj
      rw [h₄ j hj.2, hother j hj.1]

/-- The attempts of a flush that has removed something are not quiet. -/
theorem not_quiet_of_progress {v : Folders} {progress : Nat} (hp : 0 < progress)
    {order : List (Entry × UInt8)} : ∀ a ∈ (attempts site v progress order).2, a.quiet = false := by
  induction order generalizing v progress with
  | nil => simp [attempts]
  | cons p order ih =>
    intro a ha
    rw [attempts] at ha
    dsimp only at ha
    rcases List.mem_cons.mp ha with rfl | ha
    · simp [hp]
    · refine ih ?_ a ha
      split <;> omega

/-- Each attempt is at an entry of the list. -/
theorem entry_of_attempt {v : Folders} {progress : Nat} {order : List (Entry × UInt8)} :
    ∀ a ∈ (attempts site v progress order).2, (a.entry, a.tries) ∈ order := by
  induction order generalizing v progress with
  | nil => simp [attempts]
  | cons p order ih =>
    intro a ha
    rw [attempts] at ha
    dsimp only at ha
    rcases List.mem_cons.mp ha with rfl | ha
    · exact List.mem_cons_self
    · exact List.mem_cons_of_mem _ (ih a ha)

end SecondLoop

/-! ## The flush -/

section Whole
variable {site : Site}

theorem fst_filter_zipIdx (p : Entry → Bool) (l : List Entry) :
    (l.zipIdx.filter fun q => p q.1).map Prod.fst = l.filter p := by
  rw [show (fun q : Entry × Nat => p q.1) = p ∘ Prod.fst from rfl, ← List.filter_map, List.zipIdx_map_fst]

theorem nodup_dirOrder (s : Flusher) : ((dirOrder s).map Prod.snd).Nodup := by
  have hperm := (InPlace.sort_perm (fun p : Entry × Nat => nameDepth p.1.2.name)
    (s.defer.zipIdx.filter fun p => isDir p.1)).map Prod.snd
  refine hperm.nodup_iff.mpr ?_
  refine List.Nodup.sublist (List.Sublist.map _ List.filter_sublist) ?_
  rw [List.zipIdx_map_snd]
  exact List.nodup_range'

/-- What compaction leaves: the files, and the drawers whose slot is not settled. -/
theorem compactDefer_perm (s : Flusher) :
    (compactDefer s).defer.Perm (s.defer.filter (fun e => !isDir e) ++
      ((s.defer.zipIdx.filter fun p => isDir p.1).filter fun p => s.tries p.2 ≠ deferDone).map
        Prod.fst) := by
  unfold compactDefer
  dsimp only
  rw [InPlace.compact_eq, ← fst_filter_zipIdx, ← List.map_append]
  refine List.Perm.map _ ?_
  have hfiles : s.defer.zipIdx.filter (fun p => !isDir p.1) =
      (s.defer.zipIdx.filter fun p => !(isDir p.1 && s.tries p.2 = deferDone)).filter
        fun p => !isDir p.1 := by
    rw [List.filter_filter]
    refine List.filter_congr ?_
    intro p _
    cases isDir p.1 <;> simp
  have hdirs : (s.defer.zipIdx.filter fun p => isDir p.1).filter (fun p => s.tries p.2 ≠ deferDone) =
      (s.defer.zipIdx.filter fun p => !(isDir p.1 && s.tries p.2 = deferDone)).filter
        fun p => !!isDir p.1 := by
    rw [List.filter_filter, List.filter_filter]
    refine List.filter_congr ?_
    intro p _
    cases isDir p.1 <;> simp
  rw [hfiles, hdirs]
  exact (List.filter_append_perm (fun p : Entry × Nat => !isDir p.1) _).symm

/-- **Flush.** The loops in the arrays do what `Flushed` says. -/
theorem flushed_flushDeferred (site : Site) (done : Nat) (s : Flusher) :
    Flushed site done s (flushDeferred site done s) := by
  obtain ⟨applied, hall, hgone, hkeep, hfolders, hprogress, htries, hsame⟩ :=
    flushFiles_spec site (n := s.defer.length) (i := 0) (s := { s with progress := done }) (by simp)
      (by simp)
  unfold flushDeferred
  dsimp only at *
  generalize ht : flushFiles site s.defer.length 0 { s with progress := done } = t at *
  have hsort := InPlace.sort_perm (fun p : Entry × Nat => nameDepth p.1.2.name)
    (t.defer.zipIdx.filter fun p => isDir p.1)
  obtain ⟨hrun, hdefer, hslots, -⟩ := flushDirs_spec site (nodup_dirOrder t) t
  rw [hfolders, hprogress] at hrun hslots
  have hrun : (compactDefer (flushDirs site t)).folders = _ := hrun
  refine ⟨applied, (dirOrder t).map fun p => (p.1, t.tries p.2), ?_, ?_, ?_, hrun, ?_, ?_⟩
  · have hfilter := hall.filter fun e => !(isDir e || matchesPending site s.folders e)
    rw [List.filter_append, List.filter_eq_self.mpr (fun e he => by simp [hgone e he]),
      List.filter_eq_nil_iff.mpr (fun e he => by simp [hkeep e he]), List.append_nil] at hfilter
    exact hfilter
  · rw [List.map_map]
    have hdirs := hall.filter isDir
    rw [List.filter_append,
      List.filter_eq_nil_iff.mpr (fun e he => by simp [(Bool.or_eq_false_iff.mp (hgone e he)).1]),
      List.nil_append, ← fst_filter_zipIdx] at hdirs
    exact (hsort.map Prod.fst).trans hdirs
  · exact List.pairwise_map.mpr (InPlace.sort_pairwise _)
  · intro a ha hquiet
    rcases Nat.eq_zero_or_pos (done + applied.length) with hzero | hpos
    · have hnil : applied = [] := List.length_eq_zero_iff.mp (by omega)
      obtain ⟨p, hp, hpa⟩ := List.mem_map.mp (entry_of_attempt a ha)
      have hmem := (List.mem_filter.mp (hsort.mem_iff.mp hp)).1
      rw [hsame hnil, List.mem_zipIdx_iff_getElem?] at hmem
      simp only [Prod.mk.injEq] at hpa
      exact ⟨p.2, by rw [hmem, hpa.1], by rw [← hpa.2, htries]⟩
    · rw [not_quiet_of_progress hpos a ha] at hquiet
      simp at hquiet
  · refine (compactDefer_perm (flushDirs site t)).trans (List.Perm.append ?_ ?_)
    · have hfiles := hall.filter fun e => !isDir e && matchesPending site s.folders e
      rw [List.filter_append, List.filter_eq_nil_iff.mpr (fun e he => by
        simp [(Bool.or_eq_false_iff.mp (hgone e he)).2]), List.nil_append] at hfiles
      refine List.Perm.trans ?_ hfiles
      rw [show (flushDirs site t).defer = t.defer from hdefer]
      refine List.Perm.of_eq (List.filter_congr ?_)
      intro e he
      have hor := hkeep e he
      cases hd : isDir e with
      | true => simp
      | false =>
        rw [hd, Bool.false_or] at hor
        simp [hor]
    · rw [show (flushDirs site t).defer = t.defer from hdefer, ← hslots]
      exact ((hsort.symm.filter _).map Prod.fst)

end Whole

/-! ## What one deletion does to the disk -/

/-- The archive drawer and what is in it. -/
def InTrash (n : Name) : Prop := versionsDir <+: n ∨ n ++ [slash] = versionsDir

instance (n : Name) : Decidable (InTrash n) := inferInstanceAs (Decidable (_ ∨ _))

namespace Disk

variable {d : Disk} {n m : Name} {granted : Bool}

theorem kind_erase (d : Disk) (n m : Name) : (d.erase n).kind m = if m = n then none else d.kind m := by
  unfold kind erase
  induction d with
  | nil => simp
  | cons i d ih =>
    by_cases hin : i.name = n
    · rw [List.filter_cons_of_neg (by simp [hin]), ih]
      by_cases hm : m = n
      · simp [hm]
      · simp [hm, hin, Ne.symm hm]
    · rw [List.filter_cons_of_pos (by simp [hin])]
      by_cases him : i.name = m
      · simp [him, show ¬ m = n from him ▸ hin]
      · simpa [List.find?_cons, him] using ih

theorem kind_cons (i : Item) (d : Disk) (m : Name) :
    kind (i :: d) m = if i.name = m then some i.kind else d.kind m := by
  unfold kind
  by_cases h : i.name = m <;> simp [h]

theorem isSome_kind : (d.kind m).isSome = true ↔ ∃ i ∈ d, i.name = m := by
  unfold kind
  simp

theorem exists_of_full (h : d.full n = true) : ∃ m, inDrawer n m = true ∧ (d.kind m).isSome = true := by
  obtain ⟨i, hi, hin⟩ := List.any_eq_true.mp h
  exact ⟨i.name, hin, isSome_kind.mpr ⟨i, hi, rfl⟩⟩

/-- A name stays as it is, or goes. -/
theorem kind_deleteFile (granted : Bool) (d : Disk) (n m : Name) :
    (d.deleteFile granted n).1.kind m = d.kind m ∨ (d.deleteFile granted n).1.kind m = none := by
  unfold deleteFile
  split
  · exact Or.inl rfl
  all_goals
    split
    · rw [kind_erase]
      split
      · exact Or.inr rfl
      · exact Or.inl rfl
    · exact Or.inl rfl

theorem deleteFile_done (h : (d.deleteFile granted n).2 = true) :
    (d.deleteFile granted n).1.kind n = none := by
  unfold deleteFile at h ⊢
  split at h
  · simp at h
  all_goals
    split at h
    · rename_i hg
      rw [if_pos hg, kind_erase, if_pos rfl]
    · simp at h

theorem kind_trans {d' d'' : Disk} (h : d'.kind m = d.kind m ∨ d'.kind m = none)
    (h' : d''.kind m = d'.kind m ∨ d''.kind m = none) : d''.kind m = d.kind m ∨ d''.kind m = none := by
  rcases h' with h' | h'
  · rw [h']
    exact h
  · exact Or.inr h'

theorem kind_folderDelete (addressable granted : Bool) (d : Disk) (n m : Name) :
    (d.folderDelete addressable granted n).1.kind m = d.kind m ∨
      (d.folderDelete addressable granted n).1.kind m = none := by
  unfold folderDelete
  dsimp only
  split
  · exact Or.inl rfl
  · split <;> exact kind_deleteFile granted d n m

/-- What is reported as gone is gone. -/
theorem folderDelete_done {addressable : Bool} (h : (d.folderDelete addressable granted n).2 = true) :
    (d.folderDelete addressable granted n).1.kind n = none := by
  unfold folderDelete at h ⊢
  dsimp only at h ⊢
  split at h
  · simp at h
  · rename_i ha
    rw [if_neg ha]
    split at h
    · rename_i hdone
      rw [if_pos hdone]
      exact deleteFile_done hdone
    · rename_i hdone
      rw [if_neg hdone]
      have hnone := Option.isNone_iff_eq_none.mp h
      rcases kind_deleteFile granted d n n with hk | hk
      · exact hk.trans hnone
      · exact hk

/-- Where nothing is in its way, it is gone. -/
theorem folderDelete_of_free (hfree : d.kind n = some .drawer → d.full n = false) :
    (d.folderDelete true true n).2 = true := by
  unfold folderDelete deleteFile
  cases hk : d.kind n with
  | none => simp
  | some k =>
    cases k with
    | file => simp
    | drawer => simp [hfree hk]

end Disk

/-! ## The archive -/

theorem inTrash_drawersOf {n m : Name} (h : m ∈ drawersOf (versionsDir ++ n)) : InTrash m := by
  obtain ⟨i, hi, hm⟩ := List.mem_filterMap.mp h
  have hlow : ∀ j < 11, versionsDir[j]? ≠ some slash := by decide
  split at hm
  · rename_i hslash
    obtain rfl := Option.some.inj hm
    have hlen : versionsDir.length = 12 := rfl
    rcases Nat.lt_or_ge i 11 with hlt | hge
    · rw [List.getElem?_append_left (by omega)] at hslash
      exact absurd hslash (hlow i hlt)
    · rcases Nat.eq_or_lt_of_le hge with rfl | hgt
      · exact Or.inr rfl
      · refine Or.inl ?_
        rw [List.take_append, List.take_of_length_le (by omega)]
        exact List.prefix_append _ _
  · simp at hm

/-- What lies in a drawer outside the archive is outside it too. -/
theorem not_inTrash_of_inDrawer {n m : Name} (hin : inDrawer n m = true) (hn : ¬ InTrash n) :
    ¬ InTrash m := by
  obtain ⟨hpre, -⟩ := Bool.and_eq_true_iff.mp hin
  obtain ⟨c, rfl⟩ := List.isPrefixOf_iff_prefix.mp hpre
  have hlow : ∀ j < 11, versionsDir[j]? ≠ some slash := by decide
  have hlen : versionsDir.length = 12 := rfl
  have hat : ∀ t, versionsDir <+: t → t[n.length]? = some slash → 11 ≤ n.length := by
    rintro t ⟨u, rfl⟩ hslash
    by_contra hlt
    rw [List.getElem?_append_left (by omega)] at hslash
    exact hlow n.length (by omega) hslash
  have hslash : ∀ u, (n ++ [slash] ++ u)[n.length]? = some slash := by
    intro u
    simp
  rintro (h | h)
  · have hge := hat _ h (hslash c)
    have hshort : versionsDir <+: n ++ [slash] :=
      List.prefix_of_prefix_length_le h (List.prefix_append _ _) (by simp; omega)
    rcases Nat.eq_or_lt_of_le hge with heq | hgt
    · exact hn (Or.inr (hshort.eq_of_length (by simp; omega)).symm)
    · exact hn (Or.inl (List.prefix_of_prefix_length_le hshort (List.prefix_append _ _) (by omega)))
  · have hpre : versionsDir <+: n ++ [slash] ++ (c ++ [slash]) := by
      rw [← List.append_assoc, h]
    have hge := hat _ hpre (hslash _)
    have hle := congrArg List.length h
    simp at hle
    omega

/-- Outside the archive, a name stays as it is, or goes. -/
theorem kind_folderArchive (versioning addressable : Bool) (a : Answer) (d : Disk) (n : Name) {m : Name}
    (hm : versioning = true → ¬ InTrash m) :
    (folderArchive versioning addressable a d n).kind m = d.kind m ∨
      (folderArchive versioning addressable a d n).kind m = none := by
  have hmade : ∀ (names : List Name) (d : Disk), m ∉ names → (names.foldl Disk.createDir d).kind m = d.kind m := by
    intro names
    induction names with
    | nil => exact fun _ _ => rfl
    | cons x names ih =>
      intro d hx
      obtain ⟨hne, hrest⟩ := not_or.mp (List.mem_cons.not.mp hx)
      rw [List.foldl_cons, ih _ hrest]
      unfold Disk.createDir
      split
      · rw [Disk.kind_cons, if_neg (Ne.symm hne)]
      · rfl
  unfold folderArchive
  dsimp only
  split
  · exact Or.inl rfl
  · rename_i hon
    have htrash : ¬ InTrash m := hm (by
      cases versioning with
      | true => rfl
      | false => simp at hon)
    have hdrawers : m ∉ (drawersOf (versionsDir ++ n)).take a.made :=
      fun h => htrash (inTrash_drawersOf (List.mem_of_mem_take h))
    have hdst : versionsDir ++ n ≠ m := fun h => htrash (Or.inl (h ▸ List.prefix_append _ _))
    rw [← hmade _ d hdrawers]
    split
    · exact Or.inl rfl
    · split
      · rw [Disk.kind_cons, if_neg hdst, Disk.kind_erase]
        split
        · exact Or.inr rfl
        · exact Disk.kind_deleteFile _ _ _ _
      · exact Disk.kind_deleteFile _ _ _ _

/-! ## Trees that go -/

/-- Nothing of that name is on the disk, and no record is live. -/
def Gone (v : Folders) (k : Key) : Prop := v.kind k = none ∧ (v.record k).all (·.deleted) = true

instance (v : Folders) (k : Key) : Decidable (Gone v k) := inferInstanceAs (Decidable (_ ∧ _))

/-- The record of the name does not stop the deletion. -/
def Wins (site : Site) (v : Folders) (e : Entry) : Prop :=
  if isDir e then Session.dirDeleteStale (v.record e.key) e.2 = false
  else syncClassifyIncoming (v.record e.key) (site.mode e.1) e.2 = .delete

instance (site : Site) (v : Folders) (e : Entry) : Decidable (Wins site v e) :=
  inferInstanceAs (Decidable (if isDir e then Session.dirDeleteStale (v.record e.key) e.2 = false
    else syncClassifyIncoming (v.record e.key) (site.mode e.1) e.2 = .delete))

/-- From `v` to `w` names only went, and so did the ones whose records changed. -/
def Later (site : Site) (v w : Folders) : Prop :=
  ∀ k : Key, (site.versioning = true → ¬ InTrash k.2) →
    (w.kind k = v.kind k ∨ w.kind k = none) ∧ (w.record k = v.record k ∨ Gone w k)

/-- Nothing is in the way of the deletions: no fetch wants a file, the drawers hold only what is
listed too, no record stops one, and what can be deleted is. -/
structure Clear (site : Site) (v : Folders) (defer : List Entry) : Prop where
  tombstones : ∀ e ∈ defer, e.2.deleted = true
  unwanted : ∀ e ∈ defer, isDir e = false → matchesPending site v e = false
  contents : ∀ e ∈ defer, isDir e = true → ∀ i ∈ v.disk e.1, inDrawer e.2.name i.name = true →
    (e.1, i.name) ∈ defer.map Entry.key
  files : ∀ e ∈ defer, isDir e = false → v.kind e.key ≠ some .drawer
  wins : ∀ e ∈ defer, Gone v e.key ∨ Wins site v e
  addressable : ∀ e ∈ defer, site.addressable e.1 e.2.name = true
  deletes : ∀ n, (site.answers n).deleted = true
  outside : site.versioning = true → ∀ e ∈ defer, ¬ InTrash e.2.name

section Trees
variable {site : Site} {u v w : Folders} {e : Entry} {k : Key}

theorem Later.refl (site : Site) (v : Folders) : Later site v v :=
  fun _ _ => ⟨Or.inl rfl, Or.inl rfl⟩

theorem Later.gone (h : Later site v w) (hk : site.versioning = true → ¬ InTrash k.2) (hg : Gone v k) :
    Gone w k := by
  obtain ⟨hkind, hrecord⟩ := h k hk
  rcases hrecord with hr | hr
  · refine ⟨?_, hr ▸ hg.2⟩
    rcases hkind with hd | hd
    · exact hd.trans hg.1
    · exact hd
  · exact hr

theorem Later.trans (h : Later site u v) (h' : Later site v w) : Later site u w := by
  intro k hk
  obtain ⟨hkind, hrecord⟩ := h k hk
  obtain ⟨hkind', hrecord'⟩ := h' k hk
  constructor
  · rcases hkind' with hd | hd
    · rw [hd]
      exact hkind
    · exact Or.inr hd
  · rcases hrecord' with hr | hr
    · rcases hrecord with hr₀ | hr₀
      · exact Or.inl (hr.trans hr₀)
      · exact Or.inr (h'.gone hk hr₀)
    · exact Or.inr hr

/-- A deletion that nothing stops is not stopped later. -/
theorem Later.wins (h : Later site v w) (hk : site.versioning = true → ¬ InTrash e.key.2)
    (hw : Gone v e.key ∨ Wins site v e) : Gone w e.key ∨ Wins site w e := by
  rcases hw with hg | hw
  · exact Or.inl (h.gone hk hg)
  · rcases (h e.key hk).2 with hr | hr
    · refine Or.inr ?_
      unfold Wins
      rw [hr]
      exact hw
    · exact Or.inl hr

theorem kind_setDisk (v : Folders) (f : FolderIdx) (d : Disk) (k : Key) :
    (v.setDisk f d).kind k = if k.1 = f then d.kind k.2 else v.kind k := by
  unfold Folders.setDisk Folders.kind
  dsimp only
  by_cases h : k.1 = f
  · rw [if_pos h, h, Function.update_self]
  · rw [if_neg h, Function.update_of_ne h]

/-- The disk of one folder shrinks, and a record is replaced when its name is gone. -/
theorem later_setDisk {d : Disk} (hd : ∀ m, (site.versioning = true → ¬ InTrash m) →
      d.kind m = (v.disk e.1).kind m ∨ d.kind m = none) :
    Later site v (v.setDisk e.1 d) := by
  intro k hk
  refine ⟨?_, Or.inl rfl⟩
  rw [kind_setDisk]
  split
  · rename_i hf
    have hsame : v.kind k = (v.disk e.1).kind k.2 := by rw [← hf]; rfl
    rw [hsame]
    exact hd k.2 hk
  · exact Or.inl rfl

theorem later_store (hdel : e.2.deleted = true) (hgone : v.kind e.key = none) (mem : UpsertMem) :
    Later site v (v.store e mem) ∧ Gone (v.store e mem) e.key := by
  have hg : Gone (v.store e mem) e.key := ⟨hgone, record_store_self hdel mem⟩
  refine ⟨?_, hg⟩
  intro k _
  refine ⟨Or.inl rfl, ?_⟩
  by_cases hk : k = e.key
  · exact Or.inr (hk ▸ hg)
  · exact Or.inl (record_store_of_ne hk mem)

/-- **File.** It is gone afterwards, and nothing else came. -/
theorem gone_file (hdir : isDir e = false) (hkind : v.kind e.key ≠ some .drawer)
    (haddr : site.addressable e.1 e.2.name = true) (hdeletes : ∀ n, (site.answers n).deleted = true)
    (hout : site.versioning = true → ¬ InTrash e.2.name) (hw : Gone v e.key ∨ Wins site v e) :
    Later site v (applyDeferredDelete site v e) ∧ Gone (applyDeferredDelete site v e) e.key := by
  unfold applyDeferredDelete
  split
  · rename_i hact
    unfold applyPeerDelete
    dsimp only
    generalize ha : site.answers v.calls = a
    have hgranted : a.deleted = true := ha ▸ hdeletes v.calls
    rw [haddr, hgranted]
    generalize harch : folderArchive site.versioning true a (v.disk e.1) e.2.name = d
    generalize htemp : (site.temp e.2.name).elim d (fun t => (d.deleteFile a.cleared t).1) = d'
    have hshrink : ∀ m, (site.versioning = true → ¬ InTrash m) →
        d'.kind m = (v.disk e.1).kind m ∨ d'.kind m = none := by
      intro m hm
      have hfirst := kind_folderArchive site.versioning true a (v.disk e.1) e.2.name hm
      rw [harch] at hfirst
      have hsecond : d'.kind m = d.kind m ∨ d'.kind m = none := by
        rw [← htemp]
        cases site.temp e.2.name with
        | none => exact Or.inl rfl
        | some t => exact Disk.kind_deleteFile _ _ _ _
      exact Disk.kind_trans hfirst hsecond
    have hfree : d'.kind e.2.name ≠ some .drawer := by
      rcases hshrink e.2.name hout with h | h
      · rw [h]
        exact hkind
      · rw [h]
        simp
    have hdone := Disk.folderDelete_of_free (d := d') (n := e.2.name) (fun h => absurd h hfree)
    rw [if_pos hdone]
    have hlater : Later site v (v.setDisk e.1 (d'.folderDelete true true e.2.name).1) :=
      later_setDisk fun m hm => Disk.kind_trans (hshrink m hm) (Disk.kind_folderDelete true true d' _ m)
    have hnone : (v.setDisk e.1 (d'.folderDelete true true e.2.name).1).kind e.key = none := by
      rw [kind_setDisk, if_pos (show e.key.1 = e.1 from rfl)]
      exact Disk.folderDelete_done hdone
    obtain ⟨hstored, hgone⟩ := later_store (deleted_of_classify hact) hnone a.mem
    exact ⟨hlater.trans hstored, hgone⟩
  · rename_i hact
    rcases hw with hg | hw
    · exact ⟨Later.refl site v, hg⟩
    · unfold Wins at hw
      rw [hdir] at hw
      exact absurd hw hact

/-- **Drawer.** Once it is empty it is gone, too. -/
theorem gone_drawer (hdir : isDir e = true) (hdel : e.2.deleted = true)
    (hempty : ∀ m, inDrawer e.2.name m = true → v.kind (e.1, m) = none)
    (haddr : site.addressable e.1 e.2.name = true) (hdeletes : ∀ n, (site.answers n).deleted = true)
    (hw : Gone v e.key ∨ Wins site v e) :
    Later site v (applyPeerDirDelete site v e).1 ∧ Gone (applyPeerDirDelete site v e).1 e.key ∧
      (applyPeerDirDelete site v e).2 = true := by
  unfold applyPeerDirDelete
  dsimp only
  split
  · rename_i hstale
    rcases hw with hg | hw
    · exact ⟨Later.refl site v, hg, rfl⟩
    · unfold Wins at hw
      rw [if_pos hdir, hstale] at hw
      simp at hw
  · have hgranted := hdeletes v.calls
    rw [haddr, hgranted]
    have hfree : (v.disk e.1).full e.2.name = false := by
      by_contra hfull
      obtain ⟨m, hin, hsome⟩ := Disk.exists_of_full (Bool.not_eq_false _ ▸ hfull)
      have hnone : (v.disk e.1).kind m = none := hempty m hin
      rw [hnone] at hsome
      simp at hsome
    have hdone := Disk.folderDelete_of_free (d := v.disk e.1) (n := e.2.name) (fun _ => hfree)
    rw [hdone, Bool.true_or, if_pos rfl]
    have hlater : Later site v (v.setDisk e.1 ((v.disk e.1).folderDelete true true e.2.name).1) :=
      later_setDisk fun m _ => Disk.kind_folderDelete true true (v.disk e.1) _ m
    have hnone : (v.setDisk e.1 ((v.disk e.1).folderDelete true true e.2.name).1).kind e.key = none := by
      rw [kind_setDisk, if_pos (show e.key.1 = e.1 from rfl)]
      exact Disk.folderDelete_done hdone
    obtain ⟨hstored, hgone⟩ := later_store hdel hnone (site.answers v.calls).mem
    exact ⟨hlater.trans hstored, hgone, rfl⟩

theorem nameDepth_of_inDrawer {n m : Name} (h : inDrawer n m = true) : nameDepth n < nameDepth m := by
  obtain ⟨hpre, -⟩ := Bool.and_eq_true_iff.mp h
  obtain ⟨c, rfl⟩ := List.isPrefixOf_iff_prefix.mp hpre
  unfold nameDepth
  rw [List.count_append, List.count_append, List.count_singleton_self]
  omega

/-- Every file of the list, in any order. -/
theorem gone_files {defer applied : List Entry} (hc : Clear site v defer) (hlater : Later site v w)
    (hsub : ∀ e ∈ applied, e ∈ defer ∧ isDir e = false) :
    Later site w (applied.foldl (applyDeferredDelete site) w) ∧
      ∀ e ∈ applied, Gone (applied.foldl (applyDeferredDelete site) w) e.key := by
  induction applied generalizing w with
  | nil => exact ⟨Later.refl site w, by simp⟩
  | cons e applied ih =>
    obtain ⟨hmem, hdir⟩ := hsub e List.mem_cons_self
    have hout : site.versioning = true → ¬ InTrash e.key.2 := fun hv => hc.outside hv e hmem
    have hkind : w.kind e.key ≠ some .drawer := by
      rcases (hlater e.key hout).1 with h | h
      · rw [h]
        exact hc.files e hmem hdir
      · rw [h]
        simp
    obtain ⟨hstep, hgone⟩ := gone_file hdir hkind (hc.addressable e hmem) hc.deletes hout
      (hlater.wins hout (hc.wins e hmem))
    obtain ⟨hall, hrest⟩ := ih (hlater.trans hstep) fun e' he' => hsub e' (List.mem_cons_of_mem _ he')
    refine ⟨hstep.trans hall, ?_⟩
    intro e' he'
    rcases List.mem_cons.mp he' with rfl | he'
    · exact hall.gone hout hgone
    · exact hrest e' he'

/-- The drawers of the list, deepest first, after its files. -/
theorem gone_drawers {defer : List Entry} {order : List (Entry × UInt8)} (progress : Nat) (hc : Clear site v defer) (hlater : Later site v w)
    (hsub : ∀ p ∈ order, p.1 ∈ defer ∧ isDir p.1 = true)
    (hcover : ∀ e ∈ defer, Gone w e.key ∨ e ∈ order.map Prod.fst)
    (hsorted : order.Pairwise fun p q => nameDepth q.1.2.name ≤ nameDepth p.1.2.name) :
    (∀ e ∈ defer, Gone (attempts site w progress order).1 e.key) ∧
      ∀ a ∈ (attempts site w progress order).2, a.settled = true := by
  induction order generalizing w progress with
  | nil =>
    refine ⟨?_, by simp [attempts]⟩
    intro e he
    exact (hcover e he).resolve_right (by simp)
  | cons p order ih =>
    obtain ⟨hmem, hdir⟩ := hsub p List.mem_cons_self
    obtain ⟨hdeepest, hsorted⟩ := List.pairwise_cons.mp hsorted
    have hout : site.versioning = true → ¬ InTrash p.1.key.2 := fun hv => hc.outside hv p.1 hmem
    -- what is in the drawer is listed: the files went, and deeper drawers come before it
    have hempty : ∀ m, inDrawer p.1.2.name m = true → w.kind (p.1.1, m) = none := by
      intro m hin
      have hm : site.versioning = true → ¬ InTrash m :=
        fun hv => not_inTrash_of_inDrawer hin (hout hv)
      rcases (hlater (p.1.1, m) hm).1 with h | h
      · by_contra hsome
        rw [h] at hsome
        obtain ⟨i, hi, rfl⟩ := Disk.isSome_kind.mp (Option.isSome_iff_ne_none.mpr hsome)
        obtain ⟨c, hcmem, hckey⟩ := List.mem_map.mp (hc.contents p.1 hmem hdir i hi hin)
        rcases hcover c hcmem with hg | hg
        · rw [hckey] at hg
          exact hsome (h ▸ hg.1)
        · have hdeep := nameDepth_of_inDrawer hin
          have hname : c.2.name = i.name := congrArg Prod.snd hckey
          rw [List.map_cons] at hg
          rcases List.mem_cons.mp hg with rfl | hg
          · rw [hname] at hdeep
            omega
          · obtain ⟨q, hq, rfl⟩ := List.mem_map.mp hg
            have := hdeepest q hq
            rw [hname] at this
            omega
      · exact h
    obtain ⟨hstep, hgone, hsettled⟩ := gone_drawer hdir (hc.tombstones p.1 hmem) hempty
      (hc.addressable p.1 hmem) hc.deletes (hlater.wins hout (hc.wins p.1 hmem))
    have hcover' : ∀ e ∈ defer, Gone (applyPeerDirDelete site w p.1).1 e.key ∨ e ∈ order.map Prod.fst := by
      intro e he
      rcases hcover e he with hg | hg
      · exact Or.inl (hstep.gone (fun hv => hc.outside hv e he) hg)
      · rw [List.map_cons] at hg
        rcases List.mem_cons.mp hg with rfl | hg
        · exact Or.inl hgone
        · exact Or.inr hg
    obtain ⟨hall, hrest⟩ := ih (progress + 1) (hlater.trans hstep)
      (fun q hq => hsub q (List.mem_cons_of_mem _ hq)) hcover' hsorted
    rw [attempts, hsettled]
    refine ⟨hall, ?_⟩
    intro a ha
    rcases List.mem_cons.mp ha with rfl | ha
    · rfl
    · exact hrest a ha

end Trees

/-- **Flush of deferred deletions.** A flush keeps the files that are wanted and the drawers that
could not be removed yet; where nothing is in the way, it removes all that is listed. -/
theorem flush_deferred_converges (site : Site) (done : Nat) (s : Flusher) :
    Flushed site done s (flushDeferred site done s) ∧
      (Clear site s.folders s.defer →
        (flushDeferred site done s).defer = [] ∧
          ∀ e ∈ s.defer, Gone (flushDeferred site done s).folders e.key) := by
  have hflushed := flushed_flushDeferred site done s
  refine ⟨hflushed, ?_⟩
  intro hc
  obtain ⟨applied, order, happlied, horder, hsorted, hfolders, -, hdefer⟩ := hflushed
  have hfile : ∀ e ∈ s.defer, e ∈ applied ↔ isDir e = false := by
    intro e he
    rw [happlied.mem_iff, List.mem_filter]
    constructor
    · rintro ⟨-, h⟩
      cases hd : isDir e with
      | false => rfl
      | true => simp [hd] at h
    · intro hd
      exact ⟨he, by simp [hd, hc.unwanted e he hd]⟩
  have hmem : ∀ e ∈ applied, e ∈ s.defer := fun e he => (List.mem_filter.mp (happlied.mem_iff.mp he)).1
  obtain ⟨hlater, hgone⟩ := gone_files hc (Later.refl site s.folders)
    (fun e he => ⟨hmem e he, (hfile e (hmem e he)).mp he⟩)
  obtain ⟨hall, hsettled⟩ := gone_drawers (done + applied.length) hc hlater (by
      intro p (hp : p ∈ order)
      have := horder.mem_iff.mp (List.mem_map_of_mem hp)
      exact List.mem_filter.mp this)
    (by
      intro e he
      cases hd : isDir e with
      | false => exact Or.inl (hgone e ((hfile e he).mpr hd))
      | true => exact Or.inr (horder.mem_iff.mpr (List.mem_filter.mpr ⟨he, hd⟩)))
    hsorted
  refine ⟨?_, ?_⟩
  · have hfiles : (s.defer.filter fun e => !isDir e && matchesPending site s.folders e) = [] := by
      refine List.filter_eq_nil_iff.mpr ?_
      intro e he
      cases hd : isDir e with
      | true => simp
      | false => simp [hc.unwanted e he hd]
    have hkept : (attempts site (applied.foldl (applyDeferredDelete site) s.folders)
        (done + applied.length) order).2.filter Attempt.kept = [] := by
      refine List.filter_eq_nil_iff.mpr ?_
      intro a ha
      simp [Attempt.kept, hsettled a ha]
    rw [hfiles, hkept] at hdefer
    exact hdefer.eq_nil
  · intro e he
    rw [hfolders]
    exact hall e he

/-! ## Where the records or the names are in the way -/

/-- The same with the versions alone: the records of files on the disk are strictly dominated, and
those of drawers do not strictly dominate. -/
structure ByVersion (site : Site) (v : Folders) (defer : List Entry) : Prop where
  short : defer.length ≤ wkMaxDefer
  tombstones : ∀ e ∈ defer, e.2.deleted = true
  folder : ∀ e ∈ defer, ∀ e' ∈ defer, e.1 = e'.1
  unwanted : ∀ e ∈ defer, isDir e = false → matchesPending site v e = false
  contents : ∀ e ∈ defer, isDir e = true → ∀ i ∈ v.disk e.1, inDrawer e.2.name i.name = true →
    (e.1, i.name) ∈ defer.map Entry.key
  files : ∀ e ∈ defer, isDir e = false → v.kind e.key ≠ none →
    (v.kind e.key = some .file ∧ (v.record e.key).any fun h =>
      !h.deleted && syncVersionCompare h.version e.2.version = .theirs)
  drawers : ∀ e ∈ defer, isDir e = true →
    (v.record e.key).all (fun h => syncVersionCompare h.version e.2.version ≠ .ours) = true
  deletes : ∀ n, (site.answers n).deleted = true

def plainSite (versioning addressable : Bool) : Site where
  mode := fun _ => .sendReceive
  versioning := versioning
  addressable := fun _ _ => addressable
  temp := fun n => some (n ++ amitmp)
  wantAny := fun _ _ _ => false
  outstanding := fun _ => false
  answers := fun _ => ⟨2, true, true, true, true, ⟨true, true⟩⟩

def plainRecord (n : Name) (type : BepFileType) (deleted : Bool) (modifiedS : Int) (version : BepVector) :
    SyncMeta :=
  { SyncMeta.zero n with type := type, deleted := deleted, modifiedS := modifiedS, version := version }

/-- One folder with some records and a disk, and a list of deletions in it. -/
def plainFlusher (records : List SyncMeta) (disk : Disk) (defer : List SyncMeta) : Flusher where
  folders :=
    { index := fun _ => records.foldl (fun fs m => fs.store m [] ⟨true, true⟩) (.empty 1)
      disk := fun _ => disk
      calls := 0 }
  defer := defer.map fun m => (0, m)
  tries := fun _ => 0
  progress := 0

/-- A drawer in a drawer with a file, in the order in which they cannot be removed. -/
def sampleTree : Flusher :=
  let a : Name := [97]
  let b : Name := [97, 47, 98]
  let c : Name := [97, 47, 98, 47, 99]
  let one := BepVector.single 7 1
  let two := BepVector.single 7 2
  plainFlusher
    [plainRecord a .directory false 3 one, plainRecord b .directory false 3 one,
      plainRecord c .file false 3 one]
    [⟨a, .drawer⟩, ⟨b, .drawer⟩, ⟨c, .file⟩]
    [plainRecord a .directory true 3 two, plainRecord b .directory true 3 two,
      plainRecord c .file true 3 two]

theorem flush_sampleTree : (flushDeferred (plainSite false true) 0 sampleTree).defer = [] ∧
    ∀ e ∈ sampleTree.defer,
      Gone (flushDeferred (plainSite false true) 0 sampleTree).folders e.key :=
  (flush_deferred_converges (plainSite false true) 0 sampleTree).2
    ⟨by decide, by decide, by decide, by decide, by decide, by decide, fun _ => rfl, by decide⟩

/-- A drawer whose record has no version and a later time; one that was made again after its
deletion; a file that is not there, with a record of its own; one whose path cannot be formed; and
one whose place in the archive is taken by the next. -/
def leftOver : List (Site × Flusher) :=
  let a : Name := [97]
  let archived : Name := versionsDir ++ a
  let one := BepVector.single 7 1
  let two := BepVector.single 7 2
  [(plainSite false true, plainFlusher [plainRecord a .directory false 5 .empty] [⟨a, .drawer⟩]
      [plainRecord a .directory true 3 .empty]),
    (plainSite false true, plainFlusher [plainRecord a .directory true 3 one] [⟨a, .drawer⟩]
      [plainRecord a .directory true 3 one]),
    (plainSite false true, plainFlusher [plainRecord a .file false 3 two] []
      [plainRecord a .file true 3 one]),
    (plainSite false false, plainFlusher [plainRecord a .file false 3 one] []
      [plainRecord a .file true 3 two]),
    (plainSite true true,
      plainFlusher [plainRecord archived .file false 3 one, plainRecord a .file false 3 one]
        [⟨archived, .file⟩, ⟨a, .file⟩]
        [plainRecord archived .file true 3 two, plainRecord a .file true 3 two])]

theorem flush_leaves : leftOver.Forall fun c => ByVersion c.1 c.2.folders c.2.defer ∧
    ∃ e ∈ c.2.defer, ¬ Gone (flushDeferred c.1 0 c.2).folders e.key := by
  have hdeletes : ∀ c ∈ leftOver, ∀ n, (c.1.answers n).deleted = true := by
    intro c hc n
    simp only [leftOver, List.mem_cons, List.not_mem_nil, or_false] at hc
    rcases hc with rfl | rfl | rfl | rfl | rfl <;> rfl
  rw [List.forall_iff_forall_mem]
  intro c hc
  refine ⟨⟨?_, ?_, ?_, ?_, ?_, ?_, ?_, hdeletes c hc⟩, ?_⟩
  all_goals
    revert c
    decide

end Amisync.Deferred

import Amisync.Ignore
import Amisync.Lib.Machine
import Amisync.Scanner

/-!
# Loading the ignore rules (`folder.c`)

Every pass reads `.stignore` again, and the files it includes. A file that is
there may still fail to open.

* `folderLoadIgnores`: the rules a pass goes by. Its answer tells rules that
  could not be read from rules that are not there, but the scanner does not ask.
* `RuleFile`: the files that make up the rules of a folder.
* `folderLoadIgnores_of_opens`: where they all open, nothing is missing.
* `hidden_scanFolder`: a pass shows nothing that its own rules ignore.
* `ignored_stays_hidden`: in runs in which they all open, nothing that the full
  rules ignore is shown.
-/

namespace Amisync

namespace Rules

/-! ## Files -/

/-- How much of a file is read. -/
def ignoreFileMax : Nat := 8192

/-- How deep includes nest. -/
def includeMax : Nat := 4

/-- `join_full` on a name the user wrote, which may bring a volume of its own. -/
def includePath (root name : Bytes) : Option Path :=
  if colon ∈ name then
    if amigaPathMax + 1 ≤ root.length then none
    else fitted (amigaPathMax + 1)
      (if name.head? = some colon then root.takeWhile (· ≠ colon) ++ name else name)
  else joinFull root name

section Load
variable (root : Path) (text : Path → Option Bytes) (opens : Path → Bool)

/-- `text` is what is on disk, `opens` the answer of `Open` where there is a file. -/
def readIgnoreFile (p : Path) : Option Bytes :=
  if opens p then (text p).map (List.take ignoreFileMax) else none

/-- `folder_include`, with the number of levels that are left. -/
def folderInclude : Nat → Bytes → IgnoreSet → IgnoreSet
  | 0, _, set => set
  | levels + 1, name, set =>
    match (includePath root name).bind (readIgnoreFile text opens) with
    | none => set
    | some body => ignoreParse (folderInclude levels) set body

inductive LoadAnswer where
  /-- 0: there are no rules. -/
  | none
  /-- -1: there are rules, and they cannot be read. -/
  | unreadable
  /-- 1 -/
  | loaded
  deriving DecidableEq, Repr

def folderLoadIgnores : IgnoreSet × LoadAnswer :=
  match joinFull root stignore with
  | none => (IgnoreSet.empty, .none)
  | some full => match readIgnoreFile text opens full with
    | none => (IgnoreSet.empty, if (text full).isSome then .unreadable else .none)
    | some body =>
      (ignoreParse (folderInclude root text opens includeMax) IgnoreSet.empty body, .loaded)

/-- The files of a folder's rules, each with the number of levels its includes may nest. -/
inductive RuleFile : Nat → Path → Prop
  | top {p : Path} (hp : joinFull root stignore = some p) : RuleFile includeMax p
  | included {levels : Nat} {p q : Path} {body line name : Bytes} (hp : RuleFile (levels + 1) p)
      (ht : text p = some body) (hl : line ∈ ignoreLines (body.take ignoreFileMax))
      (hn : readLine line = .included name) (hq : includePath root name = some q) :
      RuleFile levels q

end Load

section Opens
variable {root : Path} {text : Path → Option Bytes} {opens : Path → Bool}

theorem readIgnoreFile_of_opens {p : Path} (h : opens p = true) :
    readIgnoreFile text opens p = readIgnoreFile text (fun _ => true) p := by
  rw [readIgnoreFile, readIgnoreFile, if_pos h, if_pos rfl]

/-- A file of the rules reads the same whether only these open or all do. -/
theorem ignoreParse_of_opens (h : ∀ l p, RuleFile root text l p → opens p = true) (levels : Nat)
    {p : Path} {body : Bytes} (hp : RuleFile root text levels p) (ht : text p = some body)
    (set : IgnoreSet) :
    ignoreParse (folderInclude root text opens levels) set (body.take ignoreFileMax) =
      ignoreParse (folderInclude root text (fun _ => true) levels) set
        (body.take ignoreFileMax) := by
  induction levels generalizing p body set with
  | zero =>
    apply ignoreParse_congr
    intro line _ name _ set
    rw [folderInclude, folderInclude]
  | succ levels ih =>
    apply ignoreParse_congr
    intro line hl name hn set
    rw [folderInclude, folderInclude]
    cases hq : includePath root name with
    | none => rfl
    | some q =>
      have hrule : RuleFile root text levels q := .included hp ht hl hn hq
      rw [Option.bind_some, Option.bind_some, readIgnoreFile_of_opens (h _ _ hrule)]
      cases hbody : text q with
      | none =>
        rw [readIgnoreFile, if_pos rfl, hbody]
        rfl
      | some body' =>
        rw [readIgnoreFile, if_pos rfl, hbody]
        exact ih hrule hbody set

/-- **Load.** Where every file of the rules opens, the rules are the full ones. -/
theorem folderLoadIgnores_of_opens (h : ∀ l p, RuleFile root text l p → opens p = true) :
    folderLoadIgnores root text opens = folderLoadIgnores root text fun _ => true := by
  rw [folderLoadIgnores, folderLoadIgnores]
  cases hfull : joinFull root stignore with
  | none => rfl
  | some full =>
    have hrule : RuleFile root text includeMax full := .top hfull
    dsimp only
    rw [readIgnoreFile_of_opens (h _ _ hrule)]
    cases hbody : text full with
    | none =>
      rw [readIgnoreFile, if_pos rfl, hbody]
      rfl
    | some body =>
      rw [readIgnoreFile, if_pos rfl, hbody]
      exact congrArg (fun set => (set, LoadAnswer.loaded))
        (ignoreParse_of_opens h includeMax hrule hbody IgnoreSet.empty)

end Opens

/-! ## What a pass shows -/

def Live (r : SyncMeta) : Prop := r.deleted = false ∧ r.invalid = false

instance (r : SyncMeta) : Decidable (Live r) := inferInstanceAs (Decidable (_ ∧ _))

/-- No record was added for an ignored name, and none of these became live. -/
def Hidden (ign : Name → Bool) (fs fs' : FolderState) : Prop :=
  ∀ n t, ign n = true → fs'.find n = some t →
    ∃ s, fs.find n = some s ∧ (Live t.record → Live s.record)

section Pass
variable {env : ScanEnv} {present : Name → Bool} {fs : FolderState} {n : Name}

theorem ign_of_reported {ign : Name → Bool} {rel : Name} {depth : Nat} {l : Bytes}
    (h : reported ign rel depth l = some n) : ign n = false := by
  rw [reported] at h
  split at h
  · exact absurd h (by simp)
  · split at h
    · exact absurd h (by simp)
    · split at h
      · exact absurd h (by simp)
      · rename_i hign
        rw [Option.some.injEq] at h
        rwa [h, Bool.not_eq_true] at hign

/-- The walk reports nothing that is ignored. -/
theorem ign_of_reaches {ign : Name → Bool} {t : Tree} {abs : Path} {rel : Name} {depth : Nat}
    (h : Reaches ign n t abs rel depth) : ign n = false := by
  induction h with
  | here _ hn => exact ign_of_reported hn
  | inside _ _ _ _ _ _ ih => exact ih

theorem ign_of_mem_walk {ign : Name → Bool} {t : Tree} {abs : Path} {rel : Name} {depth : Nat}
    {e : FolderEntry} (h : e ∈ walk ign t abs rel depth) : ign e.name = false :=
  ign_of_reaches ((mem_walk_iff t abs rel depth).mp ⟨e, h, rfl⟩)

theorem scan_other (hmode : env.mode ≠ .receiveOnly) (es : List FolderEntry)
    (h : ∀ e ∈ es, n ≠ e.name) : (es.foldl (scanEntry env present) fs).find n = fs.find n := by
  induction es generalizing fs with
  | nil => rfl
  | cons e es ih =>
    rw [List.foldl_cons, ih fun e' he' => h e' (List.mem_cons_of_mem _ he')]
    exact scanEntry_other hmode (h e List.mem_cons_self)

/-- The sweep leaves an ignored record as it is, or marks it invalid. -/
theorem sweepDeletions_ignored {before : Int} {t : Slot} (hign : env.ign n = true)
    (ht : (sweepDeletions env before fs).find n = some t) :
    ∃ s, fs.find n = some s ∧ (t = s ∨ t.record.invalid = true) := by
  cases hs : fs.find n with
  | none =>
    have hother : ∀ s ∈ fs.files, s.name ≠ n := by
      intro s hmem hname
      rw [← hname, fs.find_of_mem hmem] at hs
      exact absurd hs (by simp)
    have hnone : (sweepDeletions env before fs).find n = none :=
      (foldl_sweepSlot_other fs.files hother).trans hs
    rw [hnone] at ht
    exact absurd ht (by simp)
  | some s =>
    obtain ⟨rfl, fs₁, hs₁, hown⟩ := sweepDeletions_own env before hs
    refine ⟨s, rfl, ?_⟩
    rw [hown, sweepSlot, hign] at ht
    split at ht
    · exact Or.inl (Option.some.inj (ht.symm.trans hs₁))
    · rw [if_pos rfl] at ht
      split at ht
      · have hstored := fs₁.find_store_self (m := { s.record with invalid := true }) hs₁ []
          (env.mem s.name)
        obtain rfl := Option.some.inj (hstored.symm.trans ht)
        exact Or.inr rfl
      · exact Or.inl (Option.some.inj (ht.symm.trans hs₁))

/-- **Pass.** What the rules of a pass ignore stays hidden in it. -/
theorem hidden_scanFolder (hmode : env.mode = .sendReceive) (tree : Option Tree)
    (stop : Option Nat) (fs : FolderState) :
    Hidden env.ign fs (scanFolder env tree stop fs).1 := by
  have hrecv : env.mode ≠ .receiveOnly := by rw [hmode]; decide
  have hclear : ∀ n t, fs.clearSeen.find n = some t → ∃ s, fs.find n = some s ∧
      (Live t.record → Live s.record) := by
    intro n t ht
    rw [FolderState.clearSeen, FolderState.find_setSeen] at ht
    obtain ⟨s, hs, rfl⟩ := Option.map_eq_some_iff.mp ht
    exact ⟨s, hs, id⟩
  intro n t hign ht
  cases tree with
  | none => exact hclear n t ht
  | some root =>
    have hes : ∀ e ∈ walk env.ign root env.path [] 0, n ≠ e.name := by
      rintro e he rfl
      rw [ign_of_mem_walk he] at hign
      exact absurd hign (by simp)
    rw [scanFolder, scanPass] at ht
    split at ht
    · dsimp only at ht
      rw [scan_other hrecv _ fun e he => hes e (List.mem_of_mem_take he)] at ht
      exact hclear n t ht
    · dsimp only at ht
      obtain ⟨s, hs, hcase⟩ := sweepDeletions_ignored hign ht
      rw [scan_other hrecv _ hes] at hs
      obtain ⟨s₀, hs₀, hlive⟩ := hclear n s hs
      refine ⟨s₀, hs₀, fun h => ?_⟩
      rcases hcase with rfl | hinv
      · exact hlive h
      · rw [h.2] at hinv
        exact absurd hinv (by simp)

end Pass

/-! ## Runs -/

section Runs
variable (root : Path) (text : Path → Option Bytes)

/-- The rules as they are when every file can be read. -/
def full (n : Name) : Bool := ignoreMatch (folderLoadIgnores root text fun _ => true).1 n

inductive Step where
  | pass (env : ScanEnv) (opens : Path → Bool) (tree : Option Tree) (stop : Option Nat)
  /-- Anything another process makes of the index. -/
  | others (fs : FolderState)

/-- What a pass over a send-receive folder goes by; the loader's answer is not looked at. -/
def passEnv (env : ScanEnv) (opens : Path → Bool) : ScanEnv :=
  { env with
    mode := .sendReceive
    path := root
    ign := ignoreMatch (folderLoadIgnores root text opens).1 }

def exec (fs : FolderState) : Step → Option FolderState
  | .pass env opens tree stop => some (scanFolder (passEnv root text env opens) tree stop fs).1
  | .others fs => some fs

/-- Every file of the rules opens. -/
def AllOpen (_ : FolderState) : Step → Prop
  | .pass _ opens _ _ => ∀ l p, RuleFile root text l p → opens p = true
  | .others _ => True

/-- A pass shows nothing that the full rules ignore. -/
def StaysHidden (fs : FolderState) : Step → Prop
  | .pass env opens tree stop => ∀ fs', exec root text fs (.pass env opens tree stop) = some fs' →
      Hidden (full root text) fs fs'
  | .others _ => True

theorem staysHidden_of_allOpen (fs : FolderState) (e : Step) (h : AllOpen root text fs e) :
    StaysHidden root text fs e := by
  cases e with
  | others fs => trivial
  | pass env opens tree stop =>
    intro fs' hfs'
    obtain rfl : (scanFolder (passEnv root text env opens) tree stop fs).1 = fs' :=
      Option.some.inj hfs'
    have hign : (passEnv root text env opens).ign = full root text := by
      rw [passEnv, folderLoadIgnores_of_opens h]
      rfl
    rw [← hign]
    exact hidden_scanFolder rfl tree stop fs

/-- **Nothing is un-hidden.** In every run in which each pass can open every file of the rules,
no pass adds a record, or makes one live, for a name that the full rules ignore. -/
theorem ignored_stays_hidden (fs : FolderState) (es : List Step)
    (h : Machine.Along (exec root text) (AllOpen root text) fs es) :
    Machine.Along (exec root text) (StaysHidden root text) fs es :=
  Machine.along_mono (staysHidden_of_allOpen root text) h

end Runs

/-! ### One private file -/

/-- The folder `W:` with the rule `s`. -/
def privateText (p : Path) : Option Bytes :=
  if p = [87, 58] ++ stignore then some [115, 10] else none

def privateEnv : ScanEnv where
  mode := .sendReceive
  ign := fun _ => false
  tz := 0
  path := [87, 58]
  fold := id
  hash := fun _ => .ok ⟨List.replicate 32 0, rfl⟩ [] 1
  stamp := fun _ => 1
  mem := fun _ => ⟨true, true⟩
  now := 400000000

/-- The file `s` beside the rules. -/
def privateTree : Tree :=
  .drawer 2 300000000 (.cons stignore (.file 2 300000000) (.cons [115] (.file 1 300000000) .nil))

/-- A pass that can, or cannot, open the rules. -/
def privatePass (opens : Bool) : Step := .pass privateEnv (fun _ => opens) (some privateTree) none

/-- After a pass that went by the rules comes one that could not open them, and the private
file is recorded. -/
theorem blip_shows :
    full [87, 58] privateText [115] = true ∧
    (folderLoadIgnores [87, 58] privateText fun _ => false).2 = .unreadable ∧
    (∃ fs fs', Machine.run (exec [87, 58] privateText) (FolderState.empty 1) [privatePass true] =
        some fs ∧ fs.find [115] = none ∧
      Machine.run (exec [87, 58] privateText) fs [privatePass false] = some fs' ∧
      ∃ t, fs'.find [115] = some t ∧ Live t.record) ∧
    ¬ Machine.Along (exec [87, 58] privateText) (StaysHidden [87, 58] privateText)
      (FolderState.empty 1) [privatePass true, privatePass false] := by
  have hfull : full [87, 58] privateText [115] = true := by decide +kernel
  have hnone : ((scanFolder (passEnv [87, 58] privateText privateEnv fun _ => true)
      (some privateTree) none (FolderState.empty 1)).1.find [115]) = none := by decide +kernel
  have hany : ((scanFolder (passEnv [87, 58] privateText privateEnv fun _ => false)
      (some privateTree) none (scanFolder (passEnv [87, 58] privateText privateEnv fun _ => true)
      (some privateTree) none (FolderState.empty 1)).1).1.find [115]).any
        (fun t => decide (Live t.record)) = true := by decide +kernel
  obtain ⟨t, ht, hlive⟩ := (Option.any_eq_true ..).mp hany
  refine ⟨hfull, by decide +kernel, ⟨_, _, rfl, hnone, rfl, t, ht, by simpa using hlive⟩,
    fun h => ?_⟩
  obtain ⟨s, hs, -⟩ := (h.2 _ rfl).1 _ rfl [115] t hfull ht
  exact absurd (hnone.symm.trans hs) (by simp)

/-- Passes that can open the rules keep the file out of the index. -/
theorem private_stays_hidden :
    full [87, 58] privateText [115] = true ∧
    Machine.Along (exec [87, 58] privateText) (StaysHidden [87, 58] privateText)
      (FolderState.empty 1) [privatePass true, privatePass true] :=
  ⟨by decide +kernel, ignored_stays_hidden [87, 58] privateText (FolderState.empty 1) _
    ⟨fun _ _ _ => rfl, fun _ _ => ⟨fun _ _ _ => rfl, fun _ _ => trivial⟩⟩⟩

end Rules

end Amisync

import Amisync.Scanner
import Amisync.Lib.Machine

/-!
# Receive-only folders (`scanner.c`)

A mirror never claims a change as its own: what the scanner does to the index of
a receive-only folder is to mark records or to forget them. Passes take turns
with everyone else who writes to the index, entry by entry.

* `Unauthored`: a step left behind no record of ours and no tombstone that was
  not there before.
* `unauthored_scanEntry`: so does every entry of a pass, unless it is a directory
  that has no live record.
* `mirror_not_authored`: runs that meet no such directory.
* `mirrored_pass`: a pass of `scanFolder` is such a run.
-/

namespace Amisync

namespace Mirror

/-! ## Turns -/

/-- The index, and the sequence a pass that is under way began at. -/
structure State where
  fs : FolderState
  before : Int

inductive Step where
  | clear
  | entry (env : ScanEnv) (present : Name → Bool) (e : FolderEntry)
  | sweep
  /-- Anything another process makes of the index. -/
  | others (fs : FolderState)

def Step.isScan : Step → Bool
  | others _ => false
  | _ => true

def mirror (env : ScanEnv) : ScanEnv := { env with mode := .receiveOnly }

def exec (s : State) : Step → Option State
  | .clear => some ⟨s.fs.clearSeen, s.fs.sequence⟩
  | .entry env present e => some { s with fs := scanEntry (mirror env) present s.fs e }
  | .sweep => some { s with fs := s.fs.forgetUnseen s.before }
  | .others fs => if fs.shortId = s.fs.shortId then some { s with fs := fs } else none

/-- A record that says this device changed the file, or deleted it. -/
def Ours (shortId : Nat) (r : SyncMeta) : Prop :=
  syncVersionHas r.version shortId = true ∨ r.deleted = true

instance (shortId : Nat) (r : SyncMeta) : Decidable (Ours shortId r) :=
  inferInstanceAs (Decidable (_ ∨ _))

/-- Every record of ours, and every tombstone, was there before. -/
def Unauthored (fs fs' : FolderState) : Prop :=
  ∀ s ∈ fs'.files, Ours fs.shortId s.record → ∃ t ∈ fs.files, t.record = s.record

instance (fs fs' : FolderState) : Decidable (Unauthored fs fs') :=
  inferInstanceAs (Decidable (∀ s ∈ fs'.files, _))

/-- The record of a directory that an entry reports is there, and live. -/
def Known (s : State) : Step → Prop
  | .entry _ _ e => e.isDir = true → (s.fs.find e.name).any (fun t => !t.record.deleted) = true
  | _ => True

/-- What a mirror promises of one step. -/
def Promised (s : State) (e : Step) : Prop :=
  e.isScan = true → ∀ s', exec s e = some s' → Unauthored s.fs s'.fs

/-! ## Steps -/

section Steps
variable {fs : FolderState}

theorem unauthored_refl (fs : FolderState) : Unauthored fs fs := fun s hs _ => ⟨s, hs, rfl⟩

theorem unauthored_setSeen (fs : FolderState) (f : Slot → Bool) : Unauthored fs (fs.setSeen f) := by
  intro s hs _
  obtain ⟨t, ht, rfl⟩ := List.mem_map.mp hs
  exact ⟨t, ht, rfl⟩

theorem unauthored_forget (fs : FolderState) (n : Name) : Unauthored fs (fs.forget n) := by
  rw [FolderState.forget]
  split
  · rename_i hi
    exact fun s hs _ => ⟨s, (fs.swapRemove_ok hi).2 s hs, rfl⟩
  · exact unauthored_refl fs

theorem unauthored_removeAll (fs : FolderState) (p : Slot → Bool) :
    Unauthored fs (fs.removeAll p) := by
  rw [FolderState.removeAll]
  split
  · exact fun s hs _ => ⟨s, (fs.sweep_ok p).2 s hs, rfl⟩
  · exact unauthored_refl fs

/-- **Entry.** A file's record is marked or forgotten; a directory's is marked if it is there. -/
theorem unauthored_scanEntry (env : ScanEnv) (present : Name → Bool) (e : FolderEntry)
    (hdir : e.isDir = true → (fs.find e.name).any (fun t => !t.record.deleted) = true) :
    Unauthored fs (scanEntry (mirror env) present fs e) := by
  rw [scanEntry]
  split
  · rename_i h
    rw [commitDir, if_pos (hdir h)]
    exact unauthored_setSeen fs _
  · rw [if_pos (show (mirror env).mode = .receiveOnly from rfl)]
    split
    · exact unauthored_refl fs
    · split
      · exact unauthored_forget fs _
      · exact unauthored_setSeen fs _

theorem promised_of_known (s : State) (e : Step) (h : Known s e) : Promised s e := by
  intro hscan s' hs'
  cases e with
  | clear =>
    cases hs'
    exact unauthored_setSeen s.fs _
  | entry env present e =>
    cases hs'
    exact unauthored_scanEntry env present e h
  | sweep =>
    cases hs'
    exact unauthored_removeAll s.fs _
  | others fs => exact absurd hscan (by simp [Step.isScan])

end Steps

/-! ## Runs -/

/-- **No authorship.** In every run in which the walks report no directory that lacks a live
record, no step of a pass leaves behind a record of ours or a tombstone that is new. -/
theorem mirror_not_authored (s : State) (es : List Step) (h : Machine.Along exec Known s es) :
    Machine.Along exec Promised s es :=
  Machine.along_mono promised_of_known h

/-! ### A drawer -/

def drawerEnv : ScanEnv where
  mode := .receiveOnly
  ign := fun _ => false
  tz := 0
  path := [87, 58]
  fold := id
  hash := fun _ => .unreadable
  stamp := fun _ => 1
  mem := fun _ => ⟨true, true⟩
  now := 400000000

/-- A folder that holds the empty drawer `x`. -/
def drawerTree : Tree := .drawer 1 300000000 (.cons [120] (.drawer 0 300000000 .nil) .nil)

/-- The index with the peer's record of that drawer. -/
def drawerIndex : FolderState :=
  (FolderState.empty 1).store
    { SyncMeta.zero [120] with type := .directory, version := BepVector.single 2 1 } [] ⟨true, true⟩

def drawerEntries : List FolderEntry := walk drawerEnv.ign drawerTree drawerEnv.path [] 0

/-- A pass that finds a drawer the index does not have records it as a change of ours. -/
theorem drawer_authored :
    (∃ s ∈ (scanFolder drawerEnv (some drawerTree) none (FolderState.empty 1)).1.files,
      syncVersionHas s.record.version (FolderState.empty 1).shortId = true) ∧
    (FolderState.empty 1).files = [] ∧
    ¬ Machine.Along exec Promised ⟨FolderState.empty 1, 0⟩
      (.clear :: drawerEntries.map (.entry drawerEnv (drawerTree.exists drawerEnv)) ++ [.sweep]) := by
  refine ⟨by decide, rfl, fun h => ?_⟩
  have hentries : drawerEntries = [⟨[120], true, 0, 300000000⟩] := by decide
  rw [hentries] at h
  have hstep := (h.2 _ rfl).1 rfl _ rfl
  exact absurd hstep (by decide)

/-- Once the peer's record of the drawer is there, a pass leaves it as it is. -/
theorem drawer_mirrored :
    Machine.Along exec Promised ⟨FolderState.empty 1, 0⟩
      (.others drawerIndex :: .clear ::
        drawerEntries.map (.entry drawerEnv (drawerTree.exists drawerEnv)) ++ [.sweep]) := by
  have hentries : drawerEntries = [⟨[120], true, 0, 300000000⟩] := by decide
  rw [hentries]
  refine mirror_not_authored _ _ ⟨trivial, ?_⟩
  rintro _ ⟨⟩
  refine ⟨trivial, ?_⟩
  rintro _ ⟨⟩
  refine ⟨fun _ => by decide, ?_⟩
  exact fun _ _ => ⟨trivial, fun _ _ => trivial⟩

/-! ## Passes -/

/-- The turns of one pass that nobody else interrupts. -/
def passSteps (env : ScanEnv) (present : Name → Bool) (entries : List FolderEntry) : List Step :=
  .clear :: entries.map (.entry env present)

theorem run_entries (env : ScanEnv) (present : Name → Bool) (entries : List FolderEntry)
    (s : State) : Machine.run exec s (entries.map (.entry env present)) =
      some { s with fs := entries.foldl (scanEntry (mirror env) present) s.fs } := by
  induction entries generalizing s with
  | nil => rfl
  | cons e entries ih =>
    rw [List.map_cons, Machine.run, List.foldl_cons]
    exact ih _

/-- **Pass.** A pass over a receive-only folder is a run of turns: all its entries and the
sweep, or no more than it came to before it was stopped. -/
theorem mirrored_pass (env : ScanEnv) (root : Tree) (stop : Option Nat) (fs : FolderState)
    (b : Int) :
    (Machine.run exec ⟨fs, b⟩ (if stop.any (· < (walk env.ign root env.path [] 0).length) then
        passSteps env (root.exists env) ((walk env.ign root env.path [] 0).take (stop.getD 0))
      else passSteps env (root.exists env) (walk env.ign root env.path [] 0) ++ [.sweep])).map
      State.fs = some (scanFolder (mirror env) (some root) stop fs).1 := by
  have hex : root.exists (mirror env) = root.exists env := rfl
  rw [scanFolder]
  show _ = some (scanPass (mirror env) (root.exists env) (walk env.ign root env.path [] 0) stop fs).1
  rw [scanPass]
  split
  · rw [passSteps, Machine.run]
    show (Machine.run exec ⟨fs.clearSeen, fs.sequence⟩ _).map State.fs = _
    rw [run_entries]
    rfl
  · rw [passSteps, List.cons_append, Machine.run]
    show (Machine.run exec ⟨fs.clearSeen, fs.sequence⟩ _).map State.fs = _
    rw [Machine.run_append_some (run_entries ..)]
    rfl

end Mirror

end Amisync

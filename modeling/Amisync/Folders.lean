import Amisync.Records
import Amisync.Worker
import Mathlib.Data.Fintype.Pi
import Mathlib.Data.List.FinRange

/-!
# The folder table (`config.h`, `daemon.c`)

Folders come and go while the daemon runs. The other tasks hold on to slots, so
a folder that is removed is only marked, and one that is added again under its
old id gets its old slot back, with a new generation.

* `syncFolderIndex`: the slot of an id.
* `daemonFolderAdd`, `daemonFolderRemove`: what they do to the table.
* `Config.Keeps`: a slot in use keeps its id for good.
-/

namespace Amisync

structure ConfigFolder where
  id : CString 63
  path : Bytes
  mode : FolderMode
  removed : Bool
  gen : Nat

/-- The part of the configuration that changes at runtime. -/
structure Config where
  folders : FolderIdx → ConfigFolder
  numFolders : Nat
  configGen : Nat
  bound : numFolders ≤ configMaxFolders

/-- A configuration with one folder. -/
def sampleConfig (id : CString 63) : Config where
  folders := fun i => if i = 0 then ⟨id, [87, 58], .sendReceive, false, 1⟩ else ⟨.empty _, [], .sendReceive, false, 0⟩
  numFolders := 1
  configGen := 1
  bound := by decide

namespace Config

/-- There is a folder in the slot. -/
def Live (cfg : Config) (i : FolderIdx) : Prop :=
  i.val < cfg.numFolders ∧ (cfg.folders i).removed = false

instance (cfg : Config) (i : FolderIdx) : Decidable (cfg.Live i) := inferInstanceAs (Decidable (_ ∧ _))

/-- The first slot with this id, also where the folder was removed. -/
def slotOf (cfg : Config) (id : CString 63) : Option FolderIdx :=
  (List.finRange configMaxFolders).find? fun i => i.val < cfg.numFolders ∧ (cfg.folders i).id = id

end Config

def syncFolderIndex (cfg : Config) (id : CString 63) : Option FolderIdx :=
  (List.finRange configMaxFolders).find? fun i => cfg.Live i ∧ (cfg.folders i).id = id

/-! ## Adding and removing -/

/-- The slot a folder is added in. -/
def Config.addSlot (cfg : Config) (id : CString 63) : Option FolderIdx :=
  match cfg.slotOf id with
  | some i => if (cfg.folders i).removed then some i else none
  | none => if h : cfg.numFolders < configMaxFolders then some ⟨cfg.numFolders, h⟩ else none

def Config.install (cfg : Config) (i : FolderIdx) (id : CString 63) (path : Bytes) (mode : FolderMode) :
    Config where
  folders := Function.update cfg.folders i ⟨id, path, mode, false, (cfg.folders i).gen + 1⟩
  numFolders := if i.val = cfg.numFolders then cfg.numFolders + 1 else cfg.numFolders
  configGen := cfg.configGen + 1
  bound := by
    split
    · rename_i h
      exact h ▸ i.isLt
    · exact cfg.bound

/-- `daemon_folder_add`, with the slot whose index is reset. `admitted`: the id, the label and
the path are plain text of a size that fits, the drawer is there, and it overlaps no other. -/
def daemonFolderAdd (cfg : Config) (admitted : Bool) (id : CString 63) (path : Bytes) (mode : FolderMode) :
    Option (FolderIdx × Config) :=
  if admitted then (cfg.addSlot id).map fun i => (i, cfg.install i id path mode) else none

/-- `daemon_folder_remove` -/
def daemonFolderRemove (cfg : Config) (id : CString 63) : Option Config :=
  (syncFolderIndex cfg id).map fun i =>
    { cfg with
      folders := Function.update cfg.folders i { cfg.folders i with removed := true }
      configGen := cfg.configGen + 1 }

/-! ## Slots -/

section Slots
variable {cfg cfg' : Config} {id : CString 63} {i : FolderIdx}

theorem syncFolderIndex_some (h : syncFolderIndex cfg id = some i) :
    cfg.Live i ∧ (cfg.folders i).id = id := by
  simpa using List.find?_some h

theorem addSlot_some (h : cfg.addSlot id = some i) :
    (i.val < cfg.numFolders ∧ (cfg.folders i).removed = true ∧ (cfg.folders i).id = id) ∨
      i.val = cfg.numFolders := by
  rw [Config.addSlot] at h
  cases hslot : cfg.slotOf id with
  | some j =>
    simp only [hslot] at h
    split at h
    · rename_i hremoved
      obtain rfl := Option.some.inj h
      have hj : j.val < cfg.numFolders ∧ (cfg.folders j).id = id := by
        simpa using List.find?_some hslot
      exact Or.inl ⟨hj.1, hremoved, hj.2⟩
    · exact absurd h (by simp)
  | none =>
    simp only [hslot] at h
    split at h
    · obtain rfl := Option.some.inj h
      exact Or.inr rfl
    · exact absurd h (by simp)

theorem install_self (cfg : Config) (i : FolderIdx) (id : CString 63) (path : Bytes) (mode : FolderMode) :
    (cfg.install i id path mode).folders i = ⟨id, path, mode, false, (cfg.folders i).gen + 1⟩ :=
  Function.update_self ..

theorem install_of_ne {j : FolderIdx} (h : j ≠ i) (id : CString 63) (path : Bytes) (mode : FolderMode) :
    (cfg.install i id path mode).folders j = cfg.folders j :=
  Function.update_of_ne h ..

/-- The slots in use stay in use, under the same ids. -/
structure Config.Keeps (cfg cfg' : Config) : Prop where
  num : cfg.numFolders ≤ cfg'.numFolders
  id : ∀ i : FolderIdx, i.val < cfg.numFolders → (cfg'.folders i).id = (cfg.folders i).id

theorem Config.Keeps.refl (cfg : Config) : cfg.Keeps cfg := ⟨Nat.le_refl _, fun _ _ => rfl⟩

theorem keeps_install {path : Bytes} {mode : FolderMode} (h : cfg.addSlot id = some i) :
    cfg.Keeps (cfg.install i id path mode) where
  num := by
    rw [Config.install]
    dsimp only
    split <;> omega
  id := by
    intro j hj
    by_cases hij : j = i
    · subst hij
      rw [install_self]
      rcases addSlot_some h with ⟨-, -, hid⟩ | hnum
      · exact hid.symm
      · omega
    · rw [install_of_ne hij]

/-- A folder that is there stays there. -/
theorem live_install {path : Bytes} {mode : FolderMode} {j : FolderIdx} (h : cfg.addSlot id = some i)
    (hj : cfg.Live j) : (cfg.install i id path mode).Live j := by
  refine ⟨hj.1.trans_le (keeps_install h).num, ?_⟩
  by_cases hij : j = i
  · rw [hij, install_self]
  · rw [install_of_ne hij]
    exact hj.2

theorem daemonFolderAdd_some {admitted : Bool} {path : Bytes} {mode : FolderMode}
    (h : daemonFolderAdd cfg admitted id path mode = some (i, cfg')) :
    cfg.addSlot id = some i ∧ cfg' = cfg.install i id path mode := by
  rw [daemonFolderAdd] at h
  split at h
  · obtain ⟨j, hj, heq⟩ := Option.map_eq_some_iff.mp h
    rw [Prod.mk.injEq] at heq
    obtain ⟨rfl, rfl⟩ := heq
    exact ⟨hj, rfl⟩
  · exact absurd h (by simp)

theorem daemonFolderRemove_some (h : daemonFolderRemove cfg id = some cfg') :
    ∃ i, syncFolderIndex cfg id = some i ∧ cfg' = { cfg with
      folders := Function.update cfg.folders i { cfg.folders i with removed := true }
      configGen := cfg.configGen + 1 } := by
  obtain ⟨i, hi, rfl⟩ := Option.map_eq_some_iff.mp h
  exact ⟨i, hi, rfl⟩

theorem live_remove (h : daemonFolderRemove cfg id = some cfg') (hi : cfg.Live i)
    (hid : (cfg.folders i).id ≠ id) : cfg'.Live i := by
  obtain ⟨j, hj, rfl⟩ := daemonFolderRemove_some h
  have hij : i ≠ j := by
    rintro rfl
    exact hid (syncFolderIndex_some hj).2
  refine ⟨hi.1, ?_⟩
  dsimp only
  rw [Function.update_of_ne hij]
  exact hi.2

theorem keeps_remove (h : daemonFolderRemove cfg id = some cfg') : cfg.Keeps cfg' := by
  obtain ⟨i, -, rfl⟩ := daemonFolderRemove_some h
  refine ⟨Nat.le_refl _, fun j _ => ?_⟩
  dsimp only
  by_cases hij : j = i
  · subst hij
    rw [Function.update_self]
  · rw [Function.update_of_ne hij]

end Slots

end Amisync

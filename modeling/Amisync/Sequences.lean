import Amisync.IndexLoad
import Amisync.Scanner
import Amisync.Worker
import Mathlib.Logic.Relation

/-!
# Sequence numbers

Every change of a record is found by its sequence: a session announces what is
above the last sequence it has sent.

* `IndexWrite`: the writes of the scanner and the workers, one for each function
  that makes them; `reload` is the index written to disk and read back.
* `SeqStep`: what one of them may do to the sequences.
* `sequence_discipline`: the sequences are distinct, below the folder's counter,
  and new wherever a record is.
-/

namespace Amisync

/-! ## The table and the index -/

def FileMeta.fileType (m : FileMeta) : BepFileType :=
  if m.type = 0 then .file else if m.type = 1 then .directory else .symlink

/-- The values of the fields. -/
def FileMeta.toSync (m : FileMeta) : SyncMeta where
  name := m.name.bytes
  size := m.size.toInt
  permissions := m.permissions.toNat
  modifiedS := m.modifiedS.toInt
  modifiedNs := m.modifiedNs.toInt
  modifiedBy := m.modifiedBy.toNat
  sequence := m.sequence.toInt
  blockSize := m.blockSize.toInt
  version := ⟨m.version.list.map fun c => ⟨c.id.toNat, c.value.toNat⟩, by
    rw [List.length_map]
    exact m.version.bound⟩
  contentHash := if m.hasContentHash ≠ 0 then some m.contentHash else none
  type := m.fileType
  deleted := m.deleted ≠ 0
  invalid := m.invalid ≠ 0

def FolderTable.Stored.toSlot (s : FolderTable.Stored) : Slot := ⟨s.info.toSync, s.blocks, s.seen⟩

/-- The table holds the index `fs`. -/
structure FolderTable.Represents (t : FolderTable) (fs : FolderState) : Prop where
  ok : t.Ok
  room : t.numFiles ≤ foldstateMaxFiles
  files : fs.files = t.slots.map FolderTable.Stored.toSlot
  sequence : fs.sequence = t.sequence.toInt

theorem toSync_normal (m : FileMeta) : (Decoder.normal m).toSync = m.toSync := by
  have hflag : ∀ b : UInt8, flag b ≠ 0 ↔ b ≠ 0 := by
    intro b
    rw [flag]
    split
    · rename_i h
      exact iff_of_true (by decide) h
    · rename_i h
      exact iff_of_false (by simp) h
  have hhash : (if m.hasContentHash ≠ 0 then some (Decoder.normal m).contentHash else none) =
      if m.hasContentHash ≠ 0 then some m.contentHash else none := by
    split
    · rename_i h
      rw [Decoder.normal, if_pos h]
    · rfl
  simp only [FileMeta.toSync, FileMeta.fileType, hflag, Decoder.normal] at hhash ⊢
  rw [hhash]
  congr

theorem toSlot_reloaded (s : FolderTable.Stored) : s.reloaded.toSlot = { s.toSlot with seen := false } := by
  rw [FolderTable.Stored.toSlot, FolderTable.Stored.reloaded, toSync_normal]
  rfl

/-! ## The writes -/

/-- One write of the index under the folder's lock, by the function that makes it. What was
found out before the lock was taken is an argument. -/
inductive IndexWrite where
  | commitFile (env : ScanEnv) (e : FolderEntry) (content : Hash) (blocks : List Hash)
  | commitDir (env : ScanEnv) (e : FolderEntry)
  | sweepDeletions (env : ScanEnv) (before : Int)
  | applyPeerDelete (fi : SyncMeta) (mem : UpsertMem)
  | applyPeerDir (fi : SyncMeta) (mem : UpsertMem)
  | applyPeerDirDelete (fi : SyncMeta) (mem : UpsertMem)
  | announceUnstorable (fi : SyncMeta) (mem : UpsertMem)
  | adopt (fi : SyncMeta)
  | finalizeDownload (fi : SyncMeta) (hashes : List Hash) (mem : UpsertMem)
  | conflictPreserveLocal (held : SyncMeta) (cn : Name) (stamp : Nat) (blocks : List Hash)
      (mem : UpsertMem)
  | forget (n : Name)
  | forgetUnseen (before : Int)
  | pruneTombstones (cutoff : Int)
  | clearSeen
  | markSeen (n : Name)

namespace FolderState

def exec (fs : FolderState) : IndexWrite → FolderState
  | .commitFile env e content blocks => Amisync.commitFile env fs e content blocks
  | .commitDir env e => Amisync.commitDir env fs e
  | .sweepDeletions env before => Amisync.sweepDeletions env before fs
  | .applyPeerDelete fi mem => fs.store fi [] mem
  | .applyPeerDir fi mem =>
    if (fs.find fi.name).all fun s => s.record.deleted then fs.store fi [] mem else fs
  | .applyPeerDirDelete fi mem => fs.store fi [] mem
  | .announceUnstorable fi mem => fs.store (unstorableRecord fi) [] mem
  | .adopt fi => fs.adopt fi.name fi
  | .finalizeDownload fi hashes mem => fs.store fi hashes mem
  | .conflictPreserveLocal held cn stamp blocks mem =>
    fs.store (conflictCopy held cn fs.shortId stamp 0) blocks mem
  | .forget n => fs.forget n
  | .forgetUnseen before => fs.forgetUnseen before
  | .pruneTombstones cutoff => fs.pruneTombstones cutoff
  | .clearSeen => fs.clearSeen
  | .markSeen n => fs.markSeen n

end FolderState

/-- A step of the folder's slot: a write, or the index saved and loaded again. -/
inductive SlotStep : FolderState → FolderState → Prop
  | write (fs : FolderState) (w : IndexWrite) : SlotStep fs (fs.exec w)
  | reload {fs fs' : FolderState} {t u u' : FolderTable} {cap : UInt64} {b : Bytes} {mem : Nat → Alloc}
      (memory : t.Represents fs) (saved : t.indexStoreEncode cap = some b)
      (folder : u.folderId = t.folderId) (device : u.shortId = t.shortId) (alloc : ∀ k, (mem k).Ok)
      (loaded : u.indexStoreDecode b mem = (u', true)) (memory' : u'.Represents fs') : SlotStep fs fs'

/-! ## What a step may do -/

namespace FolderState

/-- No two records have the same sequence. -/
def Distinct (fs : FolderState) : Prop := (fs.files.map fun s => s.record.sequence).Nodup

/-- The counter does not go back, and a record that was not there before has a new sequence. -/
structure SeqStep (fs fs' : FolderState) : Prop where
  mono : fs.sequence ≤ fs'.sequence
  fresh : ∀ s ∈ fs'.files, fs.sequence < s.record.sequence ∨ ∃ t ∈ fs.files, t.record = s.record
  distinct : fs.Distinct → fs'.Distinct

theorem SeqStep.refl (fs : FolderState) : SeqStep fs fs :=
  ⟨Int.le_refl _, fun s hs => Or.inr ⟨s, hs, rfl⟩, id⟩

theorem SeqStep.trans {fs fs' fs'' : FolderState} (h : SeqStep fs fs') (h' : SeqStep fs' fs'') :
    SeqStep fs fs'' := by
  refine ⟨Int.le_trans h.mono h'.mono, fun s hs => ?_, fun hd => h'.distinct (h.distinct hd)⟩
  rcases h'.fresh s hs with hnew | ⟨t, ht, htr⟩
  · exact Or.inl (Int.lt_of_le_of_lt h.mono hnew)
  · exact htr ▸ h.fresh t ht

/-- What every writer does, but for the distinctness. -/
theorem WriterOk.seqStep {fs fs' : FolderState} (h : WriterOk fs fs') (hd : fs.Distinct → fs'.Distinct) :
    SeqStep fs fs' := by
  refine ⟨h.seq, fun s hs => ?_, hd⟩
  rcases h.slot s hs with hnew | ⟨t, ht, hsame⟩
  · exact Or.inl hnew
  · exact Or.inr ⟨t, ht, hsame.1⟩

/-- **Store.** -/
theorem seqStep_store (fs : FolderState) (m : SyncMeta) (blocks : List Hash) (mem : UpsertMem) :
    SeqStep fs (fs.store m blocks mem) := by
  refine (writerOk_store fs m blocks mem).seqStep fun hd => ?_
  rw [store]
  split
  · exact hd
  · have hnew : (fs.slotFor m blocks mem).record.sequence ∉ fs.files.map fun s => s.record.sequence := by
      intro hmem
      obtain ⟨s, hs, he⟩ := List.mem_map.mp hmem
      have hle := (fs.seqOk s hs).2
      have hseq : (fs.slotFor m blocks mem).record.sequence = fs.sequence + 1 := rfl
      omega
    exact Keyed.nodup_map_upsert hd hnew

theorem seqStep_setSeen (fs : FolderState) (f : Slot → Bool) : SeqStep fs (fs.setSeen f) := by
  refine (writerOk_setSeen fs f).seqStep fun hd => ?_
  rw [Distinct, setSeen, List.map_map]
  exact hd

theorem seqStep_adopt (fs : FolderState) (n : Name) (peer : SyncMeta) : SeqStep fs (fs.adopt n peer) := by
  rw [adopt]
  split
  · split
    · exact SeqStep.refl fs
    · exact seqStep_store fs _ _ _
  · exact SeqStep.refl fs

theorem seqStep_forget (fs : FolderState) (n : Name) : SeqStep fs (fs.forget n) := by
  refine (writerOk_forget fs n).seqStep fun hd => ?_
  rw [forget]
  split
  · rename_i h
    exact Keyed.nodupKeys_of_perm_sublist hd (Keyed.swapRemove_perm h) (List.eraseIdx_sublist ..)
  · exact hd

theorem seqStep_removeAll (fs : FolderState) (p : Slot → Bool) : SeqStep fs (fs.removeAll p) := by
  refine (writerOk_removeAll fs p).seqStep fun hd => ?_
  rw [removeAll]
  split
  · exact Keyed.nodupKeys_of_perm_sublist hd (Keyed.sweep_perm p fs.files) List.filter_sublist
  · exact hd

theorem seqStep_sweepSlot (env : ScanEnv) (before : Int) (fs : FolderState) (s : Slot) :
    SeqStep fs (sweepSlot env before fs s) := by
  rw [sweepSlot]
  repeat' split
  all_goals first
    | exact SeqStep.refl fs
    | exact seqStep_store fs _ _ _

theorem seqStep_sweepDeletions (env : ScanEnv) (before : Int) (fs : FolderState) :
    SeqStep fs (sweepDeletions env before fs) := by
  have hloop : ∀ (l : List Slot) (fs : FolderState), SeqStep fs (l.foldl (sweepSlot env before) fs) := by
    intro l
    induction l with
    | nil => exact SeqStep.refl
    | cons s l ih => exact fun fs => (seqStep_sweepSlot env before fs s).trans (ih _)
  exact hloop fs.files fs

/-- **Step.** One case for each writer. -/
theorem seqStep_exec (fs : FolderState) (w : IndexWrite) : SeqStep fs (fs.exec w) := by
  cases w with
  | commitFile env e content blocks => exact (seqStep_store fs _ _ _).trans (seqStep_setSeen _ _)
  | commitDir env e =>
    rw [exec, commitDir]
    split
    · exact seqStep_setSeen fs _
    · exact (seqStep_store fs _ _ _).trans (seqStep_setSeen _ _)
  | sweepDeletions env before => exact seqStep_sweepDeletions env before fs
  | applyPeerDelete fi mem => exact seqStep_store fs _ _ _
  | applyPeerDir fi mem =>
    rw [exec]
    split
    · exact seqStep_store fs _ _ _
    · exact SeqStep.refl fs
  | applyPeerDirDelete fi mem => exact seqStep_store fs _ _ _
  | announceUnstorable fi mem => exact seqStep_store fs _ _ _
  | adopt fi => exact seqStep_adopt fs _ _
  | finalizeDownload fi hashes mem => exact seqStep_store fs _ _ _
  | conflictPreserveLocal held cn stamp blocks mem => exact seqStep_store fs _ _ _
  | forget n => exact seqStep_forget fs n
  | forgetUnseen before => exact seqStep_removeAll fs _
  | pruneTombstones cutoff => exact seqStep_removeAll fs _
  | clearSeen => exact seqStep_setSeen fs _
  | markSeen n => exact seqStep_setSeen fs _

end FolderState

open FolderState

/-- **Reload.** The records come back with their sequences, and the counter with them. -/
theorem seqStep_reload {fs fs' : FolderState} {t u u' : FolderTable} {cap : UInt64} {b : Bytes}
    {mem : Nat → Alloc} (memory : t.Represents fs) (saved : t.indexStoreEncode cap = some b)
    (folder : u.folderId = t.folderId) (device : u.shortId = t.shortId) (alloc : ∀ k, (mem k).Ok)
    (loaded : u.indexStoreDecode b mem = (u', true)) (memory' : u'.Represents fs') : SeqStep fs fs' := by
  obtain ⟨-, hseq, hload⟩ := FolderTable.loading_decode memory.ok memory.room saved folder device alloc
  rw [loaded] at hseq hload
  have hfiles : fs'.files = fs.files.map fun s => { s with seen := false } := by
    rw [memory'.files, hload.slots, memory.files, List.map_map, List.map_map]
    exact List.map_congr_left fun s _ => toSlot_reloaded s
  have hmark : fs'.sequence = fs.sequence := by
    rw [memory'.sequence, memory.sequence, hseq]
  refine ⟨Int.le_of_eq hmark.symm, fun s hs => ?_, fun hd => ?_⟩
  · rw [hfiles] at hs
    obtain ⟨r, hr, rfl⟩ := List.mem_map.mp hs
    exact Or.inr ⟨r, hr, rfl⟩
  · rw [Distinct, hfiles, List.map_map]
    exact hd

theorem seqStep_of_step {fs fs' : FolderState} (h : SlotStep fs fs') : SeqStep fs fs' := by
  cases h with
  | write w => exact seqStep_exec fs w
  | reload memory saved folder device alloc loaded memory' =>
    exact seqStep_reload memory saved folder device alloc loaded memory'

/-- **Run.** -/
theorem seqStep_run {fs fs' : FolderState} (h : Relation.ReflTransGen SlotStep fs fs') : SeqStep fs fs' := by
  induction h with
  | refl => exact SeqStep.refl fs
  | tail _ hstep ih => exact ih.trans (seqStep_of_step hstep)

/-- **Sequence discipline.** -/
theorem sequence_discipline {shortId : Nat} {fs : FolderState}
    (hrun : Relation.ReflTransGen SlotStep (FolderState.empty shortId) fs) :
    (fs.files.map fun s => s.record.sequence).Nodup ∧
    (∀ s ∈ fs.files, s.record.sequence ≤ fs.sequence) ∧
    ∀ fs', SlotStep fs fs' → fs.sequence ≤ fs'.sequence ∧
      ∀ s ∈ fs'.files, (∃ t ∈ fs.files, t.record = s.record) ∨
        fs.sequence < s.record.sequence ∧ ∀ t ∈ fs.files, t.record.sequence < s.record.sequence := by
  refine ⟨(seqStep_run hrun).distinct List.nodup_nil, fun s hs => (fs.seqOk s hs).2, fun fs' hstep => ?_⟩
  have h := seqStep_of_step hstep
  refine ⟨h.mono, fun s hs => ?_⟩
  rcases h.fresh s hs with hnew | hold
  · exact Or.inr ⟨hnew, fun t ht => Int.lt_of_le_of_lt (fs.seqOk t ht).2 hnew⟩
  · exact Or.inl hold

/-- A file is received, and the peer's version of it is adopted later. -/
theorem sequence_discipline_adopt :
    let fs := (FolderState.empty 7).exec (.finalizeDownload (SyncMeta.zero [120]) [] ⟨true, true⟩)
    let fs' := fs.exec (.adopt { SyncMeta.zero [120] with version := .single 9 1 })
    (fs'.files.map fun s => s.record.sequence) = [2] ∧ fs.sequence ≤ fs'.sequence := by
  have hrun : Relation.ReflTransGen SlotStep (FolderState.empty 7)
      ((FolderState.empty 7).exec (.finalizeDownload (SyncMeta.zero [120]) [] ⟨true, true⟩)) :=
    Relation.ReflTransGen.single (SlotStep.write _ _)
  exact ⟨by decide, ((sequence_discipline hrun).2.2 _ (SlotStep.write _ _)).1⟩

end Amisync

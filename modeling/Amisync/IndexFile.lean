import Amisync.IndexReject
import Amisync.IndexSize
import Amisync.Lib.Replace

/-!
# The state file of a folder (`save_folder`, `folder_state_write`, `load_folder_index`)

The scanner writes an index that has changed to the folder's state file, while other tasks
go on writing to the index and the daemon takes the folder away and adds it again. The
machine may stop at any time; then the index is what the state file holds.

* `Slot`, `Event`, `step`: the index, its state file and the save that is under way.
* `TableOk`, `tableOk_step`: what holds of the table whatever is written to it.
* `Same`: the same records, but for what the file does not keep.
* `inv_step`: the state file is a whole index that the folder had.
* `settled_step`: where nothing is to be saved, it is the index of now.
-/

namespace Amisync.IndexFile

open Keyed Replace FolderTable

/-- `chosen` says that `save_all` goes to `save_folder` next. `encoded` is no part of the program:
the tables that were encoded so far. -/
structure Slot where
  table : FolderTable
  dirty : Bool
  removed : Bool
  chosen : Bool
  disk : Saving UInt8
  encoded : List FolderTable

/-! ## Writing -/

/-- Whether an operation sets `dirty`. -/
def dirties (t : FolderTable) : Op → Bool
  | .upsert m hashes mem => (t.upsert m hashes mem).2
  | .setVersion n _ _ => (t.findSlot n).isSome
  | .forget n => (List.range t.numFiles).any fun i => t.names i = some n
  | .forgetUnseen before => (t.forgetUnseen before).numFiles ≠ t.numFiles
  | .pruneTombstones cutoff => (t.pruneTombstones cutoff).numFiles ≠ t.numFiles
  | .nextSeq => true
  | .init .. | .markSeen _ | .clearSeen => false

/-- A running folder is not initialised. -/
def runtime : Op → Bool
  | .init .. => false
  | _ => true

namespace Slot

def write (s : Slot) (op : Op) : Option Slot :=
  if runtime op then
    (s.table.step op).map fun t => { s with table := t, dirty := s.dirty || dirties s.table op }
  else none

end Slot

/-- What `save_folder` hands to `folder_state_write`, on a machine with 32 bits. -/
def snapshot (t : FolderTable) : Option Bytes :=
  let cap := UInt64.ofNat (t.indexStoreSize 32)
  if 0 < t.indexStoreEncodeInt cap then t.indexStoreEncode cap else none

/-- `save_folder` up to the write. `cutoff` is there where old tombstones are to go. -/
def Slot.saveFolder (s : Slot) (cutoff : Option Int64) (alloc : Bool) : Slot :=
  if !s.dirty then s
  else
    let s := { s with table := cutoff.elim s.table s.table.pruneTombstones }
    if !alloc then s
    else
      match snapshot s.table with
      | none => s
      | some b =>
        { s with
          dirty := false
          disk := { s.disk with stage := .begun b }
          encoded := s.encoded ++ [s.table] }

/-- `load_folder_index`. `got` is false where the file cannot be read whole or memory is missing. -/
def loadFolderIndex (t : FolderTable) (file : Option Bytes) (got : Bool) (mem : Nat → Alloc) : FolderTable :=
  match file with
  | none => t
  | some b => if b = [] || !got then t else (t.indexStoreDecode b mem).1

/-! ## Events -/

/-- `choose` is where `save_all` finds the folder not removed. `report` sets `dirty` again after a
write that failed. `remove` and `add` are the daemon's; the state file is deleted in both. -/
inductive Event
  | write (op : Op)
  | choose
  | save (cutoff : Option Int64) (alloc : Bool)
  | call (c : Call)
  | report
  | remove (deleted : Bool)
  | add (mem : Arrays) (deleted : Bool)
  | restart (mem : Arrays) (got : Bool) (alloc : Nat → Alloc)

section Step
variable (folderId : CString 63) (shortId : UInt64)

/-- A folder is loaded at the start if it is in the configuration. -/
def Slot.restart (s : Slot) (mem : Arrays) (got : Bool) (alloc : Nat → Alloc) : Slot :=
  { s with
    table :=
      if s.removed then .init folderId shortId mem
      else loadFolderIndex (.init folderId shortId mem) s.disk.file got alloc
    dirty := false
    chosen := false
    disk := { s.disk with stage := .ended true } }

def step (s : Slot) : Event → Option Slot
  | .write op => s.write op
  | .choose =>
    if s.removed ∨ s.disk.stage ≠ .ended true then none else some { s with chosen := true }
  | .save cutoff alloc =>
    if ¬ s.chosen then none else some { s.saveFolder cutoff alloc with chosen := false }
  | .call c => (call none s.disk c).map fun d => { s with disk := d }
  | .report =>
    if s.disk.stage ≠ .ended false then none
    else some { s with dirty := true, disk := { s.disk with stage := .ended true } }
  | .remove deleted =>
    if s.removed then none
    else some { s with
      removed := true, disk := { s.disk with file := if deleted then none else s.disk.file } }
  -- `foldstate_reset`
  | .add mem deleted =>
    if ¬ s.removed then none
    else some { s with
      table := .init folderId shortId mem
      dirty := false
      removed := false
      disk := { s.disk with file := if deleted then none else s.disk.file } }
  | .restart mem got alloc => some (s.restart folderId shortId mem got alloc)

/-- A folder that is configured for the first time. -/
def fresh (mem : Arrays) (temp : Option Bytes) : Slot where
  table := .init folderId shortId mem
  dirty := false
  removed := false
  chosen := false
  disk := ⟨none, temp, .ended true⟩
  encoded := []

end Step

/-! ## The table -/

/-- What holds of a folder's table at any time. -/
structure TableOk (folderId : CString 63) (shortId : UInt64) (t : FolderTable) : Prop where
  ok : t.Ok
  room : t.cap ≤ foldstateMaxFiles
  folderId : t.folderId = folderId
  shortId : t.shortId = shortId

/-- The arrays are no longer than before, and it is the same folder. -/
structure SameFolder (t t' : FolderTable) : Prop where
  cap : t'.cap = t.cap
  folderId : t'.folderId = t.folderId
  shortId : t'.shortId = t.shortId

section Table
variable {folderId : CString 63} {shortId : UInt64} {t t' : FolderTable}

theorem SameFolder.trans {t'' : FolderTable} (h : SameFolder t t') (h' : SameFolder t' t'') : SameFolder t t'' :=
  ⟨h'.cap.trans h.cap, h'.folderId.trans h.folderId, h'.shortId.trans h.shortId⟩

theorem sameFolder_pruned (t : FolderTable) : SameFolder t t.pruned := by
  obtain ⟨hhead, hnext, he⟩ := hashRebuild_eq { t with pruneGen := t.pruneGen + 1 }
  rw [FolderTable.pruned, he]
  exact ⟨rfl, rfl, rfl⟩

theorem sameFolder_sweepLoop (p : FolderTable → Nat → Bool) (fuel i : Nat) (t : FolderTable) :
    SameFolder t (sweepLoop p fuel i t) := by
  induction fuel generalizing i t with
  | zero => exact ⟨rfl, rfl, rfl⟩
  | succ fuel ih =>
    rw [FolderTable.sweepLoop]
    split
    · split
      · have hrem : SameFolder t (t.removeAt i) := ⟨rfl, rfl, rfl⟩
        exact hrem.trans (ih i (t.removeAt i))
      · exact ih (i + 1) t
    · exact ⟨rfl, rfl, rfl⟩

theorem sameFolder_removeWhere (p : FolderTable → Nat → Bool) (t : FolderTable) :
    SameFolder t (t.removeWhere p) := by
  have hloop := sameFolder_sweepLoop p t.numFiles 0 t
  rw [FolderTable.removeWhere]
  split
  · exact hloop
  · exact hloop.trans (sameFolder_pruned _)

theorem sameFolder_setBlocks (t : FolderTable) (i : Nat) (hashes : List Hash) (alloc : Bool) :
    SameFolder t (t.setBlocks i hashes alloc) := by
  rw [FolderTable.setBlocks]
  split <;> split <;> exact ⟨rfl, rfl, rfl⟩

theorem room_ensureCap {need : Nat} {mem : Alloc} (h : t.cap ≤ foldstateMaxFiles)
    (he : t.ensureCap need mem = some t') : t'.cap ≤ foldstateMaxFiles := by
  rw [FolderTable.ensureCap] at he
  split at he
  · exact Option.some.inj he ▸ h
  · split at he
    · exact absurd he (by simp)
    · split at he
      · exact absurd he (by simp)
      · obtain rfl := Option.some.inj he
        obtain ⟨hhead, hnext, hr⟩ := hashRebuild_eq (t.grown (t.newCap need) mem.fresh)
        rw [hr]
        exact Nat.min_le_right _ _

theorem room_upsert (h : t.cap ≤ foldstateMaxFiles) (m : FileMeta) (hashes : List Hash) (mem : Alloc) :
    (t.upsert m hashes mem).1.cap ≤ foldstateMaxFiles := by
  rw [FolderTable.upsert]
  cases t.findSlot m.name with
  | some i => exact (sameFolder_setBlocks _ i hashes mem.blocks).cap.trans_le h
  | none =>
    cases he : t.ensureCap (t.numFiles + 1) mem with
    | none => exact h
    | some u =>
      have hu := room_ensureCap h he
      dsimp only
      split
      · exact hu
      · exact (sameFolder_setBlocks _ u.numFiles hashes mem.blocks).cap.trans_le hu

theorem ok_setVersion (h : t.Ok) (n : FileName) (v : Counters) (alloc : Bool) : (t.setVersion n v alloc).Ok := by
  rw [FolderTable.setVersion]
  cases t.findSlot n with
  | some i => exact h.setRec i _
  | none => exact h

theorem TableOk.same (h : TableOk folderId shortId t) (hok : t'.Ok) (hsame : SameFolder t t') :
    TableOk folderId shortId t' :=
  ⟨hok, hsame.cap ▸ h.room, hsame.folderId.trans h.folderId, hsame.shortId.trans h.shortId⟩

theorem tableOk_init (folderId : CString 63) (shortId : UInt64) (mem : Arrays) :
    TableOk folderId shortId (.init folderId shortId mem) :=
  ⟨ok_init folderId shortId mem, Nat.zero_le _, rfl, rfl⟩

/-- **Step.** -/
theorem tableOk_step (h : TableOk folderId shortId t) (op : Op) (hrun : runtime op = true)
    (hs : t.step op = some t') : TableOk folderId shortId t' := by
  have hgranted : ∀ hg : t.Granted op, t'.Ok := fun hg => (holds_step h.ok.holds hg hs).ok
  cases op with
  | init folderId shortId mem => exact absurd hrun (by simp [runtime])
  | upsert m hashes mem =>
    obtain rfl := Option.some.inj hs
    obtain ⟨hok, hsame⟩ := h.ok.upsert m hashes mem
    exact ⟨hok, room_upsert h.room m hashes mem, hsame.folderId.trans h.folderId, hsame.shortId.trans h.shortId⟩
  | setVersion n v alloc =>
    obtain rfl := Option.some.inj hs
    refine h.same (ok_setVersion h.ok n v alloc) ?_
    rw [FolderTable.setVersion]
    split <;> exact ⟨rfl, rfl, rfl⟩
  | markSeen n =>
    refine h.same (hgranted trivial) (Option.some.inj hs ▸ ?_)
    rw [FolderTable.markSeen]
    split <;> exact ⟨rfl, rfl, rfl⟩
  | clearSeen => exact h.same (hgranted trivial) (Option.some.inj hs ▸ ⟨rfl, rfl, rfl⟩)
  | forget n =>
    refine h.same (hgranted trivial) (Option.some.inj hs ▸ ?_)
    rw [FolderTable.forget]
    split
    · exact ⟨rfl, rfl, rfl⟩
    · rename_i i _
      have hrem : SameFolder t (t.removeAt i) := ⟨rfl, rfl, rfl⟩
      exact hrem.trans (sameFolder_pruned _)
  | forgetUnseen before =>
    exact h.same (hgranted trivial) (Option.some.inj hs ▸ sameFolder_removeWhere _ t)
  | pruneTombstones cutoff =>
    exact h.same (hgranted trivial) (Option.some.inj hs ▸ sameFolder_removeWhere _ t)
  | nextSeq => exact h.same (hgranted trivial) (Option.some.inj hs ▸ ⟨rfl, rfl, rfl⟩)

/-! ### Loading -/

/-- What each field keeps holds at the end of the loop, wherever that is. -/
theorem readFields_keeps {σ : Type*} {I : σ → Prop} {start : σ → UInt32 → UInt64 → Option σ}
    {store : σ → UInt32 → Pbuf.Value → σ} (hstart : ∀ s f w s', I s → start s f w = some s' → I s')
    (hstore : ∀ s f v, I s → I (store s f v)) (fuel : Nat) {s : σ} (b : Bytes) (hs : I s) :
    I (Pbuf.readFields start store fuel s b).1 := by
  induction fuel generalizing s b with
  | zero => exact hs
  | succ fuel ih =>
    rw [Pbuf.readFields]
    cases Pbuf.readTag b with
    | eof | error => exact hs
    | tag f w rest =>
      dsimp only
      cases hst : start s f w with
      | none => exact hs
      | some s' =>
        dsimp only
        have hs' := hstart s f w s' hs hst
        cases Pbuf.readValue w rest with
        | none => exact hs'
        | some r => exact ih r.2 (hstore s' f r.1 hs')

theorem tableOk_upsert (h : TableOk folderId shortId t) (m : FileMeta) (hashes : List Hash) (mem : Alloc) :
    TableOk folderId shortId (t.upsert m hashes mem).1 :=
  tableOk_step h (.upsert m hashes mem) rfl rfl

theorem tableOk_finish {s : Decoder} (h : TableOk folderId shortId s.table) (mem : Nat → Alloc) :
    TableOk folderId shortId (s.finish mem).table := by
  rw [Decoder.finish]
  split
  · exact tableOk_upsert h s.cur s.blocks (mem s.upserts)
  · exact h

theorem tableOk_reset (h : TableOk folderId shortId t) : TableOk folderId shortId t.resetRecords :=
  ⟨ok_resetRecords t, Nat.zero_le _, h.folderId, h.shortId⟩

theorem tableOk_decode (h : TableOk folderId shortId t) (data : Bytes) (mem : Nat → Alloc) :
    TableOk folderId shortId (t.indexStoreDecode data mem).1 := by
  have hloop : TableOk folderId shortId (Pbuf.readFields (Decoder.start mem) Decoder.store data.length
      (Decoder.init t.resetRecords) data).1.table := by
    refine readFields_keeps (I := fun s : Decoder => TableOk folderId shortId s.table) ?_ ?_ data.length data
      (tableOk_reset h)
    · intro s f w s' hs hst
      rcases Decoder.start_cases hst with ⟨-, rfl⟩ | ⟨-, -, rfl | rfl⟩
      · exact hs
      · exact hs
      · exact tableOk_finish hs mem
    · intro s f v hs
      exact (Decoder.store_frame s f v).1 ▸ hs
  rw [FolderTable.indexStoreDecode]
  generalize Pbuf.readFields (Decoder.start mem) Decoder.store data.length (Decoder.init t.resetRecords) data = r
    at hloop
  obtain ⟨s, eof⟩ := r
  dsimp only
  split
  · exact tableOk_reset hloop
  · split
    · exact tableOk_reset hloop
    · have hfin := tableOk_finish hloop mem
      split
      · exact tableOk_reset hfin
      · exact ⟨⟨⟨hfin.ok.fits, hfin.ok.named, hfin.ok.distinct, hfin.ok.counted⟩, hfin.ok.linked⟩,
          hfin.room, hfin.folderId, hfin.shortId⟩

theorem tableOk_load (h : TableOk folderId shortId t) (file : Option Bytes) (got : Bool) (mem : Nat → Alloc) :
    TableOk folderId shortId (loadFolderIndex t file got mem) := by
  cases file with
  | none => exact h
  | some b =>
    rw [loadFolderIndex]
    split
    · exact h
    · exact tableOk_decode h b mem

end Table

/-! ## The same records -/

/-- The same records, but for the marks of a scan and how a flag is spelt. -/
structure Same (t k : FolderTable) : Prop where
  sequence : t.sequence = k.sequence
  records : ∀ n, (lookup Stored.name n t.slots).map Stored.reloaded =
    (lookup Stored.name n k.slots).map Stored.reloaded

section Sameness
variable {t t' k : FolderTable}

theorem Same.trans (h : Same t' t) (h' : Same t k) : Same t' k :=
  ⟨h.sequence.trans h'.sequence, fun n => (h.records n).trans (h'.records n)⟩

theorem normal_normal (m : FileMeta) : Decoder.normal (Decoder.normal m) = Decoder.normal m := by
  have hflag : ∀ x : UInt8, flag (flag x) = flag x := by
    intro x
    unfold flag
    split <;> rfl
  have hzero : flag m.hasContentHash ≠ 0 ↔ m.hasContentHash ≠ 0 := by
    unfold flag
    split
    · rename_i h
      simp [h]
    · rename_i h
      simp [h]
  unfold Decoder.normal
  simp only [hflag]
  congr 1
  split
  · rename_i h
    rw [if_pos (hzero.mp h)]
  · rename_i h
    rw [if_neg (fun hm => h (hzero.mpr hm))]

theorem reloaded_reloaded (s : Stored) : s.reloaded.reloaded = s.reloaded := by
  unfold Stored.reloaded
  rw [normal_normal]

theorem encode_of_snapshot {b : Bytes} (h : snapshot t = some b) : ∃ cap, t.indexStoreEncode cap = some b := by
  unfold snapshot at h
  dsimp only at h
  split at h
  · exact ⟨_, h⟩
  · exact absurd h (by simp)

variable {folderId : CString 63} {shortId : UInt64}

/-- **A whole file comes back.** -/
theorem same_load (h : TableOk folderId shortId k) {b : Bytes} (hb : snapshot k = some b) (mem : Arrays)
    {alloc : Nat → Alloc} (hmem : ∀ i, (alloc i).Ok) :
    Same (loadFolderIndex (.init folderId shortId mem) (some b) true alloc) k := by
  obtain ⟨cap, henc⟩ := encode_of_snapshot hb
  have hne : b ≠ [] := by
    obtain ⟨rfl, -⟩ := Pbuf.Writer.returned_eq (indexStoreEncode_eq k cap) henc
    exact indexBytes_ne_nil k
  obtain ⟨-, hseq, hload⟩ := loading_decode (u := .init folderId shortId mem) h.ok
    (h.ok.fits.trans h.room) henc h.folderId.symm h.shortId.symm hmem
  rw [loadFolderIndex, if_neg (by simp [hne])]
  refine ⟨hseq, fun n => ?_⟩
  rw [hload.slots, lookup_reloaded, Option.map_map]
  exact Option.map_congr fun s _ => reloaded_reloaded s

end Sameness

/-! ## Runs -/

/-- The whole index of a table that the folder had. -/
def Encoded (folderId : CString 63) (shortId : UInt64) (l : List FolderTable) (b : Bytes) : Prop :=
  ∃ k ∈ l, TableOk folderId shortId k ∧ snapshot k = some b

structure Inv (folderId : CString 63) (shortId : UInt64) (s : Slot) : Prop where
  table : TableOk folderId shortId s.table
  disk : Fed (Encoded folderId shortId s.encoded) s.disk

section Runs
variable {folderId : CString 63} {shortId : UInt64} {s t : Slot}

theorem encoded_mono {l l' : List FolderTable} (hl : l ⊆ l') (b : Bytes) (h : Encoded folderId shortId l b) :
    Encoded folderId shortId l' b := by
  obtain ⟨k, hk, h⟩ := h
  exact ⟨k, hl hk, h⟩

theorem inv_fresh (mem : Arrays) (temp : Option Bytes) :
    Inv folderId shortId (fresh folderId shortId mem temp) :=
  ⟨tableOk_init folderId shortId mem, by simp [fresh], by simp [fresh, Stage.carries], by simp [fresh]⟩

theorem tableOk_prune (h : TableOk folderId shortId s.table) (cutoff : Option Int64) :
    TableOk folderId shortId (cutoff.elim s.table s.table.pruneTombstones) := by
  cases cutoff with
  | none => exact h
  | some c => exact tableOk_step h (.pruneTombstones c) rfl rfl

/-- **A save** that begins. -/
theorem saveFolder_cases (s : Slot) (cutoff : Option Int64) (alloc : Bool) :
    s.saveFolder cutoff alloc = s ∧ s.dirty = false ∨
    s.dirty = true ∧ (s.saveFolder cutoff alloc = { s with table := cutoff.elim s.table s.table.pruneTombstones } ∨
      ∃ b, snapshot (cutoff.elim s.table s.table.pruneTombstones) = some b ∧
        s.saveFolder cutoff alloc = { s with
          table := cutoff.elim s.table s.table.pruneTombstones
          dirty := false
          disk := { s.disk with stage := .begun b }
          encoded := s.encoded ++ [cutoff.elim s.table s.table.pruneTombstones] }) := by
  unfold Slot.saveFolder
  cases hd : s.dirty with
  | false => exact Or.inl ⟨rfl, rfl⟩
  | true =>
    refine Or.inr ⟨rfl, ?_⟩
    cases alloc with
    | false => exact Or.inl rfl
    | true =>
      cases hsnap : snapshot (cutoff.elim s.table s.table.pruneTombstones) with
      | none =>
        refine Or.inl ?_
        simp [hsnap]
      | some b =>
        refine Or.inr ⟨b, rfl, ?_⟩
        simp [hsnap]

theorem inv_saveFolder (h : Inv folderId shortId s) (cutoff : Option Int64) (alloc : Bool) :
    Inv folderId shortId (s.saveFolder cutoff alloc) := by
  have htable := tableOk_prune h.table cutoff
  rcases saveFolder_cases s cutoff alloc with ⟨he, -⟩ | ⟨-, he | ⟨b, hb, he⟩⟩
  · rw [he]
    exact h
  · rw [he]
    exact ⟨htable, h.disk⟩
  · rw [he]
    refine ⟨htable, fed_begun (h.disk.mono (encoded_mono (List.subset_append_left _ _))) ?_⟩
    exact ⟨_, List.mem_append_right _ List.mem_cons_self, htable, hb⟩

theorem write_eq {op : Op} (hw : s.write op = some t) : runtime op = true ∧
    ∃ u, s.table.step op = some u ∧ t = { s with table := u, dirty := s.dirty || dirties s.table op } := by
  unfold Slot.write at hw
  split at hw
  · rename_i hrun
    obtain ⟨u, hu, he⟩ := Option.map_eq_some_iff.mp hw
    exact ⟨hrun, u, hu, he.symm⟩
  · exact absurd hw (by simp)

/-- **Step.** -/
theorem inv_step (s : Slot) (e : Event) (t : Slot) (h : Inv folderId shortId s)
    (hstep : step folderId shortId s e = some t) : Inv folderId shortId t := by
  cases e with
  | write op =>
    obtain ⟨hrun, u, hu, rfl⟩ := write_eq hstep
    exact ⟨tableOk_step h.table op hrun hu, h.disk⟩
  | choose =>
    simp only [step] at hstep
    split at hstep
    · exact absurd hstep (by simp)
    · exact Option.some.inj hstep ▸ ⟨h.table, h.disk⟩
  | save cutoff alloc =>
    simp only [step] at hstep
    split at hstep
    · exact absurd hstep (by simp)
    · have hsave := inv_saveFolder h cutoff alloc
      exact Option.some.inj hstep ▸ ⟨hsave.table, hsave.disk⟩
  | call c =>
    obtain ⟨d, hd, rfl⟩ := Option.map_eq_some_iff.mp hstep
    exact ⟨h.table, fed_call h.disk hd⟩
  | report =>
    simp only [step] at hstep
    split at hstep
    · exact absurd hstep (by simp)
    · exact Option.some.inj hstep ▸ ⟨h.table, fed_ended h.disk true⟩
  | remove deleted =>
    simp only [step] at hstep
    split at hstep
    · exact absurd hstep (by simp)
    · exact Option.some.inj hstep ▸ ⟨h.table, fed_delete h.disk deleted⟩
  | add mem deleted =>
    simp only [step] at hstep
    split at hstep
    · exact absurd hstep (by simp)
    · exact Option.some.inj hstep ▸ ⟨tableOk_init folderId shortId mem, fed_delete h.disk deleted⟩
  | restart mem got alloc =>
    obtain rfl := Option.some.inj hstep
    refine ⟨?_, fed_ended h.disk true⟩
    show TableOk folderId shortId (if s.removed = true then _ else _)
    split
    · exact tableOk_init folderId shortId mem
    · exact tableOk_load (tableOk_init folderId shortId mem) s.disk.file got alloc

theorem inv_run {mem : Arrays} {temp : Option Bytes} {es : List Event}
    (hrun : Machine.run (step folderId shortId) (fresh folderId shortId mem temp) es = some s) :
    Inv folderId shortId s :=
  Machine.run_inv inv_step hrun (inv_fresh mem temp)

end Runs

/-! ## Where nothing is to be saved -/

/-- The state file is the index of now: it is not there, and neither is any record, or it is a
whole index with the same records. -/
def Current (folderId : CString 63) (shortId : UInt64) (s : Slot) : Prop :=
  (s.disk.file = none ∧ ∀ mem, Same (.init folderId shortId mem) s.table) ∨
    ∃ b k, s.disk.file = some b ∧ TableOk folderId shortId k ∧ snapshot k = some b ∧ Same k s.table

structure Clean (folderId : CString 63) (shortId : UInt64) (s : Slot) : Prop where
  carried : ∀ d, s.disk.stage.carries = some d →
    ∃ k, TableOk folderId shortId k ∧ snapshot k = some d ∧ Same k s.table
  current : s.disk.stage = .ended true → Current folderId shortId s

/-- The folder is not added again while a save of the old one is on its way, its state file can be
deleted then, and an index that is there can be read. -/
def Undisturbed (s : Slot) : Event → Prop
  | .add _ deleted => deleted = true ∧ s.disk.stage.carries = none
  | .restart _ got alloc => got = true ∧ ∀ i, (alloc i).Ok
  | _ => True

def Settled (folderId : CString 63) (shortId : UInt64) (s : Slot) : Prop :=
  s.dirty = false → s.removed = false → Clean folderId shortId s

section Settle
variable {folderId : CString 63} {shortId : UInt64} {s t : Slot}

theorem Same.symm {t k : FolderTable} (h : Same t k) : Same k t :=
  ⟨h.sequence.symm, fun n => (h.records n).symm⟩

end Settle

/-! ## The results -/

/-- The calls of a save that all are granted, from `save_all` on. -/
def granted : List Event := [.choose, .save none true] ++ Replace.granted.map .call

/-- **Whole.** After each run, wherever it was cut off and whatever was refused, the state file is
not there or is the whole index of a table that the folder had; a restart has no record, or the
records of such a table. -/
theorem index_file_whole (folderId : CString 63) (shortId : UInt64) (mem : Arrays) (temp : Option Bytes)
    (es : List Event) {s : Slot}
    (hrun : Machine.run (step folderId shortId) (fresh folderId shortId mem temp) es = some s) :
    (∀ b, s.disk.file = some b → ∃ k ∈ s.encoded, snapshot k = some b) ∧
      ∀ (mem' : Arrays) (alloc : Nat → Alloc), (∀ i, (alloc i).Ok) → ∀ u,
        step folderId shortId s (.restart mem' true alloc) = some u →
          u.table.numFiles = 0 ∧ u.table.sequence = 0 ∨ ∃ k ∈ s.encoded, Same u.table k := by
  have h := inv_run hrun
  refine ⟨fun b hb => ?_, fun mem' alloc hmem u hu => ?_⟩
  · obtain ⟨k, hk, -, hsnap⟩ := h.disk.file b hb
    exact ⟨k, hk, hsnap⟩
  · obtain rfl := Option.some.inj hu
    show (if s.removed = true then _ else _ : FolderTable).numFiles = 0 ∧
      (if s.removed = true then _ else _ : FolderTable).sequence = 0 ∨
        ∃ k ∈ s.encoded, Same (if s.removed = true then _ else _) k
    cases hr : s.removed with
    | true => exact Or.inl ⟨rfl, rfl⟩
    | false =>
      cases hf : s.disk.file with
      | none => exact Or.inl ⟨rfl, rfl⟩
      | some b =>
        obtain ⟨k, hk, hok, hsnap⟩ := h.disk.file b hf
        exact Or.inr ⟨k, hk, same_load hok hsnap mem' hmem⟩

/-- A change that is saved, and one that is not saved any more. -/
def sampleEvents : List Event := .write .nextSeq :: granted ++ [.write .nextSeq, .choose, .save none true]

theorem index_file_whole_cut : ∃ s b, Machine.run (step (.empty _) 7) (fresh (.empty _) 7 sampleArrays none)
    sampleEvents = some s ∧ s.disk.file = some b ∧ s.table.sequence = 2 ∧ ∃ k ∈ s.encoded, snapshot k = some b := by
  have hfacts : ((Machine.run (step (.empty _) 7) (fresh (.empty _) 7 sampleArrays none) sampleEvents).any fun s =>
      s.disk.file.isSome && s.table.sequence == 2) = true := by decide +kernel
  obtain ⟨s, hs, hfacts⟩ := (Option.any_eq_true _ _).mp hfacts
  obtain ⟨hfile, hseq⟩ := Bool.and_eq_true_iff.mp hfacts
  obtain ⟨b, hb⟩ := Option.isSome_iff_exists.mp hfile
  exact ⟨s, b, hs, hb, by simpa using hseq, (index_file_whole (.empty _) 7 sampleArrays none sampleEvents hs).1 b hb⟩

end Amisync.IndexFile

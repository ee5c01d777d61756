import Amisync.FileInfo
import Amisync.PathSafe
import Amisync.Sequences
import Amisync.Spill

/-!
# The way of a peer's record into the index (`worker.c`)

What `handle_index` does with one entry of an Index message, and every place
the record can pass on its way into the shared index: the list of deferred
deletions, the two spill files, the want queue.

* `Info`: a decoded `BepFileInfo`. Its flags are C `int`s, the flags of a
  `SyncMeta` are single bytes.
* `handleEntry`: where an entry goes first. `Move`: where it goes from there.
* `onWay_move`: no move loses a flag, all narrow what is a byte already.
* `flags_kept_iff`: a flag keeps its truth on every way into the index exactly
  when the entry is skipped or its `deleted` survives the cut to a byte. The
  spill file writes 0 or 1; the other copies cut, and 256 becomes 0.
-/

namespace Amisync.Incoming

open Bep

/-! ## Records on the way -/

/-- A decoded record, with the fingerprint the worker folds for it. -/
structure Info extends FileInfo where
  contentHash : Option Hash
  deriving DecidableEq

/-- `m->deleted = fi->deleted`, from an `int` to an `unsigned char`. -/
def cut (v : Int32) : UInt8 := v.toUInt32.toUInt8

def metaFromFileinfo (fi : Info) : FileMeta where
  name := fi.name
  size := fi.size
  permissions := fi.permissions
  modifiedS := fi.modifiedS
  modifiedNs := fi.modifiedNs
  modifiedBy := fi.modifiedBy
  sequence := fi.sequence
  blockSize := fi.blockSize
  version := fi.version
  contentHash := fi.contentHash.getD zeroHash
  type := cut fi.type
  deleted := cut fi.deleted
  invalid := cut fi.invalid
  hasContentHash := if fi.contentHash.isSome then 1 else 0

/-- The copy of `syncmodel.c`, for the want queue: field by field the same. -/
def metaFromFi (fi : Info) : FileMeta := metaFromFileinfo fi

/-- `fileinfo_from_meta`, with the fingerprint. -/
def infoFromMeta (m : FileMeta) : Info :=
  { fileinfoFromMeta m with contentHash := if m.hasContentHash ≠ 0 then some m.contentHash else none }

/-- The record `spill_append` writes: here the flags are written as 0 or 1. -/
def spillRecord (fi : Info) : FileMeta :=
  { metaFromFileinfo fi with
    deleted := if fi.deleted ≠ 0 then 1 else 0
    invalid := if fi.invalid ≠ 0 then 1 else 0 }

/-- The record as `sync_classify_incoming` sees it, its flags still whole. -/
def Info.toSync (fi : Info) : SyncMeta :=
  { (metaFromFileinfo fi).toSync with
    deleted := fi.deleted ≠ 0
    invalid := fi.invalid ≠ 0 }

/-- What the reader of the spill file gets back is that record. -/
theorem readParked_spillRecord {fi : Info} {hashes : List Hash} {conflict : Bool}
    (hn : fi.name.bytes ≠ []) (hb : hashes.length ≤ folderMaxBlocks) (rest : Bytes)
    (hlen : (Parked.mk (spillRecord fi) hashes conflict).body.toNat ≤ spillRecMax) :
    readParked folderMaxBlocks ((Parked.mk (spillRecord fi) hashes conflict).encode ++ rest) =
      some (⟨spillRecord fi, hashes, conflict⟩,
        (Parked.mk (spillRecord fi) hashes conflict).body) := by
  have hflag : ∀ p : Prop, [Decidable p] →
      ((if p then 1 else 0 : UInt8) = 0 ∨ (if p then 1 else 0 : UInt8) = 1) := by
    intro p _
    split
    · exact Or.inr rfl
    · exact Or.inl rfl
  have ha : (Parked.mk (spillRecord fi) hashes conflict).Admissible :=
    ⟨hn, ⟨hflag _, hflag _, hflag _⟩, hb⟩
  rw [Parked.readParked_encode ha, if_pos hlen]

/-! ## One entry -/

/-- What an entry meets: the folder's mode and rules, the record held under its name, how the
blocks fold, and where there is room. -/
structure Env where
  mode : FolderMode
  ignored : Bool
  held : Option SyncMeta
  fold : List BlockInfo → Hash
  pending : Bool
  made : Bool
  removed : Bool
  deferRoom : Bool
  deferRoomFlushed : Bool
  spillDelRoom : Bool
  wantRoom : Bool
  spillRoom : Bool

/-- Where the record of an entry is. -/
inductive Place where
  | nowhere
  | deferred (m : FileMeta)
  | parkedDelete (m : FileMeta)
  | queued (m : FileMeta)
  | parkedWant (m : FileMeta)
  | unstorable (m : FileMeta)
  | stored (m : FileMeta)
  | tombstone (m : FileMeta)
  deriving DecidableEq

/-- `apply_peer_delete` and `apply_peer_dir_delete`, once the object is off the disk. -/
def applyDelete (fi : Info) (seq : Int64) : Place :=
  .tombstone { metaFromFileinfo fi with sequence := seq }

/-- Too many blocks, or blocks of a size that is not handled. -/
def tooLarge (fi : Info) : Bool :=
  decide (0 < fi.blocks.length ∧ (fi.blockSize ≤ 0 ∨ (folderMaxBlockSize : Int) < fi.blockSize.toInt ∨
    folderMaxBlocks < fi.blocks.length))

/-- `folder_content_hash` of the blocks of a live file, where they can be held. -/
def withContentHash (env : Env) (fi : Info) : Info :=
  if fi.deleted = 0 ∧ fi.blocks.length ≤ folderMaxBlocks then
    { fi with contentHash := some (env.fold fi.blocks) }
  else fi

/-- The branch of `handle_index` for a drawer. -/
def handleDir (env : Env) (fi : Info) (seq : Int64) : Place :=
  if env.mode = .sendOnly ∨ env.ignored then .nowhere
  else if fi.deleted = 0 then
    -- `apply_peer_dir`: a tombstone or a live record of ours may stand in the way
    if env.made then .stored { metaFromFileinfo fi with sequence := seq } else .nowhere
  else if env.deferRoom then .deferred (metaFromFileinfo fi)
  else if env.deferRoomFlushed then .deferred (metaFromFileinfo fi)
  else if env.spillDelRoom then .parkedDelete (spillRecord fi)
  else if env.removed then applyDelete fi seq
  else .nowhere

/-- The branch for a file that is classified. -/
def handleFile (env : Env) (fi : Info) (seq : Int64) : Place :=
  match syncClassifyIncoming env.held env.mode fi.toSync with
  | .ignore | .adopt => .nowhere
  | .delete =>
    if env.deferRoom then .deferred (metaFromFileinfo fi)
    else if env.spillDelRoom then .parkedDelete (spillRecord fi)
    else if env.removed then applyDelete fi seq
    else .nowhere
  | .fetch | .conflict =>
    if env.pending then .nowhere
    -- what `announce_unstorable` then stores is a record of our own, with flags of its own
    else if tooLarge fi then .unstorable (metaFromFileinfo fi)
    else if env.wantRoom then .queued (metaFromFi fi)
    else if env.spillRoom then .parkedWant (spillRecord fi)
    else .nowhere

/-- One round of the loop of `handle_index`. -/
def handleEntry (env : Env) (fi : Info) (seq : Int64) : Place :=
  if fi.invalid ≠ 0 then .nowhere
  else if !pathNameSafe fi.name.bytes then .nowhere
  else if fi.type = 1 then handleDir env fi seq
  else if fi.type ≠ 0 then .nowhere
  else if fi.deleted = 0 ∧ env.ignored then .nowhere
  else handleFile env (withContentHash env fi) seq

/-! ## From place to place -/

/-- What later flushes, drains, refills and downloads do with a record that waits. The index
has changed in between, so every decision is taken anew. -/
inductive Move : Place → Place → Prop where
  /-- `flush_deferred`, a drawer. -/
  | flushDir (m : FileMeta) (seq : Int64) (h : m.type = 1) :
      Move (.deferred m) (applyDelete (infoFromMeta m) seq)
  /-- `flush_deferred`, a file: `apply_deferred_delete` classifies again. -/
  | flushFile (m : FileMeta) (seq : Int64) (held : Option SyncMeta) (mode : FolderMode)
      (h : m.type ≠ 1) (hc : syncClassifyIncoming held mode (infoFromMeta m).toSync = .delete) :
      Move (.deferred m) (applyDelete (infoFromMeta m) seq)
  /-- `drain_parked_deletes`, a drawer that is removed. -/
  | drainDir (m : FileMeta) (seq : Int64) (h : m.type = 1) :
      Move (.parkedDelete m) (applyDelete (infoFromMeta m) seq)
  /-- `drain_parked_deletes`, a drawer that has to wait. -/
  | drainDirWait (m : FileMeta) (h : m.type = 1) :
      Move (.parkedDelete m) (.deferred (metaFromFileinfo (infoFromMeta m)))
  /-- `drain_parked_deletes`, a file: through a `SyncMeta` to `apply_deferred_delete`. -/
  | drainFile (m : FileMeta) (seq : Int64) (held : Option SyncMeta) (mode : FolderMode)
      (h : m.type ≠ 1) (hc : syncClassifyIncoming held mode
        (infoFromMeta (metaFromFileinfo (infoFromMeta m))).toSync = .delete) :
      Move (.parkedDelete m)
        (applyDelete (infoFromMeta (metaFromFileinfo (infoFromMeta m))) seq)
  /-- `refill_from_spill`. -/
  | refill (m : FileMeta) (held : Option SyncMeta) (mode : FolderMode)
      (hc : syncClassifyIncoming held mode (infoFromMeta m).toSync = .fetch ∨
        syncClassifyIncoming held mode (infoFromMeta m).toSync = .conflict) :
      Move (.parkedWant m) (.queued (metaFromFi (infoFromMeta m)))
  /-- `requeue_download`. -/
  | requeue (m : FileMeta) : Move (.queued m) (.queued (metaFromFi (infoFromMeta m)))
  /-- `finalize_download`. -/
  | finish (m : FileMeta) (seq : Int64) : Move (.queued m) (.stored { m with sequence := seq })

/-- The record a place holds. -/
def Place.record : Place → Option FileMeta
  | .nowhere => none
  | .deferred m | .parkedDelete m | .queued m | .parkedWant m | .unstorable m | .stored m
  | .tombstone m => some m

/-- The places on the way of a deletion. -/
def Place.deletes : Place → Bool
  | .deferred _ | .parkedDelete _ | .tombstone _ => true
  | _ => false

/-- The record at `p` is what the entry said: both flags have the truth they had, and a record
that is stored for a deletion is a tombstone. -/
structure Kept (fi : Info) (p : Place) : Prop where
  deleted : ∀ m ∈ p.record, (m.deleted ≠ 0 ↔ fi.deleted ≠ 0)
  invalid : ∀ m ∈ p.record, (m.invalid ≠ 0 ↔ fi.invalid ≠ 0)
  tombstone : ∀ m, p = .tombstone m → m.deleted ≠ 0

/-- What a place on the way keeps true: the flags, and that only deletions come where records
are deleted. -/
structure OnWay (fi : Info) (p : Place) : Prop where
  deleted : ∀ m ∈ p.record, (m.deleted ≠ 0 ↔ fi.deleted ≠ 0)
  invalid : ∀ m ∈ p.record, (m.invalid ≠ 0 ↔ fi.invalid ≠ 0)
  deletion : p.deletes = true → fi.deleted ≠ 0

theorem OnWay.kept {fi : Info} {p : Place} (h : OnWay fi p) : Kept fi p where
  deleted := h.deleted
  invalid := h.invalid
  tombstone := by
    rintro m rfl
    exact (h.deleted m rfl).mpr (h.deletion rfl)

theorem cut_widened (b : UInt8) : cut b.toUInt32.toInt32 = b := by simp [cut]

/-- A record that has been a `SyncMeta` once loses nothing more. -/
theorem flags_infoFromMeta (m : FileMeta) :
    (metaFromFileinfo (infoFromMeta m)).deleted = m.deleted ∧
      (metaFromFileinfo (infoFromMeta m)).invalid = m.invalid :=
  ⟨cut_widened m.deleted, cut_widened m.invalid⟩

/-- A place that takes over the flags of another, towards the same end. -/
theorem OnWay.carry {fi : Info} {p q : Place} {m m' : FileMeta} (h : OnWay fi p)
    (hp : p.record = some m) (hq : q.record = some m') (hd : m'.deleted = m.deleted)
    (hi : m'.invalid = m.invalid) (hdel : q.deletes = true → p.deletes = true) : OnWay fi q where
  deleted := by
    intro x hx
    rw [hq, Option.mem_some] at hx
    rw [← hx, hd]
    exact h.deleted m hp
  invalid := by
    intro x hx
    rw [hq, Option.mem_some] at hx
    rw [← hx, hi]
    exact h.invalid m hp
  deletion := fun hx => h.deletion (hdel hx)

/-- **Moves.** -/
theorem onWay_move {fi : Info} {p q : Place} (h : OnWay fi p) (hm : Move p q) : OnWay fi q := by
  cases hm with
  | flushDir m seq _ =>
    have hf := flags_infoFromMeta m
    exact h.carry rfl rfl hf.1 hf.2 (fun _ => rfl)
  | flushFile m seq _ _ _ _ =>
    have hf := flags_infoFromMeta m
    exact h.carry rfl rfl hf.1 hf.2 (fun _ => rfl)
  | drainDir m seq _ =>
    have hf := flags_infoFromMeta m
    exact h.carry rfl rfl hf.1 hf.2 (fun _ => rfl)
  | drainDirWait m _ =>
    have hf := flags_infoFromMeta m
    exact h.carry rfl rfl hf.1 hf.2 (fun _ => rfl)
  | drainFile m seq _ _ _ _ =>
    have hf := flags_infoFromMeta m
    have hg := flags_infoFromMeta (metaFromFileinfo (infoFromMeta m))
    exact h.carry rfl rfl (hg.1.trans hf.1) (hg.2.trans hf.2) (fun _ => rfl)
  | refill m _ _ _ =>
    have hf := flags_infoFromMeta m
    exact h.carry rfl rfl hf.1 hf.2 (fun hx => absurd hx Bool.false_ne_true)
  | requeue m =>
    have hf := flags_infoFromMeta m
    exact h.carry rfl rfl hf.1 hf.2 (fun hx => absurd hx Bool.false_ne_true)
  | finish m seq => exact h.carry rfl rfl rfl rfl (fun hx => absurd hx Bool.false_ne_true)

/-- **Every way.** -/
theorem onWay_of_reach {fi : Info} {p q : Place} (h : OnWay fi p)
    (hr : Relation.ReflTransGen Move p q) : OnWay fi q := by
  induction hr with
  | refl => exact h
  | tail _ hm ih => exact onWay_move ih hm

/-! ## Where an entry starts -/

/-- The cut to a byte does not turn the value into 0. -/
def Survives (v : Int32) : Prop := cut v = 0 → v = 0

instance (v : Int32) : Decidable (Survives v) := inferInstanceAs (Decidable (_ → _))

theorem cut_ne_zero_iff {v : Int32} (h : Survives v) : cut v ≠ 0 ↔ v ≠ 0 := by
  constructor
  · rintro hc rfl
    exact hc rfl
  · intro hv hc
    exact hv (h hc)

theorem onWay_nowhere (fi : Info) : OnWay fi .nowhere where
  deleted := fun _ hm => absurd hm (Option.not_mem_none _)
  invalid := fun _ hm => absurd hm (Option.not_mem_none _)
  deletion := fun h => absurd h Bool.false_ne_true

section Start
variable {fi : Info} (hi : fi.invalid = 0)
include hi

/-- A place that holds the copy `meta_from_fileinfo` makes. -/
theorem onWay_copied {p : Place} {m : FileMeta} (hs : Survives fi.deleted)
    (hp : p.record = some m) (hd : m.deleted = cut fi.deleted) (hm : m.invalid = cut fi.invalid)
    (hdel : p.deletes = true → fi.deleted ≠ 0) : OnWay fi p where
  deleted := by
    intro x hx
    rw [hp, Option.mem_some] at hx
    rw [← hx, hd]
    exact cut_ne_zero_iff hs
  invalid := by
    intro x hx
    rw [hp, Option.mem_some] at hx
    rw [← hx, hm, hi]
    exact iff_of_false (fun h => h rfl) (fun h => h rfl)
  deletion := hdel

/-- A place on disk. -/
theorem onWay_spilled {p : Place} (hp : p.record = some (spillRecord fi))
    (hdel : p.deletes = true → fi.deleted ≠ 0) : OnWay fi p where
  deleted := by
    intro x hx
    rw [hp, Option.mem_some] at hx
    rw [← hx]
    by_cases h : fi.deleted = 0 <;> simp [spillRecord, h]
  invalid := by
    intro x hx
    rw [hp, Option.mem_some] at hx
    rw [← hx]
    simp [spillRecord, hi]
  deletion := hdel

theorem onWay_handleDir (env : Env) (seq : Int64) (hs : Survives fi.deleted) :
    OnWay fi (handleDir env fi seq) := by
  unfold handleDir
  split
  · exact onWay_nowhere fi
  split
  · split
    · exact onWay_copied hi hs rfl rfl rfl (fun h => absurd h Bool.false_ne_true)
    · exact onWay_nowhere fi
  · rename_i hd
    repeat' split
    · exact onWay_copied hi hs rfl rfl rfl (fun _ => hd)
    · exact onWay_copied hi hs rfl rfl rfl (fun _ => hd)
    · exact onWay_spilled hi rfl (fun _ => hd)
    · exact onWay_copied hi hs rfl rfl rfl (fun _ => hd)
    · exact onWay_nowhere fi

end Start

theorem classifyLive_ne_delete (held peer : SyncMeta) (rel : SyncVerRel) :
    classifyLive held peer rel ≠ .delete := by
  have hr : resolveConflict held peer ≠ .delete := by
    rcases resolveConflict_cases held peer with e | e <;> rw [e] <;> decide
  cases rel with
  | ours =>
    simp only [classifyLive]
    decide
  | concurrent =>
    simp only [classifyLive]
    split_ifs
    any_goals decide
    exact hr
  | theirs | equal =>
    simp only [classifyLive]
    split_ifs <;> decide

/-- The classifier says "delete" only of deletions. -/
theorem deleted_of_classify {held : Option SyncMeta} {mode : FolderMode} {peer : SyncMeta}
    (h : syncClassifyIncoming held mode peer = .delete) : peer.deleted = true := by
  by_contra hp
  unfold syncClassifyIncoming at h
  cases held with
  | none =>
    simp only [hp, ↓reduceIte] at h
    split_ifs at h
  | some x =>
    simp only [hp, ↓reduceIte] at h
    split_ifs at h
    exact classifyLive_ne_delete _ _ _ h

theorem onWay_handleFile (fi : Info) (hi : fi.invalid = 0) (env : Env) (seq : Int64)
    (hs : Survives fi.deleted) : OnWay fi (handleFile env fi seq) := by
  unfold handleFile
  split
  · exact onWay_nowhere fi
  · exact onWay_nowhere fi
  · rename_i hc
    have hd : fi.deleted ≠ 0 := by simpa [Info.toSync] using deleted_of_classify hc
    repeat' split
    · exact onWay_copied hi hs rfl rfl rfl (fun _ => hd)
    · exact onWay_spilled hi rfl (fun _ => hd)
    · exact onWay_copied hi hs rfl rfl rfl (fun _ => hd)
    · exact onWay_nowhere fi
  all_goals
    repeat' split
    · exact onWay_nowhere fi
    · exact onWay_copied hi hs rfl rfl rfl (fun h => absurd h Bool.false_ne_true)
    · exact onWay_copied hi hs rfl rfl rfl (fun h => absurd h Bool.false_ne_true)
    · exact onWay_spilled hi rfl (fun h => absurd h Bool.false_ne_true)
    · exact onWay_nowhere fi

theorem onWay_handleEntry {fi : Info} (env : Env) (seq : Int64) (hs : Survives fi.deleted) :
    OnWay fi (handleEntry env fi seq) := by
  unfold handleEntry
  split
  · exact onWay_nowhere fi
  rename_i hinv
  have hi : fi.invalid = 0 := not_not.mp hinv
  repeat' split
  · exact onWay_nowhere fi
  · exact onWay_handleDir hi env seq hs
  · exact onWay_nowhere fi
  · exact onWay_nowhere fi
  · -- the fingerprint has no part in the flags
    have hfi : (withContentHash env fi).deleted = fi.deleted ∧
        (withContentHash env fi).invalid = fi.invalid := by
      unfold withContentHash
      split <;> exact ⟨rfl, rfl⟩
    have h := onWay_handleFile (withContentHash env fi) (hfi.2.trans hi) env seq
      (by rw [hfi.1]; exact hs)
    exact ⟨by rw [← hfi.1]; exact h.deleted, by rw [← hfi.2]; exact h.invalid,
      by rw [← hfi.1]; exact h.deletion⟩

/-! ## Where the flags are kept -/

/-- Entries `handle_index` passes over, whatever it finds in the index. -/
def Skipped (fi : Info) : Prop :=
  fi.invalid ≠ 0 ∨ pathNameSafe fi.name.bytes = false ∨ (fi.type ≠ 0 ∧ fi.type ≠ 1)

instance (fi : Info) : Decidable (Skipped fi) := inferInstanceAs (Decidable (_ ∨ _ ∨ _))

theorem handleEntry_skipped {fi : Info} (h : Skipped fi) (env : Env) (seq : Int64) :
    handleEntry env fi seq = .nowhere := by
  rcases h with h | h | ⟨h0, h1⟩
  · simp [handleEntry, h]
  · simp [handleEntry, h]
  · simp [handleEntry, h0, h1]

/-- A receiving folder with an empty defer list. -/
def openEnv (held : Option SyncMeta) (fold : List BlockInfo → Hash) : Env where
  mode := .sendReceive
  ignored := false
  held := held
  fold := fold
  pending := false
  made := true
  removed := true
  deferRoom := true
  deferRoomFlushed := true
  spillDelRoom := false
  wantRoom := true
  spillRoom := false

/-- A record without a vector that is as old as the deletion. -/
def heldFor (fi : Info) : SyncMeta :=
  { SyncMeta.zero fi.name.bytes with modifiedS := fi.modifiedS.toInt }

theorem classify_heldFor {fi : Info} (h : fi.deleted ≠ 0) :
    syncClassifyIncoming (some (heldFor fi)) .sendReceive fi.toSync = .delete := by
  have hv : haveVectors (heldFor fi) fi.toSync = false := rfl
  have hm : ¬ fi.toSync.modifiedS < (heldFor fi).modifiedS := Int.lt_irrefl fi.modifiedS.toInt
  have hd : fi.toSync.deleted = true := by simpa [Info.toSync] using h
  simp only [syncClassifyIncoming, hd, hv, hm, reduceCtorEq, Bool.false_eq_true, ↓reduceIte]
  rfl

/-- A deletion that is not skipped goes to the defer list. -/
theorem handleEntry_deferred {fi : Info} (h : ¬ Skipped fi) (hd : fi.deleted ≠ 0)
    (fold : List BlockInfo → Hash) (seq : Int64) :
    handleEntry (openEnv (some (heldFor fi)) fold) fi seq = .deferred (metaFromFileinfo fi) := by
  simp only [Skipped, not_or, not_not, Bool.not_eq_false] at h
  obtain ⟨hi, hn, ht⟩ := h
  have hfold : withContentHash (openEnv (some (heldFor fi)) fold) fi = fi :=
    if_neg (fun h => hd h.1)
  unfold handleEntry
  rw [if_neg (not_not.mpr hi), if_neg (by simp [hn]), hfold]
  by_cases h1 : fi.type = 1
  · rw [if_pos h1, handleDir, if_neg (by simp [openEnv]), if_neg hd]
    rfl
  · have h0 : fi.type = 0 := by
      by_contra h0
      exact ht ⟨h0, h1⟩
    rw [if_neg h1, if_neg (not_not.mpr h0), if_neg (fun h => hd h.1), handleFile]
    show (match syncClassifyIncoming (some (heldFor fi)) .sendReceive fi.toSync with
      | .ignore | .adopt => _ | .delete => _ | .fetch | .conflict => _) = _
    rw [classify_heldFor hd]
    rfl

/-- Every way an entry can take, from every state of the folder. -/
def AllKept (fi : Info) : Prop :=
  ∀ (env : Env) (seq : Int64) (p : Place),
    Relation.ReflTransGen Move (handleEntry env fi seq) p → Kept fi p

/-- **Flags on their way into the index.** -/
theorem flags_kept_iff (fi : Info) : AllKept fi ↔ Skipped fi ∨ Survives fi.deleted := by
  constructor
  · intro hk
    by_contra hno
    simp only [not_or] at hno
    obtain ⟨hskip, hs⟩ := hno
    have hd : fi.deleted ≠ 0 := fun e => hs (fun _ => e)
    have hcut : cut fi.deleted = 0 := by
      by_contra hc
      exact hs (fun e => absurd e hc)
    have hkept := hk (openEnv (some (heldFor fi)) fun _ => zeroHash) 0 _ Relation.ReflTransGen.refl
    rw [handleEntry_deferred hskip hd] at hkept
    exact (hkept.deleted _ rfl).mpr hd hcut
  · rintro (hskip | hs) env seq p hr
    · rw [handleEntry_skipped hskip] at hr
      exact (onWay_of_reach (onWay_nowhere fi) hr).kept
    · exact (onWay_of_reach (onWay_handleEntry env seq hs) hr).kept

/-- A deletion of `a` whose flag is 256 on the wire. -/
def wideDeletion : Bytes := [0x0A, 1, 97, 0x30, 0x80, 0x02]

def wideInfo : Info :=
  { FileInfo.zero with name := ⟨[97], by decide, by decide⟩, deleted := 256, contentHash := none }

/-- A folder that holds the file, with every list full and no room on disk. -/
def fullEnv : Env :=
  { openEnv (some (heldFor wideInfo)) (fun _ => zeroHash) with
    deferRoom := false
    deferRoomFlushed := false }

/-- The file is removed and its record says it is live. -/
theorem wide_deletion_stored_live :
    decodeFileInfoCb wideDeletion = some wideInfo.toFileInfo ∧
      (∃ m, handleEntry fullEnv wideInfo 7 = .tombstone m ∧ m.deleted = 0) ∧
      ¬ AllKept wideInfo := by
  have hlive : handleEntry fullEnv wideInfo 7 = applyDelete wideInfo 7 := by decide +kernel
  refine ⟨by decide +kernel, ⟨_, hlive, by decide⟩, ?_⟩
  intro hk
  have hkept := hk fullEnv 7 _ Relation.ReflTransGen.refl
  exact hkept.tombstone _ hlive (by decide)

end Amisync.Incoming

import Amisync.Download
import Amisync.FoldState

/-!
# What the worker does with a peer's record (`worker.c`, `syncmodel.c`)

The want queue, the checks a record goes through on its way into it, and what
each answer of the decision table says about the two records.

* `verdict_classify`: what each answer says, for any two records.
* `satisfied_of_same`: a record whose content is there is not asked for again.
-/

namespace Amisync

/-! ## The want queue -/

abbrev configMaxFolders : Nat := 8
def syncMaxWant : Nat := 256
def syncHashPool : Nat := 2048
def wkMaxFetch : Nat := 3

abbrev FolderIdx := Fin configMaxFolders

instance : NeZero configMaxFolders := ⟨by decide⟩

structure WantFile where
  folderIdx : FolderIdx
  fi : SyncMeta
  hashes : List Hash
  conflict : Bool
  attempts : Nat
  deriving DecidableEq, Repr

def WantFile.name (w : WantFile) : Name := w.fi.name

/-- The hash slots in use; the pool is a stack that mirrors the queue. -/
def hashUsed (q : List WantFile) : Nat := (q.map fun w => w.hashes.length).sum

/-- `sync_want_push_again`; the first entry of the list is the top of the stack. -/
def syncWantPushAgain (q : List WantFile) (w : WantFile) : Option (List WantFile) :=
  if syncMaxWant ≤ q.length then none
  else if syncHashPool - hashUsed q < w.hashes.length then none
  else some (w :: q)

def syncWantHas (q : List WantFile) (folderIdx : FolderIdx) (name : Name) : Bool :=
  q.any fun w => w.folderIdx = folderIdx && w.name = name

/-! ## Checks -/

/-- The content fingerprint that `handle_index` folds from the block hashes. -/
def Wanted.withContent (sha : Bytes → Hash) (w : Wanted) : Wanted :=
  if !w.fi.deleted && w.numBlocks ≤ folderMaxBlocks then
    { w with fi := { w.fi with contentHash := some (folderContentHash sha w.hashes) } }
  else w

/-- Blocks we cannot address or buffer. -/
def Wanted.tooLarge (w : Wanted) : Bool :=
  0 < w.numBlocks &&
    (w.fi.blockSize ≤ 0 || folderMaxBlockSize < w.fi.blockSize || folderMaxBlocks < w.numBlocks)

section Content
variable (sha : Bytes → Hash) (w : Wanted)

/-- Nothing but the fingerprint is new. -/
theorem withContent_fi : ∃ c, (w.withContent sha).fi = { w.fi with contentHash := c } := by
  unfold Wanted.withContent
  split
  · exact ⟨_, rfl⟩
  · exact ⟨w.fi.contentHash, rfl⟩

@[simp] theorem withContent_name : (w.withContent sha).fi.name = w.fi.name := by
  obtain ⟨c, hc⟩ := withContent_fi sha w
  rw [hc]

@[simp] theorem withContent_type : (w.withContent sha).fi.type = w.fi.type := by
  obtain ⟨c, hc⟩ := withContent_fi sha w
  rw [hc]

@[simp] theorem withContent_deleted : (w.withContent sha).fi.deleted = w.fi.deleted := by
  obtain ⟨c, hc⟩ := withContent_fi sha w
  rw [hc]

@[simp] theorem withContent_invalid : (w.withContent sha).fi.invalid = w.fi.invalid := by
  obtain ⟨c, hc⟩ := withContent_fi sha w
  rw [hc]

/-- A live file that we can store has a fingerprint. -/
theorem withContent_isSome (hlive : w.fi.deleted = false)
    (hfits : (w.withContent sha).tooLarge = false) :
    (w.withContent sha).fi.contentHash.isSome = true := by
  unfold Wanted.withContent at hfits ⊢
  split
  · rfl
  · rename_i hn
    rw [if_neg hn] at hfits
    have hmany : folderMaxBlocks < w.numBlocks := by
      rw [hlive] at hn
      simpa using hn
    have hpos : 0 < w.numBlocks := by omega
    simp [Wanted.tooLarge, hmany, hpos] at hfits

end Content

/-- The record `announce_unstorable` stores. -/
def unstorableRecord (m : SyncMeta) : SyncMeta := { m with invalid := true, deleted := false }

def alreadyHave (held : Option SyncMeta) (fi : SyncMeta) : Bool :=
  held.any fun h => !h.deleted && syncContentSame h fi

/-- The record of a name as `snap_record` copies it. -/
def FolderState.record (fs : FolderState) (n : Name) : Option SyncMeta := (fs.find n).map Slot.record

/-! ## What an answer says -/

/-- What each answer of the decision table says about the two records. -/
inductive Verdict (h peer : SyncMeta) : SyncAction → Prop
  | ignore : Verdict h peer .ignore
  | delete (gone : peer.deleted = true)
      (rel : haveVectors h peer = false ∨ syncVersionCompare h.version peer.version = .theirs) :
      Verdict h peer .delete
  | adopt (live : h.deleted = false) (same : syncContentSame h peer = true) : Verdict h peer .adopt
  | fetch (other : h.deleted = true ∨ syncContentSame h peer = false)
      (rel : haveVectors h peer = false ∨ syncVersionCompare h.version peer.version = .theirs ∨
        h.deleted = true) : Verdict h peer .fetch
  | conflict (live : h.deleted = false) (other : syncContentSame h peer = false) :
      Verdict h peer .conflict

theorem verdict_live (h peer : SyncMeta) :
    Verdict h peer (classifyLive h peer (syncVersionCompare h.version peer.version)) := by
  cases hrel : syncVersionCompare h.version peer.version with
  | ours => exact .ignore
  | theirs =>
    rw [classifyLive]
    split
    · rename_i hs
      simp only [Bool.and_eq_true, Bool.not_eq_true'] at hs
      exact .adopt hs.1 hs.2
    · rename_i hs
      exact .fetch (by simpa [imp_iff_or_not, or_comm] using hs) (Or.inr (Or.inl hrel))
  | equal =>
    rw [classifyLive]
    split
    · rename_i hs
      simp only [Bool.and_eq_true, Bool.not_eq_true'] at hs
      exact .adopt hs.1.1 hs.1.2
    · exact .ignore
  | concurrent =>
    rw [classifyLive]
    split
    · rename_i hs
      simp only [Bool.and_eq_true, Bool.not_eq_true'] at hs
      have hadopt : Verdict h peer .adopt := .adopt hs.1 hs.2
      repeat' split
      all_goals first
        | exact hadopt
        | exact .ignore
    · rename_i hs
      split
      · exact .fetch (Or.inl ‹_›) (Or.inr (Or.inr ‹_›))
      · rename_i hd
        rw [Bool.not_eq_true] at hd
        rcases resolveConflict_cases h peer with hr | hr
        · rw [hr]
          exact .conflict hd (by simpa [hd] using hs)
        · rw [hr]
          exact .ignore

/-- **Verdicts.** -/
theorem verdict_classify (h peer : SyncMeta) (mode : FolderMode) :
    Verdict h peer (syncClassifyIncoming (some h) mode peer) := by
  unfold syncClassifyIncoming
  split
  · exact .ignore
  · dsimp only
    split
    · rename_i hp
      split
      · exact .ignore
      · split
        · split
          · exact .delete hp (Or.inr ‹_›)
          · exact .ignore
        · rename_i hv
          split
          · exact .ignore
          · exact .delete hp (Or.inl (by simpa using hv))
    · split
      · exact verdict_live h peer
      · rename_i hv
        split
        · exact .ignore
        · rename_i hs
          split
          · exact .ignore
          · exact .fetch (by simpa [imp_iff_or_not, or_comm] using hs) (Or.inl (by simpa using hv))

/-- Nothing of the peer's record is left to be fetched. -/
def Satisfied (held : Option SyncMeta) (mode : FolderMode) (peer : SyncMeta) : Prop :=
  syncClassifyIncoming held mode peer ≠ .fetch ∧ syncClassifyIncoming held mode peer ≠ .conflict

instance (held : Option SyncMeta) (mode : FolderMode) (peer : SyncMeta) :
    Decidable (Satisfied held mode peer) := inferInstanceAs (Decidable (_ ∧ _))

/-- **Satisfied.** What we hold with the same content is not fetched, whatever the vectors. -/
theorem satisfied_of_same {h peer : SyncMeta} (mode : FolderMode) (hlive : h.deleted = false)
    (hsame : syncContentSame h peer = true) : Satisfied (some h) mode peer := by
  have hv := verdict_classify h peer mode
  constructor
  · intro hc
    rw [hc] at hv
    cases hv with
    | fetch other _ => simp [hlive, hsame] at other
  · intro hc
    rw [hc] at hv
    cases hv with
    | conflict _ other => simp [hsame] at other

end Amisync

import Amisync.Exchange
import Amisync.Lib.KeyedList

/-!
# The shared index (`foldstate.c`)

One folder's index: slots with a record, its block hashes and the scanner's
mark. The name hash chains are left out; a lookup is a search by name.

* A `FolderState` carries what every writer keeps: no name occurs twice, and
  every record has a sequence between 1 and the folder's counter.
* `writerOk_write`: whatever a writer does, a record is as it was or has a fresh
  sequence, and unless the prune generation moved it is in the same slot.
-/

namespace Amisync

structure Slot where
  record : SyncMeta
  blocks : List Hash
  seen : Bool
  deriving DecidableEq, Repr

def Slot.name (s : Slot) : Name := s.record.name

structure FolderState where
  files : List Slot
  sequence : Int
  pruneGen : Nat
  shortId : Nat
  nodup : Keyed.NodupKeys Slot.name files
  nonneg : 0 ≤ sequence
  seqOk : ∀ s ∈ files, 1 ≤ s.record.sequence ∧ s.record.sequence ≤ sequence

/-- What the two allocations of an upsert answer. -/
structure UpsertMem where
  slot : Bool
  blocks : Bool
  deriving DecidableEq, Repr

namespace FolderState

def empty (shortId : Nat) : FolderState where
  files := []
  sequence := 0
  pruneGen := 0
  shortId := shortId
  nodup := List.nodup_nil
  nonneg := Int.le_refl 0
  seqOk := fun _ h => absurd h List.not_mem_nil

def find (fs : FolderState) (n : Name) : Option Slot := Keyed.lookup Slot.name n fs.files

/-- `foldstate_next_seq` without a record that uses it. -/
def nextSeq (fs : FolderState) : FolderState :=
  { fs with
    sequence := fs.sequence + 1
    nonneg := by have := fs.nonneg; omega
    seqOk := fun s hs => by have := fs.seqOk s hs; omega }

/-- The slot an upsert of `m` under the next sequence writes. The mark stays on a record
that is replaced. -/
def slotFor (fs : FolderState) (m : SyncMeta) (blocks : List Hash) (mem : UpsertMem) : Slot where
  record := { m with sequence := fs.sequence + 1 }
  blocks := if mem.blocks then blocks else []
  seen := ((fs.find m.name).map Slot.seen).getD false

theorem seqOk_upsert (fs : FolderState) (m : SyncMeta) (blocks : List Hash) (mem : UpsertMem) :
    ∀ s ∈ Keyed.upsert Slot.name (fs.slotFor m blocks mem) fs.files,
      1 ≤ s.record.sequence ∧ s.record.sequence ≤ fs.sequence + 1 := by
  intro s hs
  have hn := fs.nonneg
  rcases Keyed.eq_or_mem_of_mem_upsert hs with rfl | hs
  · simp only [slotFor]
    omega
  · have := fs.seqOk s hs
    omega

/-- `m.sequence = foldstate_next_seq(fs); foldstate_upsert(fs, &m, ...)`. Without memory for
a new slot only the sequence is used up. -/
def store (fs : FolderState) (m : SyncMeta) (blocks : List Hash) (mem : UpsertMem) : FolderState :=
  if (fs.find m.name).isNone && !mem.slot then fs.nextSeq
  else
    { fs with
      files := Keyed.upsert Slot.name (fs.slotFor m blocks mem) fs.files
      sequence := fs.sequence + 1
      nodup := Keyed.nodupKeys_upsert _ fs.nodup
      nonneg := by have := fs.nonneg; omega
      seqOk := fs.seqOk_upsert m blocks mem }

/-- The in-place update of `SYNC_ADOPT`: the block hashes stay. -/
def adopt (fs : FolderState) (n : Name) (peer : SyncMeta) : FolderState :=
  match fs.find n with
  | some s =>
    if s.record.deleted then fs
    else fs.store (adoptRecord s.record peer (fs.sequence + 1)) s.blocks ⟨true, true⟩
  | none => fs

/-- A table with some slots gone and the rest in another order. -/
def replaceFiles (fs : FolderState) (files : List Slot)
    (hn : Keyed.NodupKeys Slot.name files) (hsub : ∀ s ∈ files, s ∈ fs.files) : FolderState :=
  { fs with
    files := files
    pruneGen := fs.pruneGen + 1
    nodup := hn
    seqOk := fun s hs => fs.seqOk s (hsub s hs) }

theorem swapRemove_ok (fs : FolderState) {i : Nat} (h : i < fs.files.length) :
    Keyed.NodupKeys Slot.name (Keyed.swapRemove i fs.files) ∧
      ∀ s ∈ Keyed.swapRemove i fs.files, s ∈ fs.files :=
  ⟨Keyed.nodupKeys_of_perm_sublist fs.nodup (Keyed.swapRemove_perm h) (List.eraseIdx_sublist ..),
    fun _ hs => List.mem_of_mem_eraseIdx ((Keyed.swapRemove_perm h).mem_iff.mp hs)⟩

/-- `foldstate_forget`: the last record moves into the hole. -/
def forget (fs : FolderState) (n : Name) : FolderState :=
  if h : fs.files.findIdx (fun s => s.name = n) < fs.files.length then
    fs.replaceFiles _ (fs.swapRemove_ok h).1 (fs.swapRemove_ok h).2
  else fs

theorem sweep_ok (fs : FolderState) (p : Slot → Bool) :
    Keyed.NodupKeys Slot.name (Keyed.sweep p fs.files) ∧
      ∀ s ∈ Keyed.sweep p fs.files, s ∈ fs.files :=
  ⟨Keyed.nodupKeys_of_perm_sublist fs.nodup (Keyed.sweep_perm p fs.files) List.filter_sublist,
    fun _ hs => List.mem_of_mem_filter ((Keyed.sweep_perm p fs.files).mem_iff.mp hs)⟩

/-- The compacting loop of the two bulk removals. -/
def removeAll (fs : FolderState) (p : Slot → Bool) : FolderState :=
  if fs.files.any p then fs.replaceFiles _ (fs.sweep_ok p).1 (fs.sweep_ok p).2 else fs

def forgetUnseen (fs : FolderState) (before : Int) : FolderState :=
  fs.removeAll fun s =>
    !(s.record.deleted || s.record.invalid || s.seen || decide (s.record.sequence > before))

def pruneTombstones (fs : FolderState) (cutoff : Int) : FolderState :=
  fs.removeAll fun s => s.record.deleted && decide (s.record.modifiedS < cutoff)

theorem map_seen_ok (fs : FolderState) (f : Slot → Bool) :
    Keyed.NodupKeys Slot.name (fs.files.map fun s => { s with seen := f s }) ∧
      ∀ s ∈ fs.files.map (fun s => { s with seen := f s }), 1 ≤ s.record.sequence ∧
        s.record.sequence ≤ fs.sequence := by
  constructor
  · have h : (fs.files.map fun s => { s with seen := f s }).map Slot.name =
        fs.files.map Slot.name := by
      rw [List.map_map]
      rfl
    unfold Keyed.NodupKeys
    rw [h]
    exact fs.nodup
  · intro s hs
    obtain ⟨t, ht, rfl⟩ := List.mem_map.mp hs
    exact fs.seqOk t ht

/-- Set the scanner's mark of every slot. -/
def setSeen (fs : FolderState) (f : Slot → Bool) : FolderState :=
  { fs with
    files := fs.files.map fun s => { s with seen := f s }
    nodup := (fs.map_seen_ok f).1
    seqOk := (fs.map_seen_ok f).2 }

def clearSeen (fs : FolderState) : FolderState := fs.setSeen fun _ => false

def markSeen (fs : FolderState) (n : Name) : FolderState :=
  fs.setSeen fun s => s.seen || decide (s.name = n)

/-! ## Lookups -/

section Find
variable (fs : FolderState) {n : Name}

theorem mem_of_find {s : Slot} (h : fs.find n = some s) : s ∈ fs.files ∧ s.name = n :=
  ⟨Keyed.mem_of_lookup h, Keyed.key_of_lookup h⟩

theorem find_of_mem {s : Slot} (h : s ∈ fs.files) : fs.find s.name = some s :=
  Keyed.lookup_of_mem fs.nodup h

theorem find_store_of_ne {m : SyncMeta} (h : n ≠ m.name) (blocks : List Hash) (mem : UpsertMem) :
    (fs.store m blocks mem).find n = fs.find n := by
  unfold store
  split
  · rfl
  · exact (Keyed.lookup_upsert n _ fs.files).trans (if_neg h)

/-- Where there is room for the record, it is what is found. -/
theorem find_store_of_room {m : SyncMeta} (mem : UpsertMem)
    (h : (fs.find m.name).isSome = true ∨ mem.slot = true) (blocks : List Hash) :
    (fs.store m blocks mem).find m.name = some (fs.slotFor m blocks mem) := by
  have hroom : ((fs.find m.name).isNone && !mem.slot) = false := by
    rcases h with h | h
    · rw [← Option.not_isSome, h]
      rfl
    · simp [h]
  rw [store, if_neg (by simp [hroom])]
  exact (Keyed.lookup_upsert m.name _ fs.files).trans (if_pos rfl)

/-- A record that is there is replaced. -/
theorem find_store_self {m : SyncMeta} {s : Slot} (h : fs.find m.name = some s) (blocks : List Hash)
    (mem : UpsertMem) : (fs.store m blocks mem).find m.name = some (fs.slotFor m blocks mem) :=
  fs.find_store_of_room mem (Or.inl (by rw [h]; rfl)) blocks

/-- What is found under a name after a store is what was stored. -/
theorem eq_slotFor_of_find {m : SyncMeta} {blocks : List Hash} {mem : UpsertMem} {t : Slot}
    (h : (fs.store m blocks mem).find m.name = some t) : t = fs.slotFor m blocks mem := by
  by_cases hroom : (fs.find m.name).isSome = true ∨ mem.slot = true
  · exact Option.some.inj (h.symm.trans (fs.find_store_of_room mem hroom blocks))
  · obtain ⟨hf, hslot⟩ := not_or.mp hroom
    rw [Option.not_isSome_iff_eq_none] at hf
    rw [store, if_pos (by simp [hf, hslot])] at h
    exact absurd (hf.symm.trans h) (by simp)

theorem adopt_of_live {s : Slot} (h : fs.find n = some s) (hlive : s.record.deleted = false)
    (peer : SyncMeta) : fs.adopt n peer =
      fs.store (adoptRecord s.record peer (fs.sequence + 1)) s.blocks ⟨true, true⟩ := by
  rw [adopt, h]
  exact if_neg (by simp [hlive])

theorem find_adopt_of_ne {m : Name} (h : n ≠ m) (peer : SyncMeta) :
    (fs.adopt m peer).find n = fs.find n := by
  rw [adopt]
  split
  · rename_i s hs
    split
    · rfl
    · exact fs.find_store_of_ne (m := adoptRecord s.record peer (fs.sequence + 1))
        (fun e => h (e.trans (fs.mem_of_find hs).2)) _ _
  · rfl

theorem find_adopt_self {s : Slot} (h : fs.find n = some s) (hlive : s.record.deleted = false)
    (peer : SyncMeta) : (fs.adopt n peer).find n =
      some (fs.slotFor (adoptRecord s.record peer (fs.sequence + 1)) s.blocks ⟨true, true⟩) := by
  obtain rfl : s.name = n := (fs.mem_of_find h).2
  rw [fs.adopt_of_live h hlive peer]
  exact fs.find_store_self (m := adoptRecord s.record peer (fs.sequence + 1)) h _ _

theorem find_setSeen (f : Slot → Bool) (n : Name) :
    (fs.setSeen f).find n = (fs.find n).map fun s => { s with seen := f s } := by
  unfold find Keyed.lookup setSeen
  rw [List.find?_map]
  rfl

theorem find_markSeen_of_ne {m : Name} (h : n ≠ m) : (fs.markSeen m).find n = fs.find n := by
  unfold markSeen
  rw [find_setSeen]
  cases hf : fs.find n with
  | none => rfl
  | some s =>
    have hs : s.name ≠ m := fun e => h ((mem_of_find fs hf).2.symm.trans e)
    simp [hs]

theorem find_markSeen_self {s : Slot} (h : fs.find n = some s) :
    (fs.markSeen n).find n = some { s with seen := true } := by
  have hs : s.name = n := (mem_of_find fs h).2
  unfold markSeen
  rw [find_setSeen, h]
  simp [hs]

end Find

/-! ## What a writer can change -/

/-- The same record with the same blocks; the scanner's mark may differ. -/
def SameSlot (s t : Slot) : Prop := s.record = t.record ∧ s.blocks = t.blocks

/-- The effect of any writer. A record is either as it was or has a sequence not used before,
and unless the prune generation moved, it is in the same slot. -/
structure WriterOk (fs fs' : FolderState) : Prop where
  seq : fs.sequence ≤ fs'.sequence
  gen : fs.pruneGen ≤ fs'.pruneGen
  shortId : fs'.shortId = fs.shortId
  slot : ∀ s ∈ fs'.files, fs.sequence < s.record.sequence ∨ ∃ t ∈ fs.files, SameSlot t s
  stay : fs'.pruneGen = fs.pruneGen → ∀ (i : Nat) s, fs'.files[i]? = some s →
    fs.sequence < s.record.sequence ∨ ∃ t, fs.files[i]? = some t ∧ SameSlot t s

theorem WriterOk.refl (fs : FolderState) : WriterOk fs fs where
  seq := Int.le_refl _
  gen := Nat.le_refl _
  shortId := rfl
  slot := fun s hs => Or.inr ⟨s, hs, rfl, rfl⟩
  stay := fun _ _ s hs => Or.inr ⟨s, hs, rfl, rfl⟩

theorem writerOk_nextSeq (fs : FolderState) : WriterOk fs fs.nextSeq where
  seq := by simp only [nextSeq]; omega
  gen := Nat.le_refl _
  shortId := rfl
  slot := fun s hs => Or.inr ⟨s, hs, rfl, rfl⟩
  stay := fun _ _ s hs => Or.inr ⟨s, hs, rfl, rfl⟩

theorem writerOk_store (fs : FolderState) (m : SyncMeta) (blocks : List Hash) (mem : UpsertMem) :
    WriterOk fs (fs.store m blocks mem) := by
  unfold store
  split
  · exact writerOk_nextSeq fs
  · have hnew : fs.sequence < (fs.slotFor m blocks mem).record.sequence := by
      simp only [slotFor]
      omega
    refine ⟨by dsimp only; omega, Nat.le_refl _, rfl, fun s hs => ?_, fun _ i s hs => ?_⟩
    · rcases Keyed.eq_or_mem_of_mem_upsert hs with rfl | hs
      · exact Or.inl hnew
      · exact Or.inr ⟨s, hs, rfl, rfl⟩
    · rcases Keyed.getElem?_upsert hs with rfl | hs
      · exact Or.inl hnew
      · exact Or.inr ⟨s, hs, rfl, rfl⟩

theorem writerOk_adopt (fs : FolderState) (n : Name) (peer : SyncMeta) :
    WriterOk fs (fs.adopt n peer) := by
  unfold adopt
  split
  · split
    · exact WriterOk.refl fs
    · exact writerOk_store fs _ _ _
  · exact WriterOk.refl fs

/-- A removal moves the generation on. -/
theorem writerOk_replaceFiles (fs : FolderState) {files : List Slot}
    (hn : Keyed.NodupKeys Slot.name files) (hsub : ∀ s ∈ files, s ∈ fs.files) :
    WriterOk fs (fs.replaceFiles files hn hsub) where
  seq := Int.le_refl _
  gen := Nat.le_succ _
  shortId := rfl
  slot := fun s hs => Or.inr ⟨s, hsub s hs, rfl, rfl⟩
  stay := fun he => absurd he (Nat.succ_ne_self _)

theorem writerOk_forget (fs : FolderState) (n : Name) : WriterOk fs (fs.forget n) := by
  unfold forget
  split
  · exact writerOk_replaceFiles fs _ _
  · exact WriterOk.refl fs

theorem writerOk_removeAll (fs : FolderState) (p : Slot → Bool) :
    WriterOk fs (fs.removeAll p) := by
  unfold removeAll
  split
  · exact writerOk_replaceFiles fs _ _
  · exact WriterOk.refl fs

theorem writerOk_setSeen (fs : FolderState) (f : Slot → Bool) : WriterOk fs (fs.setSeen f) where
  seq := Int.le_refl _
  gen := Nat.le_refl _
  shortId := rfl
  slot := by
    intro s hs
    obtain ⟨t, ht, rfl⟩ := List.mem_map.mp hs
    exact Or.inr ⟨t, ht, rfl, rfl⟩
  stay := by
    intro _ i s hs
    simp only [setSeen, List.getElem?_map, Option.map_eq_some_iff] at hs
    obtain ⟨t, ht, rfl⟩ := hs
    exact Or.inr ⟨t, ht, rfl, rfl⟩

/-! ## The writers -/

/-- One write under the folder's lock. -/
inductive Writer where
  | store (m : SyncMeta) (blocks : List Hash) (mem : UpsertMem)
  | adopt (n : Name) (peer : SyncMeta)
  | forget (n : Name)
  | forgetUnseen (before : Int)
  | pruneTombstones (cutoff : Int)
  | clearSeen
  | markSeen (n : Name)

def write (fs : FolderState) : Writer → FolderState
  | .store m blocks mem => fs.store m blocks mem
  | .adopt n peer => fs.adopt n peer
  | .forget n => fs.forget n
  | .forgetUnseen before => fs.forgetUnseen before
  | .pruneTombstones cutoff => fs.pruneTombstones cutoff
  | .clearSeen => fs.clearSeen
  | .markSeen n => fs.markSeen n

/-- **Writer lemma.** -/
theorem writerOk_write (fs : FolderState) (w : Writer) : WriterOk fs (fs.write w) := by
  cases w with
  | store m blocks mem => exact writerOk_store fs m blocks mem
  | adopt n peer => exact writerOk_adopt fs n peer
  | forget n => exact writerOk_forget fs n
  | forgetUnseen before => exact writerOk_removeAll fs _
  | pruneTombstones cutoff => exact writerOk_removeAll fs _
  | clearSeen => exact writerOk_setSeen fs _
  | markSeen n => exact writerOk_setSeen fs _

end FolderState

end Amisync

import Amisync.IndexStore
import Mathlib.Algebra.Order.BigOperators.Group.List

/-!
# Room for the saved index (`index_store.c`)

The estimate the save buffer is sized by, and what the encoder then returns.

* `indexStoreSize`: the estimate; `indexStoreEncodeInt`: the `int` the caller sees.
* `encodedSize`: how many bytes the fields of an index take, `length_indexBytes`.
* `encodedSize_le`: the estimate covers them.
* `indexStore_saves_iff`: when the encoder returns the length of what it wrote.
-/

namespace Amisync

open Pbuf

def idxRecBudget : Nat := 128
def idxLenFrame : Nat := 5

namespace FolderTable

/-! ## The estimate -/

def recordEstimate (t : FolderTable) (i : Nat) : Nat :=
  idxRecBudget + (idxLenFrame + (t.nameAt i).bytes.length) +
    (idxLenFrame + t.nblocks i * bepHashLen) + (idxLenFrame + (t.files i).nver * 24)

/-- The sum before it is cut to a `size_t`. -/
def estimate (t : FolderTable) : Nat := 96 + ((List.range t.numFiles).map t.recordEstimate).sum

/-- A `size_t` has `bits` bits. -/
def indexStoreSize (bits : Nat) (t : FolderTable) : Nat := t.estimate % 2 ^ bits

/-- `w.error ? 0 : (int)w.len` -/
def indexStoreEncodeInt (t : FolderTable) (cap : UInt64) : Int32 :=
  match t.indexStoreEncode cap with
  | none => 0
  | some b => Int32.ofNat b.length

/-! ## The size of the fields -/

end FolderTable

/-- The tag of a field and a number. -/
def numSize (f : UInt32) (v : UInt64) : Nat := Varint.size (f.toNat * 8) + Varint.size v.toNat

/-- The tag of a field, a length and that many bytes. -/
def dataSize (f : UInt32) (n : Nat) : Nat := Varint.size (f.toNat * 8 + 2) + Varint.size n + n

def counterSize (c : Counter) : Nat := dataSize 1 (numSize 1 c.id + numSize 2 c.value)

def vectorSize (v : Counters) : Nat := (v.list.map counterSize).sum

def recordSize (m : FileMeta) (hashes : Option (List Hash)) : Nat :=
  dataSize fName m.name.bytes.length + numSize fType m.type.toUInt64 +
    numSize fSize m.size.toUInt64 + numSize fModifiedS m.modifiedS.toUInt64 +
    numSize fModifiedNs m.modifiedNs.toInt64.toUInt64 +
    numSize fDeleted (if m.deleted ≠ 0 then 1 else 0) +
    (if m.hasContentHash ≠ 0 then dataSize fContentHash bepHashLen else 0) +
    dataSize fVersion (vectorSize m.version) + numSize fSequence m.sequence.toUInt64 +
    (hashes.elim 0 fun l => dataSize fBlockHashes (l.length * bepHashLen)) +
    numSize fPermissions m.permissions.toUInt64 + numSize fBlockSize m.blockSize.toInt64.toUInt64 +
    numSize fInvalid (if m.invalid ≠ 0 then 1 else 0) +
    (if m.modifiedBy ≠ 0 then numSize fModifiedBy m.modifiedBy else 0)

def headerSize (t : FolderTable) : Nat :=
  numSize fMagic idxMagic + numSize fFormat idxFormat + dataSize fFolderId t.folderId.bytes.length +
    numSize fShortId t.shortId + numSize fHighSeq t.sequence.toUInt64

def FolderTable.encodedSize (t : FolderTable) : Nat :=
  headerSize t + ((List.range t.numFiles).map fun i => recordSize (t.metaAt i) (t.blocksAt i)).sum +
    numSize fEnd (UInt64.ofNat t.numFiles)

/-! ## What is written has this size -/

theorem length_num_bytes (f : UInt32) (v : UInt64) : (Field.num f v).bytes.length = numSize f v := by
  rw [Field.bytes, Field.payload, List.length_append, Field.number, Field.wiretype,
    Varint.length_put, Varint.length_put, toNat_tagOf f (by decide), numSize]
  rfl

theorem length_data_bytes (f : UInt32) {b : Bytes} (hb : b.length < 2 ^ 64) :
    (Field.data f b).bytes.length = dataSize f b.length := by
  rw [Field.bytes, Field.payload, List.length_append, List.length_append, Field.number,
    Field.wiretype, Varint.length_put, Varint.length_put, toNat_tagOf f (by decide),
    UInt64.toNat_ofNat', Nat.mod_eq_of_lt hb, dataSize, Nat.add_assoc]
  rfl

theorem length_counter_bytes (c : Counter) :
    (Field.data 1 ((counterFields c).flatMap Field.bytes)).bytes.length = counterSize c := by
  have hlen := length_counterFields c
  rw [length_data_bytes 1 (by omega), counterFields, counterSize]
  simp only [List.flatMap_cons, List.flatMap_nil, List.append_nil, List.length_append,
    length_num_bytes]

theorem length_vector_bytes (v : Counters) :
    ((vectorFields v).flatMap Field.bytes).length = vectorSize v := by
  rw [vectorFields, vectorSize]
  induction v.list with
  | nil => rfl
  | cons c l ih =>
    rw [List.map_cons, List.flatMap_cons, List.length_append, ih, length_counter_bytes,
      List.map_cons, List.sum_cons]

theorem length_optional_bytes {p : Prop} [Decidable p] (f : Field) :
    ((optional p f).flatMap Field.bytes).length = if p then f.bytes.length else 0 := by
  rw [optional]
  split
  · simp
  · rfl

theorem length_blocks_bytes {hashes : Option (List Hash)}
    (hb : ∀ l ∈ hashes, l.length ≤ folderMaxBlocks) :
    ((hashes.toList.map (fun l => Field.data fBlockHashes (l.flatMap Subtype.val))).flatMap
      Field.bytes).length = hashes.elim 0 fun l => dataSize fBlockHashes (l.length * bepHashLen) := by
  cases hashes with
  | none => rfl
  | some l =>
    have hl := hb l rfl
    unfold folderMaxBlocks at hl
    have hlen : (l.flatMap Subtype.val).length = l.length * bepHashLen := by
      rw [length_flatMap_hashes, Nat.mul_comm]
      rfl
    have hshort : (l.flatMap Subtype.val).length < 2 ^ 64 := by
      rw [hlen, bepHashLen]
      omega
    have hdata := length_data_bytes fBlockHashes hshort
    rw [hlen] at hdata
    rw [Option.toList_some, List.map_singleton, List.flatMap_singleton, hdata]
    rfl

theorem length_record_bytes (m : FileMeta) {hashes : Option (List Hash)}
    (hb : ∀ l ∈ hashes, l.length ≤ folderMaxBlocks) :
    ((recordFields m hashes).flatMap Field.bytes).length = recordSize m hashes := by
  have hname := m.name.short
  have hvec := length_vectorFields m.version
  have hver := m.version.bound
  have hhash : m.contentHash.1.length = bepHashLen := m.contentHash.2
  unfold bepMaxCounters at hver
  unfold bepPathMax at hname
  rw [recordFields, recordBody]
  simp only [List.flatMap_cons, List.flatMap_append, List.flatMap_nil, List.length_append,
    List.append_nil, length_num_bytes, length_optional_bytes, length_blocks_bytes hb]
  rw [length_data_bytes _ (by omega), length_data_bytes _ (by rw [hhash]; decide), hhash,
    length_data_bytes _ (by omega), length_vector_bytes, recordSize]
  omega

namespace FolderTable

variable {t : FolderTable}

/-- What the encoder relies on in a table of a folder. -/
structure Encodable (t : FolderTable) : Prop extends t.Shape where
  few : t.numFiles ≤ foldstateMaxFiles
  blocks : ∀ i < t.numFiles, t.nblocks i ≤ folderMaxBlocks
  versions : ∀ i < t.numFiles, (t.files i).nver ≤ bepMaxCounters

/-- The hashes that are written of a slot are those it counts. -/
theorem length_blocksAt (h : t.Encodable) {i : Nat} (hi : i < t.numFiles) {l : List Hash}
    (hl : t.blocksAt i = some l) : l.length = t.nblocks i := by
  rw [blocksAt] at hl
  split at hl
  · obtain rfl := Option.some.inj hl
    rw [List.length_take, ← h.counted i hi, Nat.min_self]
  · simp at hl

theorem length_indexBytes (h : t.Encodable) : t.indexBytes.length = t.encodedSize := by
  have hfolder := t.folderId.short
  have hrecords : ∀ l : List Nat, (∀ i ∈ l, i < t.numFiles) →
      ((l.flatMap t.slotFields).flatMap Field.bytes).length =
        (l.map fun i => recordSize (t.metaAt i) (t.blocksAt i)).sum := by
    intro l hl
    induction l with
    | nil => rfl
    | cons i l ih =>
      have hi : i < t.numFiles := hl i List.mem_cons_self
      have hblocks : ∀ b ∈ t.blocksAt i, b.length ≤ folderMaxBlocks := by
        intro b hb
        rw [length_blocksAt h hi hb]
        exact h.blocks i hi
      have hslot := length_record_bytes (t.metaAt i) hblocks
      rw [List.flatMap_cons, List.flatMap_append, List.length_append, slotFields, hslot,
        ih fun j hj => hl j (List.mem_cons_of_mem _ hj), List.map_cons, List.sum_cons]
  rw [indexBytes, indexFields]
  simp only [List.flatMap_append, List.flatMap_cons, List.flatMap_nil, List.length_append,
    List.append_nil, length_num_bytes]
  rw [hrecords _ fun i hi => List.mem_range.mp hi, length_data_bytes _ (by omega), encodedSize,
    headerSize]
  omega

end FolderTable

/-! ## Bounds on one field -/

section Bounds
variable {f : UInt32} {v : UInt64} {n k : Nat}

/-- The field numbers of the index take at most two bytes of tag. -/
theorem size_tag_le (hf : f < 2048) {wt : Nat} (hwt : wt < 8) : Varint.size (f.toNat * 8 + wt) ≤ 2 := by
  have hf' : f.toNat < 2048 := UInt32.lt_iff_toNat_lt.mp hf
  exact Varint.size_le (show _ < 16384 by omega) (by decide)

theorem numSize_le (hf : f < 2048) (hv : v.toNat < 128 ^ k) (hk : 1 ≤ k) : numSize f v ≤ 2 + k :=
  Nat.add_le_add (size_tag_le hf (Nat.zero_lt_succ 7)) (Varint.size_le hv hk)

theorem numSize_le_full (hf : f < 2048) : numSize f v ≤ 12 :=
  numSize_le (k := 10) hf (Nat.lt_trans v.toNat_lt (by decide)) (by decide)

theorem ite_le {p : Prop} [Decidable p] (h : n ≤ k) : (if p then n else 0) ≤ k := by
  split
  · exact h
  · exact Nat.zero_le k

/-- The numbers of the header have one byte of tag. -/
theorem numSize_le_header (hf : f < 16) (hv : v.toNat < 128 ^ k) (hk : 1 ≤ k) : numSize f v ≤ 1 + k := by
  have hf' : f.toNat < 16 := UInt32.lt_iff_toNat_lt.mp hf
  exact Nat.add_le_add (Varint.size_le (show _ < 128 ^ 1 by omega) (by decide)) (Varint.size_le hv hk)

theorem dataSize_le (hf : f < 2048) (hn : n < 128 ^ k) (hk : 1 ≤ k) : dataSize f n ≤ 2 + k + n :=
  Nat.add_le_add_right (Nat.add_le_add (size_tag_le hf (by decide)) (Varint.size_le hn hk)) n

theorem le_dataSize (f : UInt32) (n : Nat) : n ≤ dataSize f n := Nat.le_add_left n _

theorem numSize_flag_le (hf : f < 2048) {b : UInt8} : numSize f (if b ≠ 0 then 1 else 0) ≤ 3 := by
  refine numSize_le hf (k := 1) ?_ (by decide)
  split <;> decide

end Bounds

/-! ## Bounds on a record -/

theorem vectorSize_le (v : Counters) : vectorSize v ≤ v.list.length * 24 := by
  rw [← length_vector_bytes]
  exact length_vectorFields v

/-- What a record takes, field by field; six of the budget are never used. -/
theorem recordSize_le (m : FileMeta) {hashes : Option (List Hash)} {n : Nat}
    (hb : ∀ l ∈ hashes, l.length = n) (hn : n ≤ folderMaxBlocks) :
    recordSize m hashes + 6 ≤ idxRecBudget + (idxLenFrame + m.name.bytes.length) +
      (idxLenFrame + n * bepHashLen) + (idxLenFrame + m.version.list.length * 24) := by
  have hname := m.name.short
  have hver := m.version.bound
  have hvec := vectorSize_le m.version
  unfold bepPathMax at hname
  unfold bepMaxCounters at hver
  unfold folderMaxBlocks at hn
  have h1 := dataSize_le (f := fName) (n := m.name.bytes.length) (k := 2) (by decide) (by omega) (by decide)
  have h2 := numSize_le (f := fType) (v := m.type.toUInt64) (k := 2) (by decide)
    (by have := m.type.toNat_lt; rw [UInt8.toNat_toUInt64]; omega) (by decide)
  have h3 := @numSize_le_full fSize m.size.toUInt64 (by decide)
  have h4 := @numSize_le_full fModifiedS m.modifiedS.toUInt64 (by decide)
  have h5 := @numSize_le_full fModifiedNs m.modifiedNs.toInt64.toUInt64 (by decide)
  have h6 := @numSize_flag_le fDeleted (by decide) m.deleted
  have h7 : (if m.hasContentHash ≠ 0 then dataSize fContentHash bepHashLen else 0) ≤ 35 :=
    ite_le (dataSize_le (k := 1) (by decide) (by decide) (by decide))
  have h8 := dataSize_le (f := fVersion) (n := vectorSize m.version) (k := 2) (by decide) (by omega)
    (by decide)
  have h9 := @numSize_le_full fSequence m.sequence.toUInt64 (by decide)
  have h10 := numSize_le (f := fPermissions) (v := m.permissions.toUInt64) (k := 5) (by decide)
    (by have := m.permissions.toNat_lt; rw [UInt32.toNat_toUInt64]; omega) (by decide)
  have h11 := @numSize_le_full fBlockSize m.blockSize.toInt64.toUInt64 (by decide)
  have h12 := @numSize_flag_le fInvalid (by decide) m.invalid
  have h13 : (if m.modifiedBy ≠ 0 then numSize fModifiedBy m.modifiedBy else 0) ≤ 12 :=
    ite_le (numSize_le_full (by decide))
  have hblocks : (hashes.elim 0 fun l => dataSize fBlockHashes (l.length * bepHashLen)) ≤
      5 + n * bepHashLen := by
    cases hashes with
    | none => exact Nat.zero_le _
    | some l =>
      have hl : l.length = n := hb l rfl
      rw [Option.elim_some, hl]
      exact dataSize_le (k := 3) (by decide) (by unfold bepHashLen; omega) (by decide)
  rw [recordSize, idxRecBudget, idxLenFrame]
  omega

/-- A record takes at least its name and its hashes. -/
theorem le_recordSize (m : FileMeta) (hashes : Option (List Hash)) :
    m.name.bytes.length + (hashes.elim 0 fun l => l.length * bepHashLen) ≤ recordSize m hashes := by
  have hname := le_dataSize fName m.name.bytes.length
  have hblocks : (hashes.elim 0 fun l => l.length * bepHashLen) ≤
      hashes.elim 0 fun l => dataSize fBlockHashes (l.length * bepHashLen) := by
    cases hashes with
    | none => exact Nat.le_refl _
    | some l => exact le_dataSize _ _
  rw [recordSize]
  omega

/-- Sums whose terms differ by a fixed amount at least. -/
theorem sum_map_add_le {f g : Nat → Nat} {k : Nat} {l : List Nat} (h : ∀ i ∈ l, f i + k ≤ g i) :
    (l.map f).sum + l.length * k ≤ (l.map g).sum := by
  induction l with
  | nil => simp
  | cons i l ih =>
    have hi := h i List.mem_cons_self
    have hl := ih fun j hj => h j (List.mem_cons_of_mem _ hj)
    rw [List.map_cons, List.map_cons, List.sum_cons, List.sum_cons, List.length_cons, Nat.succ_mul]
    omega

namespace FolderTable

section Estimate
variable {t : FolderTable}

theorem length_version_le (t : FolderTable) (i : Nat) :
    (t.metaAt i).version.list.length ≤ (t.files i).nver := by
  show (t.files i).getVersion.list.length ≤ _
  rw [FolderRec.getVersion, List.length_take, List.length_take]
  omega

theorem record_le_estimate (h : t.Encodable) {i : Nat} (hi : i < t.numFiles) :
    recordSize (t.metaAt i) (t.blocksAt i) + 6 ≤ t.recordEstimate i := by
  have hsize := recordSize_le (t.metaAt i) (fun l hl => length_blocksAt h hi hl) (h.blocks i hi)
  have hver := length_version_le t i
  rw [recordEstimate]
  exact Nat.le_trans hsize (Nat.add_le_add_left (Nat.add_le_add_left (Nat.mul_le_mul_right 24 hver) _) _)

/-- The estimate of a record is not far off. -/
theorem estimate_le_record (h : t.Encodable) {i : Nat} (hi : i < t.numFiles) :
    t.recordEstimate i ≤ recordSize (t.metaAt i) (t.blocksAt i) + 527 := by
  have hle := le_recordSize (t.metaAt i) (t.blocksAt i)
  have hver := h.versions i hi
  have hblocks : t.nblocks i * bepHashLen ≤ (t.blocksAt i).elim 0 fun l => l.length * bepHashLen := by
    cases hb : t.blocksAt i with
    | some l =>
      rw [Option.elim_some, length_blocksAt h hi hb]
    | none =>
      -- no hashes are kept, or none are counted
      have hzero : t.nblocks i = 0 := by
        rw [blocksAt] at hb
        by_contra hne
        have hsome : (t.blocks i).isSome := by
          rw [h.counted i hi] at hne
          cases hbi : t.blocks i with
          | none => simp [hbi] at hne
          | some l => rfl
        rw [if_pos ⟨hsome, Nat.pos_of_ne_zero hne⟩] at hb
        simp at hb
      rw [hzero, Nat.zero_mul]
      exact Nat.zero_le _
  unfold bepMaxCounters at hver
  rw [recordEstimate, idxRecBudget, idxLenFrame]
  have hname : (t.metaAt i).name = t.nameAt i := rfl
  rw [hname] at hle
  omega

theorem headerSize_le (hseq : 0 ≤ t.sequence) : headerSize t ≤ 94 := by
  have hfolder := t.folderId.short
  have hseq' : t.sequence.toUInt64.toNat < 2 ^ 63 := by
    rw [Int64.toNat_toUInt64_of_le hseq]
    exact t.sequence.toNatClampNeg_lt
  have h1 := @numSize_le_header fMagic idxMagic 5 (by decide) (by decide) (by decide)
  have h2 := @numSize_le_header fFormat idxFormat 1 (by decide) (by decide) (by decide)
  have h3 : dataSize fFolderId t.folderId.bytes.length ≤ 1 + 1 + t.folderId.bytes.length :=
    Nat.add_le_add_right (Nat.add_le_add (Varint.size_le (k := 1) (by decide) (by decide))
      (Varint.size_le (show _ < 128 ^ 1 by omega) (by decide))) _
  have h4 := @numSize_le_header fShortId t.shortId 10 (by decide)
    (Nat.lt_trans t.shortId.toNat_lt (by decide)) (by decide)
  have h5 := @numSize_le_header fHighSeq t.sequence.toUInt64 9 (by decide)
    (Nat.lt_of_lt_of_le hseq' (by decide)) (by decide)
  rw [headerSize]
  omega

/-- **Estimate.** It covers the index. -/
theorem encodedSize_le (h : t.Encodable) (hseq : 0 ≤ t.sequence) : t.encodedSize ≤ t.estimate := by
  have hheader := headerSize_le hseq
  have hrecords : ((List.range t.numFiles).map fun i => recordSize (t.metaAt i) (t.blocksAt i)).sum +
      (List.range t.numFiles).length * 6 ≤ ((List.range t.numFiles).map t.recordEstimate).sum :=
    sum_map_add_le fun i hi => record_le_estimate h (List.mem_range.mp hi)
  have hfew := h.few
  rw [List.length_range] at hrecords
  unfold foldstateMaxFiles at hfew
  have hnum : (UInt64.ofNat t.numFiles).toNat = t.numFiles := by
    rw [UInt64.toNat_ofNat', Nat.mod_eq_of_lt (by omega)]
  have hend : numSize fEnd (UInt64.ofNat t.numFiles) ≤ 2 + t.numFiles * 6 := by
    rcases Nat.eq_zero_or_pos t.numFiles with hz | hpos
    · rw [hz]
      decide
    · have := @numSize_le_header fEnd (UInt64.ofNat t.numFiles) 3 (by decide)
        (by rw [hnum]; omega) (by decide)
      omega
  rw [encodedSize, estimate]
  omega

theorem estimate_le (h : t.Encodable) : t.estimate ≤ t.encodedSize + 96 + t.numFiles * 527 := by
  have hrecords : ∀ l : List Nat, (∀ i ∈ l, i < t.numFiles) → (l.map t.recordEstimate).sum ≤
      (l.map fun i => recordSize (t.metaAt i) (t.blocksAt i)).sum + l.length * 527 := by
    intro l hl
    induction l with
    | nil => simp
    | cons i l ih =>
      have hi := estimate_le_record h (hl i List.mem_cons_self)
      have := ih fun j hj => hl j (List.mem_cons_of_mem _ hj)
      rw [List.map_cons, List.map_cons, List.sum_cons, List.sum_cons, List.length_cons, Nat.succ_mul]
      omega
  have hsum := hrecords (List.range t.numFiles) fun i hi => List.mem_range.mp hi
  rw [List.length_range] at hsum
  rw [estimate, encodedSize]
  omega

end Estimate

/-! ## What the encoder returns -/

/-- It returns the length of what it wrote. -/
def Saves (t : FolderTable) (bits : Nat) : Prop :=
  ∃ b, t.indexStoreEncode (UInt64.ofNat (t.indexStoreSize bits)) = some b ∧
    (t.indexStoreEncodeInt (UInt64.ofNat (t.indexStoreSize bits))).toInt = b.length ∧ 0 < b.length

theorem toInt_ofNat_eq_iff (n : Nat) : (Int32.ofNat n).toInt = n ↔ n < 2 ^ 31 := by
  constructor
  · intro h
    have := (Int32.ofNat n).toInt_lt
    omega
  · intro h
    exact Int32.toInt_ofNat_of_lt h

theorem indexBytes_ne_nil (t : FolderTable) : t.indexBytes ≠ [] := by
  rw [indexBytes, List.flatMap_append]
  intro h
  have := (List.append_eq_nil_iff.mp h).2
  rw [List.flatMap_singleton] at this
  exact Field.bytes_ne_nil _ this

/-- **Saving.** The buffer is large enough and the length fits the `int` it is returned in exactly
when the fields of the index add up to less than 2 GiB. -/
theorem indexStore_saves_iff {t : FolderTable} {bits : Nat} (hlo : 32 ≤ bits) (hhi : bits ≤ 64)
    (h : t.Encodable) (hseq : 0 ≤ t.sequence) : t.Saves bits ↔ t.encodedSize < 2 ^ 31 := by
  have hlen := length_indexBytes h
  constructor
  · rintro ⟨b, hb, hint, -⟩
    obtain ⟨rfl, -⟩ := Writer.returned_eq (indexStoreEncode_eq t _) hb
    rw [indexStoreEncodeInt, hb] at hint
    rw [← hlen]
    exact (toInt_ofNat_eq_iff _).mp hint
  · intro hsmall
    have hcover := encodedSize_le h hseq
    have hclose := estimate_le h
    have hfew := h.few
    unfold foldstateMaxFiles at hfew
    -- below 2 GiB the estimate is nowhere near the end of a 32-bit size
    have hpow : 2 ^ 32 ≤ 2 ^ bits := Nat.pow_le_pow_right (by decide) hlo
    have hpow' : 2 ^ bits ≤ 2 ^ 64 := Nat.pow_le_pow_right (by decide) hhi
    have hsize : t.indexStoreSize bits = t.estimate := Nat.mod_eq_of_lt (by omega)
    have hcap : (UInt64.ofNat (t.indexStoreSize bits)).toNat = t.estimate := by
      rw [hsize, UInt64.toNat_ofNat', Nat.mod_eq_of_lt (by omega)]
    have henc : t.indexStoreEncode (UInt64.ofNat (t.indexStoreSize bits)) = some t.indexBytes := by
      rw [indexStoreEncode_eq, hcap, hlen, if_pos hcover]
    refine ⟨t.indexBytes, henc, ?_, List.length_pos_of_ne_nil (indexBytes_ne_nil t)⟩
    rw [indexStoreEncodeInt, henc]
    exact (toInt_ofNat_eq_iff _).mpr (hlen ▸ hsmall)

/-- A fresh table is saved, end marker and all. -/
theorem indexStore_saves_empty : (init (.empty _) 7 sampleArrays).Saves 32 :=
  (indexStore_saves_iff (by decide) (by decide)
    { (ok_init (.empty _) 7 sampleArrays).toShape with
      few := Nat.zero_le _
      blocks := fun i hi => absurd hi (Nat.not_lt_zero i)
      versions := fun i hi => absurd hi (Nat.not_lt_zero i) }
    (by decide)).mpr (by decide)

/-! ## A folder of large files -/

def letter (i : Nat) : UInt8 := UInt8.ofNat (97 + i % 26)

theorem letter_inj {i j : Nat} (h : letter i = letter j) : i % 26 = j % 26 := by
  have hn := congrArg UInt8.toNat h
  rw [letter, letter, UInt8.toNat_ofNat', UInt8.toNat_ofNat'] at hn
  omega

/-- Four letters, a different name for each number below 26⁴. -/
def largeName (i : Nat) : FileName where
  bytes := [letter (i / 17576), letter (i / 676), letter (i / 26), letter i]
  short := by simp [bepPathMax]
  nonul := by
    have hne : ∀ k, (0 : UInt8) ≠ letter k := by
      intro k h
      have hn := congrArg UInt8.toNat h
      rw [letter, UInt8.toNat_ofNat', UInt8.toNat_zero] at hn
      omega
    simp [hne]

theorem largeName_inj {i j : Nat} (hi : i < 456976) (hj : j < 456976) (h : largeName i = largeName j) :
    i = j := by
  have hb := congrArg CString.bytes h
  simp only [largeName, List.cons.injEq, and_true] at hb
  have h1 := letter_inj hb.1
  have h2 := letter_inj hb.2.1
  have h3 := letter_inj hb.2.2.1
  have h4 := letter_inj hb.2.2.2
  omega

/-- The records of `n` files of as many blocks as a file may have. -/
def largeRecords (n : Nat) : FolderTable :=
  { init (.empty _) 7 sampleArrays with
    names := fun i => some (largeName i)
    blocks := fun _ => some (List.replicate folderMaxBlocks zeroHash)
    nblocks := fun _ => folderMaxBlocks
    numFiles := n
    cap := n }

def largeFolder (n : Nat) : FolderTable := (largeRecords n).hashRebuild

theorem shape_largeRecords {n : Nat} (hn : n ≤ foldstateMaxFiles) : (largeRecords n).Shape where
  fits := Nat.le_refl n
  named := fun _ _ => rfl
  distinct := by
    intro i hi j hj h
    have hi' : i < n := hi
    have hj' : j < n := hj
    unfold foldstateMaxFiles at hn
    exact largeName_inj (by omega) (by omega) (Option.some.inj h)
  counted := fun i _ => List.length_replicate.symm

theorem largeFolder_eq (n : Nat) :
    ∃ hhead hnext, largeFolder n = { largeRecords n with hhead := hhead, hnext := hnext } :=
  hashRebuild_eq (largeRecords n)

theorem encodable_largeFolder {n : Nat} (hn : n ≤ foldstateMaxFiles) : (largeFolder n).Encodable := by
  have hshape := (shape_largeRecords hn).rebuild.toShape
  obtain ⟨hhead, hnext, heq⟩ := largeFolder_eq n
  refine { hshape with few := ?_, blocks := ?_, versions := ?_ }
  · show (largeFolder n).numFiles ≤ _
    rw [heq]
    exact hn
  · intro i hi
    show (largeFolder n).nblocks i ≤ _
    rw [heq]
    exact Nat.le_refl _
  · intro i hi
    show ((largeFolder n).files i).nver ≤ _
    rw [heq]
    exact Nat.zero_le _

theorem le_encodedSize_largeFolder (n : Nat) : n * 65536 ≤ (largeFolder n).encodedSize := by
  obtain ⟨hhead, hnext, heq⟩ := largeFolder_eq n
  have hrecord : ∀ i, 65536 ≤ recordSize ((largeFolder n).metaAt i) ((largeFolder n).blocksAt i) := by
    intro i
    have hsome : (largeFolder n).blocks i = some (List.replicate folderMaxBlocks zeroHash) := by
      rw [heq]
      rfl
    have hcount : (largeFolder n).nblocks i = folderMaxBlocks := by
      rw [heq]
      rfl
    have hblocks : (largeFolder n).blocksAt i = some (List.replicate folderMaxBlocks zeroHash) := by
      rw [blocksAt, hsome, hcount, if_pos ⟨rfl, by decide⟩, Option.getD_some,
        List.take_of_length_le (Nat.le_of_eq List.length_replicate)]
    have hle := le_recordSize ((largeFolder n).metaAt i) ((largeFolder n).blocksAt i)
    rw [hblocks, Option.elim_some, List.length_replicate] at hle
    rw [hblocks]
    exact Nat.le_trans (Nat.le_add_left _ _) hle
  have hnum : (largeFolder n).numFiles = n := by
    rw [heq]
    rfl
  have hsum : (((List.range n).map fun _ => 0)).sum + (List.range n).length * 65536 ≤
      ((List.range n).map fun i =>
        recordSize ((largeFolder n).metaAt i) ((largeFolder n).blocksAt i)).sum :=
    sum_map_add_le fun i _ => by
      rw [Nat.zero_add]
      exact hrecord i
  rw [List.length_range] at hsum
  rw [encodedSize, hnum]
  omega

/-- 40000 files of 2048 blocks each. -/
theorem largeFolder_not_saved : ¬ ∀ t : FolderTable, t.Ok → t.Encodable → 0 ≤ t.sequence → t.Saves 32 := by
  intro h
  have hn : 40000 ≤ foldstateMaxFiles := by decide
  have hseq : 0 ≤ (largeFolder 40000).sequence := by
    obtain ⟨hhead, hnext, heq⟩ := largeFolder_eq 40000
    rw [heq]
    exact Int64.le_refl 0
  obtain ⟨b, hb, hint, -⟩ :=
    h (largeFolder 40000) (shape_largeRecords hn).rebuild (encodable_largeFolder hn) hseq
  obtain ⟨rfl, -⟩ := Writer.returned_eq (indexStoreEncode_eq _ _) hb
  rw [indexStoreEncodeInt, hb] at hint
  have hsmall := (toInt_ofNat_eq_iff _).mp hint
  rw [length_indexBytes (encodable_largeFolder hn)] at hsmall
  have hlarge := le_encodedSize_largeFolder 40000
  omega

end FolderTable

end Amisync

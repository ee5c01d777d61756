import Amisync.FoldMap
import Amisync.Pbuf

/-!
# The index on disk (`index_store.c`)

A folder's index as one stream of fields: a header, the fields of each record
from its name on, and the number of records at the end.

* `indexStoreEncode`, `indexStoreDecode`: the two directions.
* `indexStoreEncode_eq`: what is written, as a list of fields.
-/

namespace Amisync

open Pbuf Keyed

def idxMagic : UInt64 := 0x414D5358
def idxFormat : UInt64 := 2

/-! ## Field numbers -/

def fMagic : UInt32 := 1
def fFormat : UInt32 := 2
def fFolderId : UInt32 := 3
def fShortId : UInt32 := 4
def fHighSeq : UInt32 := 5
def fEnd : UInt32 := 6
def fName : UInt32 := 20
def fType : UInt32 := 21
def fSize : UInt32 := 22
def fModifiedS : UInt32 := 23
def fModifiedNs : UInt32 := 24
def fDeleted : UInt32 := 25
def fContentHash : UInt32 := 26
def fVersion : UInt32 := 27
def fSequence : UInt32 := 28
def fBlockHashes : UInt32 := 29
def fPermissions : UInt32 := 30
def fBlockSize : UInt32 := 31
def fInvalid : UInt32 := 32
def fModifiedBy : UInt32 := 33

/-! ## Encoding -/

def encodeCounter (c : Counter) : Writer :=
  ((Writer.init 32).writeUint64 1 c.id).writeUint64 2 c.value

def encodeVector (w : Writer) (v : Counters) : Writer :=
  w.writeMessage fVersion
    (v.list.foldl (fun vw c => vw.writeMessage 1 (encodeCounter c))
      (Writer.init (bepMaxCounters * 24 + 16)))

namespace FolderTable

def encodeRecord (t : FolderTable) (w : Writer) (i : Nat) : Writer :=
  let m := t.files i
  let w := w.writeBytes fName (t.nameAt i).bytes
  let w := w.writeUint64 fType m.type.toUInt64
  let w := w.writeUint64 fSize m.size.toUInt64
  let w := w.writeInt64 fModifiedS m.modifiedS
  let w := w.writeInt64 fModifiedNs m.modifiedNs.toInt64
  let w := w.writeBool fDeleted m.deleted
  let w := if m.hasContentHash ≠ 0 then w.writeBytes fContentHash m.contentHash.1 else w
  let w := encodeVector w m.getVersion
  let w := w.writeInt64 fSequence m.sequence
  let w := if (t.blocks i).isSome ∧ 0 < t.nblocks i then
      w.writeBytes fBlockHashes ((((t.blocks i).getD []).take (t.nblocks i)).flatMap Subtype.val)
    else w
  let w := w.writeUint64 fPermissions m.permissions.toUInt64
  let w := w.writeInt64 fBlockSize m.blockSize.toInt64
  let w := w.writeBool fInvalid m.invalid
  if m.modifiedBy ≠ 0 then w.writeUint64 fModifiedBy m.modifiedBy else w

/-- `none` where the buffer is too small; `cap` is a `size_t`. -/
def indexStoreEncode (t : FolderTable) (cap : UInt64) : Option Bytes :=
  let w := Writer.init cap.toNat
  let w := w.writeUint64 fMagic idxMagic
  let w := w.writeUint64 fFormat idxFormat
  let w := w.writeBytes fFolderId t.folderId.bytes
  let w := w.writeUint64 fShortId t.shortId
  let w := w.writeUint64 fHighSeq t.sequence.toUInt64
  let w := (List.range t.numFiles).foldl t.encodeRecord w
  let w := w.writeUint64 fEnd (UInt64.ofNat t.numFiles)
  if w.error then none else some w.buf

def resetRecords (t : FolderTable) : FolderTable := { t.free with sequence := 0 }

end FolderTable

/-! ## Decoding -/

/-- Lenient: a malformed counter just stops early. -/
def decodeCounter (b : Bytes) : Counter :=
  (readFields (fun c _ _ => some c)
    (fun c f v =>
      match v with
      | .num v => if f = 1 then { c with id := v } else if f = 2 then { c with value := v } else c
      | _ => c)
    b.length ⟨0, 0⟩ b).1

def Counters.push (v : Counters) (c : Counter) : Counters :=
  if h : v.list.length < bepMaxCounters then
    ⟨v.list ++ [c], by rw [List.length_append, List.length_singleton]; omega⟩
  else v

def decodeVector (b : Bytes) : Counters :=
  (readFields (fun v _ _ => some v)
    (fun v f x =>
      match x with
      | .data b => if f = 1 then v.push (decodeCounter b) else v
      | _ => v)
    b.length Counters.empty b).1

/-- The wire type of a known field. -/
def expectedWt (field : UInt32) : Option UInt64 :=
  if field ∈ [fMagic, fFormat, fShortId, fHighSeq, fEnd, fType, fSize, fModifiedS, fModifiedNs,
      fDeleted, fSequence, fPermissions, fBlockSize, fInvalid, fModifiedBy] then some wtVarint
  else if field ∈ [fFolderId, fName, fContentHash, fVersion, fBlockHashes] then some wtLen
  else none

/-- The variables of the loop. `upserts` counts the records that were committed. -/
structure Decoder where
  table : FolderTable
  magic : UInt64
  format : UInt64
  shortId : UInt64
  highSeq : UInt64
  folder : CString 63
  headerOk : Bool
  count : Int64
  cur : FileMeta
  blocks : List Hash
  inRecord : Bool
  upserts : Nat

namespace Decoder

def init (t : FolderTable) : Decoder where
  table := t
  magic := 0
  format := 0
  shortId := 0
  highSeq := 0
  folder := .empty _
  headerOk := false
  count := -1
  cur := .zero
  blocks := []
  inRecord := false
  upserts := 0

def headerMatches (s : Decoder) : Bool :=
  s.magic == idxMagic && s.format == idxFormat && s.shortId == s.table.shortId &&
    decide (s.folder = s.table.folderId)

/-- The result of the upsert is dropped. -/
def commitRecord (mem : Nat → Alloc) (s : Decoder) : Decoder :=
  { s with
    table := (s.table.upsert s.cur s.blocks (mem s.upserts)).1
    upserts := s.upserts + 1 }

/-- The record that is being assembled, if there is one. -/
def finish (mem : Nat → Alloc) (s : Decoder) : Decoder :=
  if s.inRecord then s.commitRecord mem else s

/-- Before the value of a field is read. -/
def start (mem : Nat → Alloc) (s : Decoder) (field : UInt32) (wt : UInt64) : Option Decoder :=
  if (expectedWt field).any (· ≠ wt) then none
  else if field < fName then some s
  -- the first field of a record: the whole header is in
  else if !s.headerOk && !s.headerMatches then none
  else if field = fName then
    some { s.finish mem with headerOk := true, cur := .zero, blocks := [], inRecord := true }
  else some { s with headerOk := true }

def storeNum (s : Decoder) (field : UInt32) (v : UInt64) : Decoder :=
  if field = fMagic then { s with magic := v }
  else if field = fFormat then { s with format := v }
  else if field = fShortId then { s with shortId := v }
  else if field = fHighSeq then { s with highSeq := v }
  else if field = fEnd then { s with count := v.toInt64 }
  else if field = fType then { s with cur := { s.cur with type := v.toUInt8 } }
  else if field = fSize then { s with cur := { s.cur with size := v.toInt64 } }
  else if field = fModifiedS then { s with cur := { s.cur with modifiedS := v.toInt64 } }
  else if field = fModifiedNs then
    { s with cur := { s.cur with modifiedNs := v.toUInt32.toInt32 } }
  else if field = fDeleted then { s with cur := { s.cur with deleted := v.toUInt8 } }
  else if field = fSequence then { s with cur := { s.cur with sequence := v.toInt64 } }
  else if field = fPermissions then { s with cur := { s.cur with permissions := v.toUInt32 } }
  else if field = fBlockSize then
    { s with cur := { s.cur with blockSize := v.toUInt32.toInt32 } }
  else if field = fInvalid then { s with cur := { s.cur with invalid := v.toUInt8 } }
  else if field = fModifiedBy then { s with cur := { s.cur with modifiedBy := v } }
  else s

def storeData (s : Decoder) (field : UInt32) (b : Bytes) : Decoder :=
  if field = fFolderId then { s with folder := .ofBytes _ b }
  else if field = fName then { s with cur := { s.cur with name := .ofBytes _ b } }
  else if field = fContentHash then
    if h : b.length = bepHashLen then
      { s with cur := { s.cur with contentHash := ⟨b, h⟩, hasContentHash := 1 } }
    else s
  else if field = fVersion then { s with cur := { s.cur with version := decodeVector b } }
  else if field = fBlockHashes then { s with blocks := hashesOf b }
  else s

def store (s : Decoder) (field : UInt32) : Value → Decoder
  | .num v => s.storeNum field v
  | .data b => s.storeData field b
  | .fixed => s

end Decoder

def FolderTable.indexStoreDecode (t : FolderTable) (data : Bytes) (mem : Nat → Alloc) :
    FolderTable × Bool :=
  let (s, eof) := readFields (Decoder.start mem) Decoder.store data.length
    (Decoder.init t.resetRecords) data
  if !eof then (s.table.resetRecords, false)
  else if !s.headerOk && !s.headerMatches then (s.table.resetRecords, false)
  else
    let s := s.finish mem
    if s.count < 0 ∨ (s.table.numFiles : Int) ≠ s.count.toInt then (s.table.resetRecords, false)
    else ({ s.table with sequence := s.highSeq.toInt64 }, true)

/-! ## What is written -/

def counterFields (c : Counter) : List Field := [.num 1 c.id, .num 2 c.value]

def vectorFields (v : Counters) : List Field :=
  v.list.map fun c => .data 1 ((counterFields c).flatMap Field.bytes)

def optional (p : Prop) [Decidable p] (f : Field) : List Field := if p then [f] else []

/-- The fields of a record after its name. -/
def recordBody (m : FileMeta) (hashes : Option (List Hash)) : List Field :=
  [.num fType m.type.toUInt64, .num fSize m.size.toUInt64, .num fModifiedS m.modifiedS.toUInt64,
    .num fModifiedNs m.modifiedNs.toInt64.toUInt64,
    .num fDeleted (if m.deleted ≠ 0 then 1 else 0)] ++
  optional (m.hasContentHash ≠ 0) (.data fContentHash m.contentHash.1) ++
  [.data fVersion ((vectorFields m.version).flatMap Field.bytes),
    .num fSequence m.sequence.toUInt64] ++
  hashes.toList.map (fun l => .data fBlockHashes (l.flatMap Subtype.val)) ++
  [.num fPermissions m.permissions.toUInt64, .num fBlockSize m.blockSize.toInt64.toUInt64,
    .num fInvalid (if m.invalid ≠ 0 then 1 else 0)] ++
  optional (m.modifiedBy ≠ 0) (.num fModifiedBy m.modifiedBy)

def recordFields (m : FileMeta) (hashes : Option (List Hash)) : List Field :=
  .data fName m.name.bytes :: recordBody m hashes

section Write
variable {cap : Nat} {w : Writer} {b : Bytes}

theorem length_counterFields (c : Counter) : ((counterFields c).flatMap Field.bytes).length ≤ 22 := by
  have hid := length_num_le (f := 1) c.id (by decide)
  have hvalue := length_num_le (f := 2) c.value (by decide)
  rw [counterFields, List.flatMap_cons, List.flatMap_cons, List.flatMap_nil, List.append_nil,
    List.length_append]
  omega

theorem length_counter (c : Counter) :
    (Field.data 1 ((counterFields c).flatMap Field.bytes)).bytes.length ≤ 24 := by
  have hlen := length_counterFields c
  have hdata := length_data_short (f := 1) ((counterFields c).flatMap Field.bytes) (by decide) (by omega)
  omega

theorem length_vectorFields (v : Counters) :
    ((vectorFields v).flatMap Field.bytes).length ≤ v.list.length * 24 := by
  rw [vectorFields]
  induction v.list with
  | nil => exact Nat.le_refl _
  | cons c l ih =>
    have hc := length_counter c
    rw [List.map_cons, List.flatMap_cons, List.length_append, List.length_cons]
    omega

theorem wrote_encodeCounter (c : Counter) :
    Writer.Wrote 32 (encodeCounter c) ((counterFields c).flatMap Field.bytes) := by
  have h := ((Writer.wrote_init 32).writeUint64 1 c.id).writeUint64 2 c.value
  simpa [counterFields, encodeCounter] using h

/-- The scratch buffers are large enough. -/
theorem wrote_counters (v : Counters) :
    Writer.Wrote (bepMaxCounters * 24 + 16)
      (v.list.foldl (fun vw c => vw.writeMessage 1 (encodeCounter c))
        (Writer.init (bepMaxCounters * 24 + 16)))
      ((vectorFields v).flatMap Field.bytes) ∧
    ((vectorFields v).flatMap Field.bytes).length ≤ bepMaxCounters * 24 + 16 := by
  have hstep : ∀ (l : List Counter) (vw : Writer) (x : Bytes),
      Writer.Wrote (bepMaxCounters * 24 + 16) vw x →
      Writer.Wrote (bepMaxCounters * 24 + 16)
        (l.foldl (fun vw c => vw.writeMessage 1 (encodeCounter c)) vw)
        (x ++ (l.map fun c => Field.data 1 ((counterFields c).flatMap Field.bytes)).flatMap Field.bytes) := by
    intro l
    induction l with
    | nil => exact fun vw x hx => by simpa using hx
    | cons c l ih =>
      intro vw x hx
      have hc := length_counterFields c
      have := ih _ _ (hx.writeMessage 1 (wrote_encodeCounter c) (by omega))
      rwa [List.append_assoc] at this
  have hlen := length_vectorFields v
  have hbound := v.bound
  refine ⟨?_, by omega⟩
  have hv := hstep v.list _ [] (Writer.wrote_init _)
  rwa [List.nil_append] at hv

theorem Wrote.encodeVector (h : Writer.Wrote cap w b) (v : Counters) : Writer.Wrote cap (encodeVector w v)
    (b ++ (Field.data fVersion ((vectorFields v).flatMap Field.bytes)).bytes) :=
  h.writeMessage fVersion (wrote_counters v).1 (wrote_counters v).2

theorem Wrote.optional (h : Writer.Wrote cap w b) {p : Prop} [Decidable p] {w' : Writer} {f : Field}
    (hw : Writer.Wrote cap w' (b ++ f.bytes)) :
    Writer.Wrote cap (if p then w' else w) (b ++ (Amisync.optional p f).flatMap Field.bytes) := by
  rw [Amisync.optional]
  split
  · simpa using hw
  · simpa using h

theorem length_optional_le {p : Prop} [Decidable p] {f : Field} {n : Nat} (h : f.bytes.length ≤ n) :
    ((optional p f).flatMap Field.bytes).length ≤ n := by
  rw [optional]
  split
  · simpa using h
  · exact Nat.zero_le n

namespace FolderTable

/-- The hashes that are written of slot `i`. -/
def blocksAt (t : FolderTable) (i : Nat) : Option (List Hash) :=
  if (t.blocks i).isSome ∧ 0 < t.nblocks i then some (((t.blocks i).getD []).take (t.nblocks i))
  else none

def slotFields (t : FolderTable) (i : Nat) : List Field := recordFields (t.metaAt i) (t.blocksAt i)

def indexFields (t : FolderTable) : List Field :=
  [.num fMagic idxMagic, .num fFormat idxFormat, .data fFolderId t.folderId.bytes,
    .num fShortId t.shortId, .num fHighSeq t.sequence.toUInt64] ++
  (List.range t.numFiles).flatMap t.slotFields

/-- **A record.** -/
theorem wrote_encodeRecord (h : Writer.Wrote cap w b) (t : FolderTable) (i : Nat) :
    Writer.Wrote cap (t.encodeRecord w i) (b ++ (t.slotFields i).flatMap Field.bytes) := by
  have h1 := h.writeBytes fName (t.nameAt i).bytes
  have h2 := h1.writeUint64 fType (t.files i).type.toUInt64
  have h3 := h2.writeUint64 fSize (t.files i).size.toUInt64
  have h4 := h3.writeUint64 fModifiedS (t.files i).modifiedS.toUInt64
  have h5 := h4.writeUint64 fModifiedNs (t.files i).modifiedNs.toInt64.toUInt64
  have h6 := h5.writeUint64 fDeleted (if (t.files i).deleted ≠ 0 then 1 else 0)
  have h7 := Wrote.optional (p := (t.files i).hasContentHash ≠ 0) h6
    (h6.writeBytes fContentHash (t.files i).contentHash.1)
  have h8 := Wrote.encodeVector h7 (t.files i).getVersion
  have h9 := h8.writeUint64 fSequence (t.files i).sequence.toUInt64
  have h10 := Wrote.optional (p := (t.blocks i).isSome ∧ 0 < t.nblocks i) h9
    (h9.writeBytes fBlockHashes ((((t.blocks i).getD []).take (t.nblocks i)).flatMap Subtype.val))
  have h11 := h10.writeUint64 fPermissions (t.files i).permissions.toUInt64
  have h12 := h11.writeUint64 fBlockSize (t.files i).blockSize.toInt64.toUInt64
  have h13 := h12.writeUint64 fInvalid (if (t.files i).invalid ≠ 0 then 1 else 0)
  have h14 := Wrote.optional (p := (t.files i).modifiedBy ≠ 0) h13
    (h13.writeUint64 fModifiedBy (t.files i).modifiedBy)
  have hblocks : (t.blocksAt i).toList.map (fun l => Field.data fBlockHashes (l.flatMap Subtype.val)) =
      Amisync.optional ((t.blocks i).isSome ∧ 0 < t.nblocks i)
        (.data fBlockHashes ((((t.blocks i).getD []).take (t.nblocks i)).flatMap Subtype.val)) := by
    rw [blocksAt, Amisync.optional]
    split <;> rfl
  rw [slotFields, recordFields, recordBody, hblocks]
  simp only [List.flatMap_append, List.flatMap_cons, List.flatMap_nil, List.append_nil,
    ← List.append_assoc]
  exact h14

/-- The bytes of the whole index. -/
def indexBytes (t : FolderTable) : Bytes :=
  (t.indexFields ++ [Field.num fEnd (UInt64.ofNat t.numFiles)]).flatMap Field.bytes

theorem wrote_records (t : FolderTable) (l : List Nat) (h : Writer.Wrote cap w b) :
    Writer.Wrote cap (l.foldl t.encodeRecord w) (b ++ (l.flatMap t.slotFields).flatMap Field.bytes) := by
  induction l generalizing w b with
  | nil => simpa using h
  | cons i l ih =>
    have := ih (wrote_encodeRecord h t i)
    rwa [List.append_assoc, ← List.flatMap_append, ← List.flatMap_cons] at this

/-- **Encoding.** The index, where the buffer holds it. -/
theorem indexStoreEncode_eq (t : FolderTable) (cap : UInt64) : t.indexStoreEncode cap =
    if t.indexBytes.length ≤ cap.toNat then some t.indexBytes else none := by
  have h1 := (Writer.wrote_init cap.toNat).writeUint64 fMagic idxMagic
  have h2 := h1.writeUint64 fFormat idxFormat
  have h3 := h2.writeBytes fFolderId t.folderId.bytes
  have h4 := h3.writeUint64 fShortId t.shortId
  have h5 := h4.writeUint64 fHighSeq t.sequence.toUInt64
  have h6 := (wrote_records t (List.range t.numFiles) h5).writeUint64 fEnd (UInt64.ofNat t.numFiles)
  have hbytes : t.indexBytes = [] ++ (Field.num fMagic idxMagic).bytes ++
      (Field.num fFormat idxFormat).bytes ++ (Field.data fFolderId t.folderId.bytes).bytes ++
      (Field.num fShortId t.shortId).bytes ++ (Field.num fHighSeq t.sequence.toUInt64).bytes ++
      ((List.range t.numFiles).flatMap t.slotFields).flatMap Field.bytes ++
      (Field.num fEnd (UInt64.ofNat t.numFiles)).bytes := by
    rw [indexBytes, indexFields]
    simp only [List.flatMap_append, List.flatMap_cons, List.flatMap_nil, List.append_nil,
      List.nil_append, List.append_assoc]
  rw [hbytes, indexStoreEncode]
  exact h6.returned

theorem eq_of_encode {t : FolderTable} {cap : UInt64} {b : Bytes} (h : t.indexStoreEncode cap = some b) :
    b = (t.indexFields ++ [Field.num fEnd (UInt64.ofNat t.numFiles)]).flatMap Field.bytes ∧
      b.length < 2 ^ 64 := by
  obtain ⟨rfl, hfits⟩ := Writer.returned_eq (indexStoreEncode_eq t cap) h
  exact ⟨rfl, Nat.lt_of_le_of_lt hfits cap.toNat_lt⟩

end FolderTable

end Write

end Amisync

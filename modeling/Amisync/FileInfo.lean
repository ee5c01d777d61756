import Amisync.IndexStore

/-!
# Records on the wire (`bep.c`)

A `FileInfo` as it goes into an Index message, and what a peer reads of it.

* `encodeFileInfoBody`, `decodeFileInfoCb`: the two directions.
* `wrote_encodeFileInfoBody`: what is written, as a list of fields.
* `decodeFileInfoCb_fields`: what is read back. The two flags come back as 0 or 1.
-/

namespace Amisync

open Pbuf

namespace Bep

structure BlockInfo where
  offset : Int64
  size : Int32
  hash : Option Hash
  deriving DecidableEq

/-- The fields that are on the wire; `blocks` are those the decoder hands to its callback. -/
structure FileInfo where
  name : FileName
  type : Int32
  size : Int64
  permissions : UInt32
  modifiedS : Int64
  modifiedNs : Int32
  modifiedBy : UInt64
  deleted : Int32
  invalid : Int32
  sequence : Int64
  blockSize : Int32
  version : Counters
  blocks : List BlockInfo
  deriving DecidableEq

/-- What `memset` leaves. -/
def FileInfo.zero : FileInfo where
  name := .empty _
  type := 0
  size := 0
  permissions := 0
  modifiedS := 0
  modifiedNs := 0
  modifiedBy := 0
  deleted := 0
  invalid := 0
  sequence := 0
  blockSize := 0
  version := .empty
  blocks := []

def fileinfoFromMeta (m : FileMeta) : FileInfo where
  name := m.name
  type := m.type.toUInt32.toInt32
  size := m.size
  permissions := m.permissions
  modifiedS := m.modifiedS
  modifiedNs := m.modifiedNs
  modifiedBy := m.modifiedBy
  deleted := m.deleted.toUInt32.toInt32
  invalid := m.invalid.toUInt32.toInt32
  sequence := m.sequence
  blockSize := m.blockSize
  version := m.version
  blocks := []

/-! ## Encoding -/

def encodeBlock (fi : Writer) (b : BlockInfo) : Writer :=
  let bw := ((Writer.init 64).writeUint64 1 b.offset.toUInt64).writeUint64 2 b.size.toUInt32.toUInt64
  fi.writeMessage 16 (match b.hash with
    | some h => bw.writeBytes 3 h.1
    | none => bw)

def encodeVector (fi : Writer) (v : Counters) : Writer :=
  fi.writeMessage 9
    (v.list.foldl (fun vw c => vw.writeMessage 1 (encodeCounter c))
      (Writer.init (bepMaxCounters * 24 + 16)))

/-- The block `i` of a file whose hashes are kept elsewhere. -/
def extBlock (fi : FileInfo) (i : Nat) (h : Hash) : BlockInfo :=
  let bs : Int64 := if fi.blockSize ≠ 0 then fi.blockSize.toInt64 else 1
  let off := Int64.ofNat i * bs
  let left := fi.size - off
  ⟨off, (if left > bs then bs else left).toInt32, some h⟩

/-- The blocks that go out: those of the list where there is one. -/
def blocksOut (fi : FileInfo) : Option (List Hash) → List BlockInfo
  | some hashes => hashes.mapIdx (extBlock fi)
  | none => fi.blocks

def encodeFileInfoBody (w : Writer) (fi : FileInfo) (extHashes : Option (List Hash)) : Writer :=
  let w := w.writeBytes 1 fi.name.bytes
  let w := if fi.type ≠ 0 then w.writeUint64 2 fi.type.toUInt32.toUInt64 else w
  let w := w.writeUint64 3 fi.size.toUInt64
  let w := if fi.permissions ≠ 0 then w.writeUint64 4 fi.permissions.toUInt64 else w
  let w := w.writeUint64 5 fi.modifiedS.toUInt64
  let w := if fi.modifiedNs ≠ 0 then w.writeUint64 11 fi.modifiedNs.toUInt32.toUInt64 else w
  let w := if fi.modifiedBy ≠ 0 then w.writeUint64 12 fi.modifiedBy else w
  let w := if fi.deleted ≠ 0 then w.writeUint64 6 1 else w
  let w := if fi.invalid ≠ 0 then w.writeUint64 7 1 else w
  let w := encodeVector w fi.version
  let w := w.writeUint64 10 fi.sequence.toUInt64
  let w := if fi.blockSize ≠ 0 then w.writeUint64 13 fi.blockSize.toUInt32.toUInt64 else w
  (blocksOut fi extHashes).foldl encodeBlock w

/-- `bep_encode_file_info` -/
def encodeFileInfo (fi : FileInfo) (cap : Nat) : Option Bytes :=
  let w := encodeFileInfoBody (Writer.init cap) fi none
  if w.error then none else some w.buf

/-! ## Decoding -/

/-- `(int)v` -/
def toInt (v : UInt64) : Int32 := v.toUInt32.toInt32

def decodeBlock (b : Bytes) : Option BlockInfo :=
  readMessage (fun s f v =>
    match v with
    | .num v => some (if f = 1 then { s with offset := v.toInt64 }
        else if f = 2 then { s with size := toInt v } else s)
    | .data b => some (if h : f = 3 ∧ b.length = bepHashLen then { s with hash := some ⟨b, h.2⟩ } else s)
    | .fixed => some s) ⟨0, 0, none⟩ b

def decodeCounter (b : Bytes) : Option Counter :=
  readMessage (fun c f v =>
    match v with
    | .num v => some (if f = 1 then { c with id := v } else if f = 2 then { c with value := v } else c)
    | _ => some c) ⟨0, 0⟩ b

/-- Counters past the last that fits are skipped unread. -/
def storeCounter (v : Counters) (field : UInt32) : Value → Option Counters
  | .data b => if field = 1 ∧ v.list.length < bepMaxCounters then (decodeCounter b).map v.push else some v
  | _ => some v

def decodeVector (b : Bytes) : Option Counters := readMessage storeCounter Counters.empty b

def storeNum (fi : FileInfo) (field : UInt32) (v : UInt64) : FileInfo :=
  if field = 2 then { fi with type := toInt v }
  else if field = 3 then { fi with size := v.toInt64 }
  else if field = 4 then { fi with permissions := v.toUInt32 }
  else if field = 5 then { fi with modifiedS := v.toInt64 }
  else if field = 11 then { fi with modifiedNs := toInt v }
  else if field = 12 then { fi with modifiedBy := v }
  else if field = 6 then { fi with deleted := toInt v }
  else if field = 7 then { fi with invalid := toInt v }
  else if field = 10 then { fi with sequence := v.toInt64 }
  else if field = 13 then { fi with blockSize := toInt v }
  else fi

def storeData (fi : FileInfo) (field : UInt32) (b : Bytes) : Option FileInfo :=
  if field = 1 then some { fi with name := .ofBytes _ b }
  else if field = 9 then (decodeVector b).map fun v => { fi with version := v }
  else if field = 16 then (decodeBlock b).map fun blk => { fi with blocks := fi.blocks ++ [blk] }
  else some fi

def store (fi : FileInfo) (field : UInt32) : Value → Option FileInfo
  | .num v => some (storeNum fi field v)
  | .data b => storeData fi field b
  | .fixed => some fi

/-- `bep_decode_file_info_cb` with a callback that keeps every block. -/
def decodeFileInfoCb (b : Bytes) : Option FileInfo := readMessage store FileInfo.zero b

/-! ## What is written -/

def blockFields (b : BlockInfo) : List Field :=
  [.num 1 b.offset.toUInt64, .num 2 b.size.toUInt32.toUInt64] ++ b.hash.toList.map fun h => .data 3 h.1

def infoFields (fi : FileInfo) (blocks : List BlockInfo) : List Field :=
  [.data 1 fi.name.bytes] ++ optional (fi.type ≠ 0) (.num 2 fi.type.toUInt32.toUInt64) ++
  [.num 3 fi.size.toUInt64] ++ optional (fi.permissions ≠ 0) (.num 4 fi.permissions.toUInt64) ++
  [.num 5 fi.modifiedS.toUInt64] ++
  optional (fi.modifiedNs ≠ 0) (.num 11 fi.modifiedNs.toUInt32.toUInt64) ++
  optional (fi.modifiedBy ≠ 0) (.num 12 fi.modifiedBy) ++ optional (fi.deleted ≠ 0) (.num 6 1) ++
  optional (fi.invalid ≠ 0) (.num 7 1) ++
  [.data 9 ((vectorFields fi.version).flatMap Field.bytes), .num 10 fi.sequence.toUInt64] ++
  optional (fi.blockSize ≠ 0) (.num 13 fi.blockSize.toUInt32.toUInt64) ++
  blocks.map fun b => .data 16 ((blockFields b).flatMap Field.bytes)

/-- The bytes of a record. -/
def infoBytes (fi : FileInfo) (blocks : List BlockInfo) : Bytes := (infoFields fi blocks).flatMap Field.bytes

section Write
variable {cap : Nat} {w : Writer} {x : Bytes}

theorem length_hash_le (hash : Option Hash) {f : UInt32} (hf : f < 16) :
    ((hash.toList.map fun h => Field.data f h.1).flatMap Field.bytes).length ≤ 34 := by
  cases hash with
  | none => exact Nat.zero_le _
  | some h =>
    have hh : h.1.length = 32 := h.2
    have hd := length_data_short h.1 hf (by omega)
    rw [Option.toList_some, List.map_singleton, List.flatMap_singleton]
    omega

theorem length_blockFields (b : BlockInfo) : ((blockFields b).flatMap Field.bytes).length ≤ 56 := by
  have h1 := length_num_le (f := 1) b.offset.toUInt64 (by decide)
  have h2 := length_num_le (f := 2) b.size.toUInt32.toUInt64 (by decide)
  have h3 := length_hash_le (f := 3) b.hash (by decide)
  rw [blockFields, List.flatMap_append, List.length_append, List.flatMap_cons, List.flatMap_cons,
    List.flatMap_nil, List.append_nil, List.length_append]
  omega

theorem wrote_encodeBlock (h : Writer.Wrote cap w x) (b : BlockInfo) :
    Writer.Wrote cap (encodeBlock w b) (x ++ (Field.data 16 ((blockFields b).flatMap Field.bytes)).bytes) := by
  have hlen := length_blockFields b
  have h1 := ((Writer.wrote_init 64).writeUint64 1 b.offset.toUInt64).writeUint64 2 b.size.toUInt32.toUInt64
  refine h.writeMessage 16 (c := 64) (x := (blockFields b).flatMap Field.bytes) ?_ (by omega)
  rw [blockFields]
  cases hb : b.hash with
  | none => simpa using h1
  | some hash => simpa using h1.writeBytes 3 hash.1

theorem wrote_encodeBlocks (h : Writer.Wrote cap w x) (blocks : List BlockInfo) :
    Writer.Wrote cap (blocks.foldl encodeBlock w)
      (x ++ (blocks.map fun b => Field.data 16 ((blockFields b).flatMap Field.bytes)).flatMap Field.bytes) := by
  induction blocks generalizing w x with
  | nil => simpa using h
  | cons b blocks ih =>
    have := ih (wrote_encodeBlock h b)
    rwa [List.append_assoc] at this

theorem wrote_encodeVector (h : Writer.Wrote cap w x) (v : Counters) :
    Writer.Wrote cap (encodeVector w v)
      (x ++ (Field.data 9 ((vectorFields v).flatMap Field.bytes)).bytes) :=
  h.writeMessage 9 (wrote_counters v).1 (wrote_counters v).2

/-- **A record.** -/
theorem wrote_encodeFileInfoBody (h : Writer.Wrote cap w x) (fi : FileInfo) (ext : Option (List Hash)) :
    Writer.Wrote cap (encodeFileInfoBody w fi ext) (x ++ infoBytes fi (blocksOut fi ext)) := by
  have h1 := h.writeBytes 1 fi.name.bytes
  have h2 := Wrote.optional (p := fi.type ≠ 0) h1 (h1.writeUint64 2 fi.type.toUInt32.toUInt64)
  have h3 := h2.writeUint64 3 fi.size.toUInt64
  have h4 := Wrote.optional (p := fi.permissions ≠ 0) h3 (h3.writeUint64 4 fi.permissions.toUInt64)
  have h5 := h4.writeUint64 5 fi.modifiedS.toUInt64
  have h6 := Wrote.optional (p := fi.modifiedNs ≠ 0) h5 (h5.writeUint64 11 fi.modifiedNs.toUInt32.toUInt64)
  have h7 := Wrote.optional (p := fi.modifiedBy ≠ 0) h6 (h6.writeUint64 12 fi.modifiedBy)
  have h8 := Wrote.optional (p := fi.deleted ≠ 0) h7 (h7.writeUint64 6 1)
  have h9 := Wrote.optional (p := fi.invalid ≠ 0) h8 (h8.writeUint64 7 1)
  have h10 := (wrote_encodeVector h9 fi.version).writeUint64 10 fi.sequence.toUInt64
  have h11 := Wrote.optional (p := fi.blockSize ≠ 0) h10 (h10.writeUint64 13 fi.blockSize.toUInt32.toUInt64)
  have h12 := wrote_encodeBlocks h11 (blocksOut fi ext)
  rw [infoBytes, infoFields]
  simp only [List.flatMap_append, List.flatMap_cons, List.flatMap_nil, List.append_nil,
    ← List.append_assoc]
  exact h12

end Write

/-! ## What is read back -/

section Read

theorem decodeBlock_fields (b : BlockInfo) : decodeBlock ((blockFields b).flatMap Field.bytes) = some b := by
  have hsized : ∀ f ∈ blockFields b, f.Sized :=
    sized_of_length (Nat.lt_of_le_of_lt (length_blockFields b) (by decide))
  rw [decodeBlock, readMessage_bytes hsized, blockFields]
  cases b with
  | mk off size hash =>
    cases hash with
    | none => simp [List.foldlM_cons, Field.number, Field.value, toInt]
    | some h =>
      simp [List.foldlM_cons, Field.number, Field.value, toInt, h.2]

theorem decodeCounter_fields (c : Counter) :
    decodeCounter ((counterFields c).flatMap Field.bytes) = some c := by
  have hsized : ∀ f ∈ counterFields c, f.Sized :=
    sized_of_length (Nat.lt_of_le_of_lt (length_counterFields c) (by decide))
  rw [decodeCounter, readMessage_bytes hsized]
  rfl

/-- **Version vectors.** -/
theorem decodeVector_fields (v : Counters) :
    decodeVector ((vectorFields v).flatMap Field.bytes) = some v := by
  have hrun : ∀ (l : List Counter) (acc : Counters) (h : (acc.list ++ l).length ≤ bepMaxCounters),
      (l.map fun c => Field.data 1 ((counterFields c).flatMap Field.bytes)).foldlM
        (fun v f => storeCounter v f.number f.value) acc = some ⟨acc.list ++ l, h⟩ := by
    intro l
    induction l with
    | nil => exact fun acc h => by simp [List.foldlM_nil]
    | cons c l ih =>
      intro acc h
      have hroom : acc.list.length < bepMaxCounters := by
        rw [List.length_append, List.length_cons] at h
        omega
      have hpush : (acc.push c).list = acc.list ++ [c] := by rw [Counters.push, dif_pos hroom]
      have hstore : storeCounter acc 1 (.data ((counterFields c).flatMap Field.bytes)) =
          some (acc.push c) := by
        rw [storeCounter, if_pos ⟨rfl, hroom⟩, decodeCounter_fields]
        rfl
      have hlen : ((acc.push c).list ++ l).length ≤ bepMaxCounters := by rwa [hpush, ← List.append_cons]
      rw [List.map_cons, List.foldlM_cons]
      show (storeCounter acc 1 (.data ((counterFields c).flatMap Field.bytes))).bind _ = _
      rw [hstore, Option.bind_some, ih (acc.push c) hlen]
      simp only [hpush, ← List.append_cons]
  have hsized : ∀ f ∈ vectorFields v, f.Sized :=
    sized_of_length (Nat.lt_of_le_of_lt (wrote_counters v).2 (by decide))
  rw [decodeVector, readMessage_bytes hsized]
  exact hrun v.list Counters.empty (by simpa [Counters.empty] using v.bound)

/-- A C truth value as it comes back. -/
def truth (v : Int32) : Int32 := if v ≠ 0 then 1 else 0

/-- What is read of a record that is sent with these blocks. -/
def FileInfo.received (fi : FileInfo) (blocks : List BlockInfo) : FileInfo :=
  { fi with
    deleted := truth fi.deleted
    invalid := truth fi.invalid
    blocks := blocks }

/-- Read the fields of a list one after another. -/
def assign (fi : FileInfo) (l : List Field) : Option FileInfo :=
  l.foldlM (fun fi f => store fi f.number f.value) fi

theorem assign_append (fi : FileInfo) (l₁ l₂ : List Field) :
    assign fi (l₁ ++ l₂) = (assign fi l₁).bind fun fi => assign fi l₂ := by
  rw [assign, List.foldlM_append]
  rfl

/-- A field that is left out where it has the value it is initialised with. -/
theorem assign_optional {fi fi' : FileInfo} {p : Prop} [Decidable p] {f : Field}
    (hp : p → store fi f.number f.value = some fi') (hn : ¬ p → fi = fi') :
    assign fi (optional p f) = some fi' := by
  rw [optional]
  split
  · rename_i h
    rw [assign, List.foldlM_cons, hp h]
    rfl
  · rename_i h
    rw [hn h]
    rfl

theorem toInt_toUInt32 (v : Int32) : toInt v.toUInt32.toUInt64 = v := by simp [toInt]

section Fields
variable (u : FileInfo)

theorem assign_name (n : FileName) : assign u [.data 1 n.bytes] = some { u with name := n } := by
  simp [assign, List.foldlM_cons, Field.number, Field.value, store, storeData]

theorem assign_num (f : UInt32) (v : UInt64) : assign u [.num f v] = some (storeNum u f v) := rfl

/-- A number that is left out where it is 0. -/
theorem assign_optional_num {f : UInt32} {v : UInt64} {p : Prop} [Decidable p] {u' : FileInfo}
    (hp : storeNum u f v = u') (hn : ¬ p → u = u') : assign u (optional p (.num f v)) = some u' :=
  assign_optional (fun _ => congrArg some hp) hn

theorem assign_version (v : Counters) (q : UInt64) :
    assign u [.data 9 ((vectorFields v).flatMap Field.bytes), .num 10 q] =
      some { u with version := v, sequence := q.toInt64 } := by
  simp [assign, List.foldlM_cons, Field.number, Field.value, store, storeData, storeNum,
    decodeVector_fields]

theorem assign_blocks (blocks : List BlockInfo) :
    assign u (blocks.map fun b => .data 16 ((blockFields b).flatMap Field.bytes)) =
      some { u with blocks := u.blocks ++ blocks } := by
  induction blocks generalizing u with
  | nil => simp [assign, List.foldlM_nil]
  | cons b blocks ih =>
    rw [List.map_cons, assign, List.foldlM_cons]
    simp only [Field.number, Field.value, store, storeData, decodeBlock_fields, Option.map_some,
      Option.bind_eq_bind]
    refine (ih _).trans ?_
    simp

end Fields

/-- **Fields.** -/
theorem assign_infoFields (fi : FileInfo) (blocks : List BlockInfo) :
    assign .zero (infoFields fi blocks) = some (fi.received blocks) := by
  have hzero : ∀ {α : Type} [OfNat α 0] {v : α}, ¬ v ≠ 0 → v = 0 := fun h => not_not.mp h
  let u1 : FileInfo := { FileInfo.zero with name := fi.name }
  let u2 : FileInfo := { u1 with type := fi.type }
  let u3 : FileInfo := { u2 with size := fi.size }
  let u4 : FileInfo := { u3 with permissions := fi.permissions }
  let u5 : FileInfo := { u4 with modifiedS := fi.modifiedS }
  let u6 : FileInfo := { u5 with modifiedNs := fi.modifiedNs }
  let u7 : FileInfo := { u6 with modifiedBy := fi.modifiedBy }
  let u8 : FileInfo := { u7 with deleted := truth fi.deleted }
  let u9 : FileInfo := { u8 with invalid := truth fi.invalid }
  let u10 : FileInfo := { u9 with version := fi.version, sequence := fi.sequence }
  let u11 : FileInfo := { u10 with blockSize := fi.blockSize }
  have h2 : assign u1 (optional (fi.type ≠ 0) (.num 2 fi.type.toUInt32.toUInt64)) = some u2 :=
    assign_optional_num u1 (by simp [storeNum, toInt_toUInt32, u2]) fun h => by
      simp [u2, hzero h, u1, FileInfo.zero]
  have h3 : assign u2 [.num 3 fi.size.toUInt64] = some u3 := by simp [assign_num, storeNum, u3]
  have h4 : assign u3 (optional (fi.permissions ≠ 0) (.num 4 fi.permissions.toUInt64)) = some u4 :=
    assign_optional_num u3 (by simp [storeNum, u4]) fun h => by
      simp [u4, hzero h, u3, u2, u1, FileInfo.zero]
  have h5 : assign u4 [.num 5 fi.modifiedS.toUInt64] = some u5 := by simp [assign_num, storeNum, u5]
  have h6 : assign u5 (optional (fi.modifiedNs ≠ 0) (.num 11 fi.modifiedNs.toUInt32.toUInt64)) = some u6 :=
    assign_optional_num u5 (by simp [storeNum, toInt_toUInt32, u6]) fun h => by
      simp [u6, hzero h, u5, u4, u3, u2, u1, FileInfo.zero]
  have h7 : assign u6 (optional (fi.modifiedBy ≠ 0) (.num 12 fi.modifiedBy)) = some u7 :=
    assign_optional_num u6 (by simp [storeNum, u7]) fun h => by
      simp [u7, hzero h, u6, u5, u4, u3, u2, u1, FileInfo.zero]
  have h8 : assign u7 (optional (fi.deleted ≠ 0) (.num 6 1)) = some u8 :=
    assign_optional (fun h => by simp [store, storeNum, toInt, Field.number, Field.value, u8, truth, h])
      fun h => by simp [u8, hzero h, truth, u7, u6, u5, u4, u3, u2, u1, FileInfo.zero]
  have h9 : assign u8 (optional (fi.invalid ≠ 0) (.num 7 1)) = some u9 :=
    assign_optional (fun h => by simp [store, storeNum, toInt, Field.number, Field.value, u9, truth, h])
      fun h => by simp [u9, hzero h, truth, u8, u7, u6, u5, u4, u3, u2, u1, FileInfo.zero]
  have h10 : assign u9 [.data 9 ((vectorFields fi.version).flatMap Field.bytes),
      .num 10 fi.sequence.toUInt64] = some u10 := by simp [assign_version, u10]
  have h11 : assign u10 (optional (fi.blockSize ≠ 0) (.num 13 fi.blockSize.toUInt32.toUInt64)) = some u11 :=
    assign_optional_num u10 (by simp [storeNum, toInt_toUInt32, u11]) fun h => by
      simp [u11, hzero h, u10, u9, u8, u7, u6, u5, u4, u3, u2, u1, FileInfo.zero]
  simp only [infoFields, assign_append, assign_name, Option.bind_some]
  show (((((((((((assign u1 _).bind _).bind _).bind _).bind _).bind _).bind _).bind _).bind _).bind _).bind
    _) = _
  simp only [h2, h3, h4, h5, h6, h7, h8, h9, h10, h11, Option.bind_some, assign_blocks]
  rfl

/-- **Round trip.** -/
theorem decodeFileInfoCb_fields (fi : FileInfo) (blocks : List BlockInfo)
    (h : (infoBytes fi blocks).length < 2 ^ 64) :
    decodeFileInfoCb (infoBytes fi blocks) = some (fi.received blocks) := by
  rw [decodeFileInfoCb, infoBytes, readMessage_bytes (sized_of_length h)]
  exact assign_infoFields fi blocks

end Read

end Bep

end Amisync

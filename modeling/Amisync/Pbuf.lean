import Amisync.Types
import Amisync.Lib.Varint

/-!
# The wire codec (`pbuf.c`)

Tagged fields in a byte buffer. A writer that runs out of room, and a reader that
runs out of bytes, fails for good.

* `Writer`: the buffer and its capacity. `Wrote`: what is in it, unless it is too
  much. `Wrote.returned`: what an encoder returns.
* `readFields`: the loop in which every message is read.
* `readFields_bytes`: fields that were written are read back one by one.
* `readMessage`: the same loop where a field may be refused.
* `readFields_prefix`: fields that are cut short are read up to the cut.
* `length_num_le`, `length_data_le`: how long a field can be.
-/

namespace Amisync

namespace Pbuf

def wtVarint : UInt64 := 0
def wtI64 : UInt64 := 1
def wtLen : UInt64 := 2
def wtI32 : UInt64 := 5

def tagOf (field : UInt32) (wiretype : UInt64) : UInt64 := field.toUInt64 <<< 3 ||| wiretype

/-! ## Writer -/

/-- `buf` is the part that is written. -/
structure Writer where
  buf : Bytes
  cap : Nat
  error : Bool

namespace Writer

def init (cap : Nat) : Writer := ⟨[], cap, false⟩

def putByte (w : Writer) (b : UInt8) : Writer :=
  if w.error then w
  else if w.cap ≤ w.buf.length then { w with error := true }
  else { w with buf := w.buf ++ [b] }

def putRaw (w : Writer) (data : Bytes) : Writer :=
  if w.error then w
  else if w.cap - w.buf.length < data.length then { w with error := true }
  else { w with buf := w.buf ++ data }

-- after a failure the calls that follow do nothing, so the early returns are left out
def writeVarint (w : Writer) (v : UInt64) : Writer := (Varint.put v).foldl putByte w

def writeTag (w : Writer) (field : UInt32) (wiretype : UInt64) : Writer :=
  w.writeVarint (tagOf field wiretype)

def writeUint64 (w : Writer) (field : UInt32) (v : UInt64) : Writer :=
  (w.writeTag field wtVarint).writeVarint v

def writeInt64 (w : Writer) (field : UInt32) (v : Int64) : Writer :=
  (w.writeTag field wtVarint).writeVarint v.toUInt64

def writeBool (w : Writer) (field : UInt32) (v : UInt8) : Writer :=
  w.writeUint64 field (if v ≠ 0 then 1 else 0)

def writeBytes (w : Writer) (field : UInt32) (data : Bytes) : Writer :=
  ((w.writeTag field wtLen).writeVarint (UInt64.ofNat data.length)).putRaw data

def writeMessage (w : Writer) (field : UInt32) (msg : Writer) : Writer :=
  if msg.error then { w with error := true } else w.writeBytes field msg.buf

/-- `b` has been written, if it fits. -/
structure Wrote (cap : Nat) (w : Writer) (b : Bytes) : Prop where
  room : w.cap = cap
  fits : w.error = false ↔ b.length ≤ cap
  buf : w.error = false → w.buf = b

end Writer

/-! ## Fields -/

/-- A field as it is written. -/
inductive Field
  | num (number : UInt32) (v : UInt64)
  | data (number : UInt32) (b : Bytes)

/-- What is read of a field; the fixed-width ones are only skipped. -/
inductive Value
  | num (v : UInt64)
  | data (b : Bytes)
  | fixed

namespace Field

def number : Field → UInt32
  | .num f _ => f
  | .data f _ => f

def wiretype : Field → UInt64
  | .num .. => wtVarint
  | .data .. => wtLen

def value : Field → Value
  | .num _ v => .num v
  | .data _ b => .data b

def payload : Field → Bytes
  | .num _ v => Varint.put v
  | .data _ b => Varint.put (UInt64.ofNat b.length) ++ b

def bytes (f : Field) : Bytes := Varint.put (tagOf f.number f.wiretype) ++ f.payload

/-- A length that a varint holds. -/
def Sized : Field → Prop
  | .num .. => True
  | .data _ b => b.length < 2 ^ 64

end Field

/-! ## Reader -/

inductive Tag
  | eof
  | error
  | tag (field : UInt32) (wiretype : UInt64) (rest : Bytes)

def readTag (b : Bytes) : Tag :=
  if b = [] then .eof
  else match Varint.get b with
    | none => .error
    | some (t, rest) => .tag (t >>> 3).toUInt32 (t &&& 7) rest

def readBytes (b : Bytes) : Option (Bytes × Bytes) :=
  match Varint.get b with
  | none => none
  | some (n, rest) =>
    if rest.length < n.toNat then none else some (rest.take n.toNat, rest.drop n.toNat)

/-- `pbuf_read_varint`, `pbuf_read_bytes` or `pbuf_skip`, by the type of the field. -/
def readValue (wiretype : UInt64) (b : Bytes) : Option (Value × Bytes) :=
  if wiretype = wtVarint then (Varint.get b).map fun (v, rest) => (.num v, rest)
  else if wiretype = wtI64 then if b.length < 8 then none else some (.fixed, b.drop 8)
  else if wiretype = wtLen then (readBytes b).map fun (d, rest) => (.data d, rest)
  else if wiretype = wtI32 then if b.length < 4 then none else some (.fixed, b.drop 4)
  else none

/-- `while (pbuf_read_tag(..))`. What is done with a field before its value is read is `start`,
which may give up, and afterwards `store`; the flag says that the end was reached. -/
def readFields {σ : Type*} (start : σ → UInt32 → UInt64 → Option σ) (store : σ → UInt32 → Value → σ) :
    Nat → σ → Bytes → σ × Bool
  | 0, s, b => (s, b.isEmpty)
  | fuel + 1, s, b =>
    match readTag b with
    | .eof => (s, true)
    | .error => (s, false)
    | .tag field wiretype rest =>
      match start s field wiretype with
      | none => (s, false)
      | some s =>
        match readValue wiretype rest with
        | none => (s, false)
        | some (v, rest) => readFields start store fuel (store s field v) rest

/-- The fields of a message in order, up to where it can be read. -/
def fieldsFrom (fuel : Nat) (l : List (UInt32 × Value)) (b : Bytes) : List (UInt32 × Value) × Bool :=
  readFields (fun l _ _ => some l) (fun l f v => l ++ [(f, v)]) fuel l b

def fieldsOf (b : Bytes) : List (UInt32 × Value) × Bool := fieldsFrom b.length [] b

/-- The last number in field `f`. -/
def lastNum (f : UInt32) (l : List (UInt32 × Value)) : Option UInt64 :=
  l.foldl (fun acc x => match x.2 with
    | .num v => if x.1 = f then some v else acc
    | _ => acc) none

/-- The last bytes in field `f`. -/
def lastData (f : UInt32) (l : List (UInt32 × Value)) : Option Bytes :=
  l.foldl (fun acc x => match x.2 with
    | .data b => if x.1 = f then some b else acc
    | _ => acc) none

/-- The loop on the fields themselves. -/
def runFields {σ : Type*} (start : σ → UInt32 → UInt64 → Option σ) (store : σ → UInt32 → Value → σ) :
    σ → List Field → σ × Bool
  | s, [] => (s, true)
  | s, f :: l =>
    match start s f.number f.wiretype with
    | none => (s, false)
    | some s => runFields start store (store s f.number f.value) l

/-- A decoder that gives up at the first field it cannot use. -/
def readMessage {α : Type*} (store : α → UInt32 → Value → Option α) (a : α) (b : Bytes) : Option α :=
  match readFields (fun s _ _ => if s.isSome then some s else none) (fun s f v => s.bind (store · f v))
    b.length (some a) b with
  | (s, true) => s
  | (_, false) => none

/-! ## What is written -/

namespace Writer

section Wrote
variable {cap : Nat} {w : Writer} {b : Bytes}

theorem wrote_init (cap : Nat) : Wrote cap (init cap) [] :=
  ⟨rfl, by simp [init], fun _ => rfl⟩

theorem Wrote.putRaw (h : Wrote cap w b) (x : Bytes) : Wrote cap (w.putRaw x) (b ++ x) := by
  have hfits := h.fits
  rw [Writer.putRaw, h.room]
  cases he : w.error with
  | true =>
    rw [he] at hfits
    simp only [if_true]
    refine ⟨h.room, ?_, fun h' => absurd (he.symm.trans h') (by decide)⟩
    rw [he, List.length_append]
    simp only [Bool.true_eq_false, false_iff] at hfits ⊢
    omega
  | false =>
    have hle := hfits.mp he
    rw [h.buf he]
    simp only [Bool.false_eq_true, if_false]
    split
    · rename_i hfull
      refine ⟨rfl, ?_, fun h' => absurd h' (by simp)⟩
      simp only [Bool.true_eq_false, false_iff, List.length_append]
      omega
    · rename_i hfull
      refine ⟨rfl, ?_, fun _ => rfl⟩
      simp only [true_iff, List.length_append]
      omega

theorem putByte_eq (w : Writer) (x : UInt8) : w.putByte x = w.putRaw [x] := by
  have hfull : w.cap ≤ w.buf.length ↔ w.cap - w.buf.length < [x].length := by
    rw [List.length_singleton]
    omega
  rw [putByte, Writer.putRaw]
  simp only [hfull]

theorem Wrote.foldl_putByte (h : Wrote cap w b) (x : Bytes) :
    Wrote cap (x.foldl Writer.putByte w) (b ++ x) := by
  induction x generalizing w b with
  | nil => simpa using h
  | cons y x ih =>
    rw [List.foldl_cons, List.append_cons]
    exact ih (putByte_eq w y ▸ h.putRaw [y])

theorem Wrote.writeUint64 (h : Wrote cap w b) (f : UInt32) (v : UInt64) :
    Wrote cap (w.writeUint64 f v) (b ++ (Field.num f v).bytes) := by
  have := (h.foldl_putByte (Varint.put (tagOf f wtVarint))).foldl_putByte (Varint.put v)
  rwa [List.append_assoc] at this

theorem Wrote.writeBytes (h : Wrote cap w b) (f : UInt32) (x : Bytes) :
    Wrote cap (w.writeBytes f x) (b ++ (Field.data f x).bytes) := by
  have := ((h.foldl_putByte (Varint.put (tagOf f wtLen))).foldl_putByte
    (Varint.put (UInt64.ofNat x.length))).putRaw x
  rwa [List.append_assoc, List.append_assoc] at this

/-- A message that fitted its own buffer. -/
theorem Wrote.writeMessage (h : Wrote cap w b) (f : UInt32) {c : Nat} {msg : Writer} {x : Bytes}
    (hmsg : Wrote c msg x) (hfit : x.length ≤ c) :
    Wrote cap (w.writeMessage f msg) (b ++ (Field.data f x).bytes) := by
  have hok : msg.error = false := hmsg.fits.mpr hfit
  rw [Writer.writeMessage, hok, hmsg.buf hok]
  exact h.writeBytes f x

/-- What an encoder returns. -/
theorem Wrote.returned (h : Wrote cap w b) :
    (if w.error then none else some w.buf) = if b.length ≤ cap then some b else none := by
  split
  · rename_i herr
    rw [if_neg fun hle => absurd (h.fits.mpr hle) (by simp [herr])]
  · rename_i hok
    rw [Bool.not_eq_true] at hok
    rw [if_pos (h.fits.mp hok), h.buf hok]

/-- It succeeds where its bytes fit. -/
theorem returned_isSome {r : Option Bytes} (h : r = if b.length ≤ cap then some b else none) :
    r.isSome ↔ b.length ≤ cap := by
  rw [h]
  split <;> simp_all

theorem returned_eq {r : Option Bytes} (h : r = if b.length ≤ cap then some b else none) {x : Bytes}
    (hx : r = some x) : x = b ∧ b.length ≤ cap := by
  rw [h] at hx
  split at hx
  · exact ⟨(Option.some.inj hx).symm, ‹_›⟩
  · exact absurd hx (by simp)

end Wrote

/-! ## What is written of too much -/

/-- A writer stays in its buffer, also where it fails. -/
def Bounded (w : Writer) : Prop := w.buf.length ≤ w.cap

section Bounded
variable {w : Writer}

theorem bounded_init (cap : Nat) : (init cap).Bounded := Nat.zero_le cap

theorem Bounded.putRaw (h : w.Bounded) (x : Bytes) : (w.putRaw x).Bounded := by
  rw [Writer.putRaw]
  split
  · exact h
  · split
    · exact h
    · rename_i hroom
      show (w.buf ++ x).length ≤ w.cap
      have hle : w.buf.length ≤ w.cap := h
      rw [List.length_append]
      omega

theorem Bounded.foldl_putByte (h : w.Bounded) (x : Bytes) : (x.foldl Writer.putByte w).Bounded := by
  induction x generalizing w with
  | nil => exact h
  | cons y x ih =>
    rw [List.foldl_cons, putByte_eq]
    exact ih (h.putRaw [y])

theorem Bounded.writeUint64 (h : w.Bounded) (f : UInt32) (v : UInt64) : (w.writeUint64 f v).Bounded :=
  (h.foldl_putByte _).foldl_putByte _

theorem Bounded.writeBytes (h : w.Bounded) (f : UInt32) (x : Bytes) : (w.writeBytes f x).Bounded :=
  ((h.foldl_putByte _).foldl_putByte _).putRaw x

theorem Bounded.writeMessage (h : w.Bounded) (f : UInt32) (msg : Writer) :
    (w.writeMessage f msg).Bounded := by
  rw [Writer.writeMessage]
  split
  · exact h
  · exact h.writeBytes f msg.buf

theorem Bounded.optional {w' : Writer} {p : Prop} [Decidable p] (h : w.Bounded) (h' : w'.Bounded) :
    (if p then w' else w).Bounded := by
  split
  · exact h'
  · exact h

end Bounded

end Writer

/-! ## What is read back -/

section Read
variable {σ : Type*} {start : σ → UInt32 → UInt64 → Option σ} {store : σ → UInt32 → Value → σ}

theorem toNat_tagOf (f : UInt32) {wt : UInt64} (hwt : wt.toNat < 8) :
    (tagOf f wt).toNat = f.toNat * 8 + wt.toNat := by
  have hf : f.toNat < 2 ^ 32 := f.toNat_lt
  have hshift : (f.toUInt64 <<< 3).toNat = f.toNat * 8 := by
    simp only [UInt64.toNat_shiftLeft, UInt32.toNat_toUInt64, UInt64.reduceToNat, Nat.reduceMod,
      Nat.shiftLeft_eq, Nat.reducePow]
    omega
  rw [tagOf, UInt64.toNat_or, hshift, Words.or_eq_add 3 (Nat.dvd_mul_left 8 _) hwt]

theorem number_tagOf (f : UInt32) {wt : UInt64} (hwt : wt.toNat < 8) :
    (tagOf f wt >>> 3).toUInt32 = f := by
  have hf : f.toNat < 2 ^ 32 := f.toNat_lt
  apply UInt32.toNat_inj.mp
  simp only [UInt64.toNat_toUInt32, UInt64.toNat_shiftRight, toNat_tagOf f hwt, UInt64.reduceToNat,
    Nat.reduceMod, Nat.shiftRight_eq_div_pow, Nat.reducePow]
  omega

theorem wiretype_tagOf (f : UInt32) {wt : UInt64} (hwt : wt.toNat < 8) : tagOf f wt &&& 7 = wt := by
  have hmask : (7 : UInt64).toNat = 2 ^ 3 - 1 := rfl
  apply UInt64.toNat_inj.mp
  rw [UInt64.toNat_and, hmask, Nat.and_two_pow_sub_one_eq_mod, toNat_tagOf f hwt]
  omega

theorem Field.wiretype_lt (f : Field) : f.wiretype.toNat < 8 := by
  cases f with
  | num n v => exact (by decide : wtVarint.toNat < 8)
  | data n b => exact (by decide : wtLen.toNat < 8)

theorem readTag_put (f : Field) (rest : Bytes) :
    readTag (Varint.put (tagOf f.number f.wiretype) ++ rest) = .tag f.number f.wiretype rest := by
  rw [readTag, if_neg (by simp [Varint.put_ne_nil]), Varint.get_put]
  dsimp only
  rw [number_tagOf _ f.wiretype_lt, wiretype_tagOf _ f.wiretype_lt]

theorem length_readTag {b rest : Bytes} {field : UInt32} {wt : UInt64} (h : readTag b = .tag field wt rest) :
    rest.length < b.length := by
  rw [readTag] at h
  split at h
  · cases h
  · split at h
    · cases h
    · rename_i hget
      cases h
      exact Varint.length_get hget

theorem length_readBytes {b d rest : Bytes} (h : readBytes b = some (d, rest)) : rest.length ≤ b.length := by
  rw [readBytes] at h
  split at h
  · cases h
  · rename_i hget
    have hlen := Varint.length_get hget
    split at h
    · cases h
    · cases h
      rw [List.length_drop]
      omega

theorem length_readValue {wt : UInt64} {b rest : Bytes} {v : Value} (h : readValue wt b = some (v, rest)) :
    rest.length ≤ b.length := by
  rw [readValue] at h
  split at h
  · obtain ⟨⟨n, rest⟩, hget, ⟨⟩⟩ := Option.map_eq_some_iff.mp h
    exact (Varint.length_get hget).le
  split at h
  · split at h
    · cases h
    · cases h
      exact (List.drop_sublist 8 b).length_le
  split at h
  · obtain ⟨⟨d, rest⟩, hbytes, ⟨⟩⟩ := Option.map_eq_some_iff.mp h
    exact length_readBytes hbytes
  split at h
  · split at h
    · cases h
    · cases h
      exact (List.drop_sublist 4 b).length_le
  · cases h

theorem readValue_len (b : Bytes) :
    readValue wtLen b = (readBytes b).map fun (d, rest) => (.data d, rest) := rfl

/-- Only a field of that type has bytes. -/
theorem wiretype_of_data {wt : UInt64} {b d rest : Bytes} (h : readValue wt b = some (.data d, rest)) :
    wt = wtLen := by
  rw [readValue] at h
  split at h
  · obtain ⟨⟨n, rest⟩, hget, ⟨⟩⟩ := Option.map_eq_some_iff.mp h
  split at h
  · split at h
    · cases h
    · cases h
  split at h
  · assumption
  split at h
  · split at h
    · cases h
    · cases h
  · cases h

theorem readBytes_put {b : Bytes} (hb : b.length < 2 ^ 64) (rest : Bytes) :
    readBytes (Varint.put (UInt64.ofNat b.length) ++ b ++ rest) = some (b, rest) := by
  have hn : (UInt64.ofNat b.length).toNat = b.length := by
    rw [UInt64.toNat_ofNat', Nat.mod_eq_of_lt hb]
  rw [readBytes, List.append_assoc, Varint.get_put]
  dsimp only
  rw [hn, if_neg (by simp), List.take_left, List.drop_left]

theorem readValue_payload {f : Field} (hf : f.Sized) (rest : Bytes) :
    readValue f.wiretype (f.payload ++ rest) = some (f.value, rest) := by
  cases f with
  | num n v =>
    show (Varint.get (Varint.put v ++ rest)).map _ = _
    rw [Varint.get_put]
    rfl
  | data n b =>
    show (readBytes (Varint.put (UInt64.ofNat b.length) ++ b ++ rest)).map _ = _
    rw [readBytes_put hf]
    rfl

theorem Field.bytes_ne_nil (f : Field) : f.bytes ≠ [] := by
  rw [Field.bytes]
  simp [Varint.put_ne_nil]

/-- **Step.** -/
theorem readFields_cons {f : Field} (hf : f.Sized) (fuel : Nat) (s : σ) (rest : Bytes) :
    readFields start store (fuel + 1) s (f.bytes ++ rest) =
      match start s f.number f.wiretype with
      | none => (s, false)
      | some s => readFields start store fuel (store s f.number f.value) rest := by
  rw [readFields, Field.bytes, List.append_assoc, readTag_put]
  dsimp only
  cases start s f.number f.wiretype with
  | none => rfl
  | some s =>
    dsimp only
    rw [readValue_payload hf]

variable (start store) in
/-- **Run.** -/
theorem readFields_append {l : List Field} (hl : ∀ f ∈ l, f.Sized) (fuel : Nat) (s : σ) (rest : Bytes) :
    readFields start store (l.length + fuel) s (l.flatMap Field.bytes ++ rest) =
      if (runFields start store s l).2 then
        readFields start store fuel (runFields start store s l).1 rest
      else ((runFields start store s l).1, false) := by
  induction l generalizing s with
  | nil => simp [runFields]
  | cons f l ih =>
    have hfuel : (f :: l).length + fuel = l.length + fuel + 1 := by
      rw [List.length_cons]
      omega
    rw [hfuel, List.flatMap_cons, List.append_assoc, readFields_cons (hl f List.mem_cons_self), runFields]
    cases start s f.number f.wiretype with
    | none => rfl
    | some s => exact ih (fun g hg => hl g (List.mem_cons_of_mem _ hg)) _

theorem length_le_flatMap (l : List Field) : l.length ≤ (l.flatMap Field.bytes).length := by
  induction l with
  | nil => exact Nat.le_refl _
  | cons f l ih =>
    have hpos : 0 < f.bytes.length := List.length_pos_of_ne_nil f.bytes_ne_nil
    rw [List.flatMap_cons, List.length_append, List.length_cons]
    omega

theorem sized_of_length {l : List Field} (h : (l.flatMap Field.bytes).length < 2 ^ 64) :
    ∀ f ∈ l, f.Sized := by
  intro f hf
  obtain ⟨l₁, l₂, rfl⟩ := List.append_of_mem hf
  cases f with
  | num n v => trivial
  | data n b =>
    rw [List.flatMap_append, List.flatMap_cons, List.length_append, List.length_append, Field.bytes,
      Field.payload, List.length_append, List.length_append] at h
    show b.length < 2 ^ 64
    omega

theorem readFields_nil (fuel : Nat) (s : σ) : readFields start store fuel s [] = (s, true) := by
  cases fuel <;> rfl

variable (start store) in
/-- **Round trip.** -/
theorem readFields_bytes {l : List Field} (hl : ∀ f ∈ l, f.Sized) {fuel : Nat}
    (hfuel : (l.flatMap Field.bytes).length ≤ fuel) (s : σ) :
    readFields start store fuel s (l.flatMap Field.bytes) = runFields start store s l := by
  have hlen := length_le_flatMap l
  obtain ⟨k, rfl⟩ : ∃ k, fuel = l.length + k := ⟨fuel - l.length, by omega⟩
  have h := readFields_append start store hl k s []
  rw [List.append_nil, readFields_nil] at h
  rw [h]
  cases hr : runFields start store s l with
  | mk s' ok => cases ok <;> rfl

/-- **Round trip of a message.** -/
theorem readMessage_bytes {α : Type*} {store : α → UInt32 → Value → Option α} {l : List Field}
    (hl : ∀ f ∈ l, f.Sized) (a : α) :
    readMessage store a (l.flatMap Field.bytes) = l.foldlM (fun a f => store a f.number f.value) a := by
  rw [readMessage, readFields_bytes _ _ hl (Nat.le_refl _)]
  clear hl
  induction l generalizing a with
  | nil => rfl
  | cons f l ih =>
    rw [runFields, List.foldlM_cons]
    simp only [Option.isSome_some, if_true, Option.bind_some]
    cases hs : store a f.number f.value with
    | none => cases l <;> rfl
    | some a' => exact ih a'

/-- **Invariant rule.** An invariant may speak of the fields that were read so far. -/
theorem readFields_inv {I : List (UInt32 × Value) → σ → Prop}
    (hstep : ∀ l s f w s' v, I l s → start s f w = some s' → I (l ++ [(f, v)]) (store s' f v))
    (fuel : Nat) {l : List (UInt32 × Value)} {s : σ} (b : Bytes) (hs : I l s)
    (hok : (readFields start store fuel s b).2 = true) :
    (fieldsFrom fuel l b).2 = true ∧ I (fieldsFrom fuel l b).1 (readFields start store fuel s b).1 := by
  induction fuel generalizing l s b with
  | zero => exact ⟨hok, hs⟩
  | succ fuel ih =>
    rw [fieldsFrom, readFields, readFields]
    rw [readFields] at hok
    cases ht : readTag b with
    | eof => exact ⟨rfl, hs⟩
    | error => simp [ht] at hok
    | tag f w rest =>
      simp only [ht] at hok ⊢
      cases hstart : start s f w with
      | none => simp [hstart] at hok
      | some s' =>
        simp only [hstart] at hok ⊢
        cases hv : readValue w rest with
        | none => simp [hv] at hok
        | some r =>
          simp only [hv] at hok ⊢
          exact ih r.2 (hstep l s f w s' r.1 hs hstart) hok

/-- The same for a decoder that gives up. -/
theorem readMessage_inv {α : Type*} {store : α → UInt32 → Value → Option α}
    (I : List (UInt32 × Value) → α → Prop)
    (hstep : ∀ l a f v a', I l a → store a f v = some a' → I (l ++ [(f, v)]) a') {a r : α} {b : Bytes}
    (ha : I [] a) (h : readMessage store a b = some r) : I (fieldsOf b).1 r := by
  rw [readMessage] at h
  split at h
  · rename_i s heq
    have hok := congrArg Prod.snd heq
    have hinv := readFields_inv (I := fun l s => ∀ x, s = some x → I l x) (l := []) ?_ b.length b ?_ hok
    · rw [heq] at hinv
      exact hinv.2 r h
    · intro l s f w s' v hI hs x hx
      cases s with
      | none => simp at hs
      | some y =>
        rw [Option.isSome_some, if_pos rfl, Option.some.injEq] at hs
        subst hs
        exact hstep l y f v x (hI y rfl) hx
    · intro x hx
      rw [← Option.some.inj hx]
      exact ha
  · simp at h

theorem lastNum_concat (g : UInt32) (l : List (UInt32 × Value)) (f : UInt32) (v : Value) :
    lastNum g (l ++ [(f, v)]) = match v with
      | .num v => if f = g then some v else lastNum g l
      | _ => lastNum g l := by
  rw [lastNum, List.foldl_append]
  rfl

theorem lastData_concat (g : UInt32) (l : List (UInt32 × Value)) (f : UInt32) (v : Value) :
    lastData g (l ++ [(f, v)]) = match v with
      | .data b => if f = g then some b else lastData g l
      | _ => lastData g l := by
  rw [lastData, List.foldl_append]
  rfl

/-! ## What is cut short -/

/-- A cut of two parts is in the first, or in the second. -/
theorem prefix_append_cases {α : Type*} {p a b : List α} (h : p <+: a ++ b) (hne : p ≠ a ++ b) :
    (p <+: a ∧ p ≠ a) ∨ ∃ q, p = a ++ q ∧ q <+: b ∧ q ≠ b := by
  obtain ⟨r, hr⟩ := h
  rcases List.append_eq_append_iff.mp hr with ⟨c, ha, hc⟩ | ⟨c, hp, hb⟩
  · cases c with
    | nil =>
      rw [List.append_nil] at ha
      rw [List.nil_append] at hc
      subst ha
      exact Or.inr ⟨[], (List.append_nil _).symm, List.nil_prefix, fun e => hne (by rw [← e, List.append_nil])⟩
    | cons x c => exact Or.inl ⟨⟨x :: c, ha.symm⟩, fun e => by simp [e] at ha⟩
  · exact Or.inr ⟨c, hp, ⟨r, hb.symm⟩, fun e => hne (by rw [hp, e])⟩

/-- A cut of a list of parts is in one of them. -/
theorem prefix_flatMap_cases {α β : Type*} {g : α → List β} {l : List α} {p : List β}
    (h : p <+: l.flatMap g) (hne : p ≠ l.flatMap g) :
    ∃ l₁ a l₂ q, l = l₁ ++ a :: l₂ ∧ p = l₁.flatMap g ++ q ∧ q <+: g a ∧ q ≠ g a := by
  induction l generalizing p with
  | nil => exact absurd (List.prefix_nil.mp h) hne
  | cons a l ih =>
    rw [List.flatMap_cons] at h hne
    rcases prefix_append_cases h hne with ⟨hp, hpa⟩ | ⟨q, rfl, hq, hqne⟩
    · exact ⟨[], a, l, p, rfl, rfl, hp, hpa⟩
    · obtain ⟨l₁, b, l₂, r, rfl, rfl, hr, hrne⟩ := ih hq hqne
      exact ⟨a :: l₁, b, l₂, r, rfl, by rw [List.flatMap_cons, List.append_assoc], hr, hrne⟩

theorem readValue_prefix {f : Field} (hf : f.Sized) {q : Bytes} (hq : q <+: f.payload)
    (hne : q ≠ f.payload) : readValue f.wiretype q = none := by
  cases f with
  | num n v =>
    show (Varint.get q).map _ = none
    rw [Varint.get_prefix hq hne]
    rfl
  | data n b =>
    show (readBytes q).map _ = none
    rcases prefix_append_cases hq hne with ⟨hp, hpne⟩ | ⟨r, rfl, hr, hrne⟩
    · rw [readBytes, Varint.get_prefix hp hpne]
      rfl
    · have hn : (UInt64.ofNat b.length).toNat = b.length := by
        rw [UInt64.toNat_ofNat', Nat.mod_eq_of_lt hf]
      have hshort : r.length < b.length := by
        rcases Nat.lt_or_ge r.length b.length with h | h
        · exact h
        · exact absurd (hr.eq_of_length_le h) hrne
      rw [readBytes, Varint.get_put]
      dsimp only
      rw [hn, if_pos hshort]
      rfl

/-- What is left of a field is no field. -/
theorem readFields_cut {f : Field} (hf : f.Sized) {q : Bytes} (hq : q <+: f.bytes) (hne : q ≠ f.bytes)
    (fuel : Nat) (s : σ) (hok : (readFields start store fuel s q).2 = true) :
    readFields start store fuel s q = (s, true) := by
  cases q with
  | nil => exact readFields_nil fuel s
  | cons x q =>
    cases fuel with
    | zero => simp [readFields] at hok
    | succ fuel =>
      rw [readFields] at hok
      rcases prefix_append_cases hq hne with ⟨hp, hpne⟩ | ⟨r, hr, hr', hrne⟩
      · rw [readTag, if_neg (List.cons_ne_nil x q), Varint.get_prefix hp hpne] at hok
        simp at hok
      · rw [hr, readTag_put] at hok
        dsimp only at hok
        cases hs : start s f.number f.wiretype with
        | none => simp [hs] at hok
        | some s' => simp [hs, readValue_prefix hf hr' hrne] at hok

variable (start store) in
/-- **Cut.** -/
theorem readFields_prefix {l : List Field} (hl : ∀ f ∈ l, f.Sized) {p : Bytes}
    (hp : p <+: l.flatMap Field.bytes) (hne : p ≠ l.flatMap Field.bytes) {fuel : Nat}
    (hfuel : p.length ≤ fuel) (s : σ) (hok : (readFields start store fuel s p).2 = true) :
    ∃ l₁ f l₂, l = l₁ ++ f :: l₂ ∧ readFields start store fuel s p = runFields start store s l₁ := by
  obtain ⟨l₁, f, l₂, q, rfl, rfl, hq, hqne⟩ := prefix_flatMap_cases hp hne
  refine ⟨l₁, f, l₂, rfl, ?_⟩
  have hlen := length_le_flatMap l₁
  rw [List.length_append] at hfuel
  obtain ⟨k, rfl⟩ : ∃ k, fuel = l₁.length + k := ⟨fuel - l₁.length, by omega⟩
  have h₁ : ∀ g ∈ l₁, g.Sized := fun g hg => hl g (List.mem_append_left _ hg)
  have hf : f.Sized := hl f (by simp)
  rw [readFields_append start store h₁] at hok ⊢
  split at hok
  · rename_i hrun
    rw [if_pos hrun, readFields_cut hf hq hqne k _ hok, ← hrun]
  · simp at hok

end Read

/-! ## Lengths -/

section Lengths
variable {f : UInt32} {k n : Nat}

theorem length_put_tagOf {wt : UInt64} (hwt : wt.toNat < 8) (hf : f.toNat < 16 * 128 ^ k) :
    (Varint.put (tagOf f wt)).length ≤ k + 1 := by
  refine Varint.length_put_le ?_ (Nat.le_add_left 1 k)
  rw [toNat_tagOf f hwt, Nat.pow_succ]
  omega

theorem length_put_ofNat (hn : n < 128 ^ (k + 1)) : (Varint.put (UInt64.ofNat n)).length ≤ k + 1 := by
  refine Varint.length_put_le ?_ (Nat.le_add_left 1 k)
  rw [UInt64.toNat_ofNat']
  exact Nat.lt_of_le_of_lt (Nat.mod_le _ _) hn

/-- A number under a small one. -/
theorem length_num {v : UInt64} (hf : f < 16) (hv : (Varint.put v).length ≤ n) :
    (Field.num f v).bytes.length ≤ n + 1 := by
  have hf' : f.toNat < 16 * 128 ^ 0 := UInt32.lt_iff_toNat_lt.mp hf
  have htag : (Varint.put (tagOf f wtVarint)).length ≤ 1 := length_put_tagOf (by decide) hf'
  rw [Field.bytes, Field.payload, List.length_append, Field.number, Field.wiretype]
  omega

theorem length_num_le (v : UInt64) (hf : f < 16) : (Field.num f v).bytes.length ≤ 11 :=
  length_num hf (Varint.length_put_le_ten v)

theorem length_num32 (v : UInt32) (hf : f < 16) : (Field.num f v.toUInt64).bytes.length ≤ 6 := by
  refine length_num hf (Varint.length_put_le ?_ (by decide))
  have hlt := v.toNat_lt
  rw [UInt32.toNat_toUInt64]
  omega

/-- The tag, the length and the bytes. -/
theorem length_data {b : Bytes} (htag : (Varint.put (tagOf f wtLen)).length ≤ k)
    (hput : (Varint.put (UInt64.ofNat b.length)).length ≤ n) :
    (Field.data f b).bytes.length ≤ b.length + (k + n) := by
  rw [Field.bytes, Field.payload, List.length_append, List.length_append, Field.number, Field.wiretype]
  omega

theorem length_data_short (b : Bytes) (hf : f < 16) (hb : b.length < 128) :
    (Field.data f b).bytes.length ≤ b.length + 2 := by
  have hf' : f.toNat < 16 * 128 ^ 0 := UInt32.lt_iff_toNat_lt.mp hf
  have hb' : b.length < 128 ^ (0 + 1) := hb
  exact length_data (length_put_tagOf (by decide) hf') (length_put_ofNat hb')

theorem length_data_le (b : Bytes) (hf : f < 32) (hb : b.length < 2 ^ 14) :
    (Field.data f b).bytes.length ≤ b.length + 4 := by
  have hf' : f.toNat < 16 * 128 ^ 1 := Nat.lt_trans (UInt32.lt_iff_toNat_lt.mp hf) (by decide)
  have hb' : b.length < 128 ^ (1 + 1) := hb
  exact length_data (length_put_tagOf (by decide) hf') (length_put_ofNat hb')

end Lengths

end Pbuf

end Amisync

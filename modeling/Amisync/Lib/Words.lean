import Mathlib.Data.Nat.Bitwise

/-!
# Words as bytes

A word of 16, 32 or 64 bits as its bytes, the most significant first.

* `get16_put16`, `get32_put32`, `get64_put64`: the bytes of a word put together again.
-/

namespace Words

def put16 (v : UInt16) : List UInt8 := [(v >>> 8).toUInt8, v.toUInt8]

def get16 : List UInt8 → UInt16
  | a :: b :: _ => a.toUInt16 <<< 8 ||| b.toUInt16
  | _ => 0

def put32 (v : UInt32) : List UInt8 :=
  [(v >>> 24).toUInt8, (v >>> 16).toUInt8, (v >>> 8).toUInt8, v.toUInt8]

def get32 : List UInt8 → UInt32
  | a :: b :: c :: d :: _ =>
    a.toUInt32 <<< 24 ||| b.toUInt32 <<< 16 ||| c.toUInt32 <<< 8 ||| d.toUInt32
  | _ => 0

def put64 (v : UInt64) : List UInt8 := put32 (v >>> 32).toUInt32 ++ put32 v.toUInt32

def get64 (l : List UInt8) : UInt64 :=
  (get32 l).toUInt64 <<< 32 ||| (get32 (l.drop 4)).toUInt64

@[simp] theorem length_put16 (v : UInt16) : (put16 v).length = 2 := rfl

@[simp] theorem length_put32 (v : UInt32) : (put32 v).length = 4 := rfl

@[simp] theorem length_put64 (v : UInt64) : (put64 v).length = 8 := rfl

/-- Parts of a word that do not overlap. -/
theorem or_eq_add {a b : Nat} (i : Nat) (ha : 2 ^ i ∣ a) (hb : b < 2 ^ i) : a ||| b = a + b := by
  obtain ⟨c, rfl⟩ := ha
  rw [Nat.mul_comm, ← Nat.shiftLeft_eq, Nat.shiftLeft_add_eq_or_of_lt hb]

theorem or_bytes {a b c d : Nat} (ha : 2 ^ 24 ∣ a) (hb : 2 ^ 16 ∣ b) (hb' : b < 2 ^ 24)
    (hc : 2 ^ 8 ∣ c) (hc' : c < 2 ^ 16) (hd : d < 2 ^ 8) : a ||| b ||| c ||| d = a + b + c + d := by
  rw [or_eq_add 24 ha hb', or_eq_add 16 (by omega) hc', or_eq_add 8 (by omega) hd]

/-- **Words of 16 bits.** -/
theorem get16_put16 (v : UInt16) (rest : List UInt8) : get16 (put16 v ++ rest) = v := by
  have hv : v.toNat < 2 ^ 16 := v.toNat_lt
  apply UInt16.toNat_inj.mp
  simp only [put16, List.cons_append, get16, UInt16.toNat_or, UInt16.toNat_shiftLeft,
    UInt8.toNat_toUInt16, UInt16.toNat_toUInt8, UInt16.toNat_shiftRight, Nat.shiftLeft_eq,
    Nat.shiftRight_eq_div_pow, UInt16.reduceToNat, Nat.reduceMod, Nat.reducePow]
  rw [or_eq_add 8 (by omega) (by omega)]
  omega

/-- **Words of 32 bits.** -/
theorem get32_put32 (v : UInt32) (rest : List UInt8) : get32 (put32 v ++ rest) = v := by
  have hv : v.toNat < 2 ^ 32 := v.toNat_lt
  apply UInt32.toNat_inj.mp
  simp only [put32, List.cons_append, get32, UInt32.toNat_or, UInt32.toNat_shiftLeft,
    UInt8.toNat_toUInt32, UInt32.toNat_toUInt8, UInt32.toNat_shiftRight, Nat.shiftLeft_eq,
    Nat.shiftRight_eq_div_pow, UInt32.reduceToNat, Nat.reduceMod, Nat.reducePow]
  rw [or_bytes (by omega) (by omega) (by omega) (by omega) (by omega) (by omega)]
  omega

/-- Two bytes are a word. -/
theorem put16_get16 {l : List UInt8} (h : l.length = 2) : put16 (get16 l) = l := by
  obtain ⟨a, b, rfl⟩ : ∃ a b, l = [a, b] := by
    match l, h with
    | [a, b], _ => exact ⟨a, b, rfl⟩
  have ha : a.toNat < 2 ^ 8 := a.toNat_lt
  have hb : b.toNat < 2 ^ 8 := b.toNat_lt
  have hsum : (get16 [a, b]).toNat = a.toNat * 2 ^ 8 + b.toNat := by
    simp only [get16, UInt16.toNat_or, UInt16.toNat_shiftLeft, UInt8.toNat_toUInt16,
      Nat.shiftLeft_eq, UInt16.reduceToNat, Nat.reduceMod, Nat.reducePow]
    rw [or_eq_add 8 (by omega) (by omega)]
    omega
  simp only [put16, List.cons.injEq, and_true, ← UInt8.toNat_inj, UInt16.toNat_toUInt8,
    UInt16.toNat_shiftRight, hsum, Nat.shiftRight_eq_div_pow, UInt16.reduceToNat, Nat.reduceMod,
    Nat.reducePow]
  omega

/-- Four bytes are a word. -/
theorem put32_get32 {l : List UInt8} (h : l.length = 4) : put32 (get32 l) = l := by
  obtain ⟨a, b, c, d, rfl⟩ : ∃ a b c d, l = [a, b, c, d] := by
    match l, h with
    | [a, b, c, d], _ => exact ⟨a, b, c, d, rfl⟩
  have ha : a.toNat < 2 ^ 8 := a.toNat_lt
  have hb : b.toNat < 2 ^ 8 := b.toNat_lt
  have hc : c.toNat < 2 ^ 8 := c.toNat_lt
  have hd : d.toNat < 2 ^ 8 := d.toNat_lt
  have hsum : (get32 [a, b, c, d]).toNat =
      a.toNat * 2 ^ 24 + b.toNat * 2 ^ 16 + c.toNat * 2 ^ 8 + d.toNat := by
    simp only [get32, UInt32.toNat_or, UInt32.toNat_shiftLeft, UInt8.toNat_toUInt32,
      Nat.shiftLeft_eq, UInt32.reduceToNat, Nat.reduceMod, Nat.reducePow]
    rw [or_bytes (by omega) (by omega) (by omega) (by omega) (by omega) (by omega)]
    omega
  simp only [put32, List.cons.injEq, and_true, ← UInt8.toNat_inj, UInt32.toNat_toUInt8,
    UInt32.toNat_shiftRight, hsum, Nat.shiftRight_eq_div_pow, UInt32.reduceToNat, Nat.reduceMod,
    Nat.reducePow]
  omega

/-- **Words of 64 bits.** -/
theorem get64_put64 (v : UInt64) (rest : List UInt8) : get64 (put64 v ++ rest) = v := by
  have hv : v.toNat < 2 ^ 64 := v.toNat_lt
  have hlow : (put64 v ++ rest).drop 4 = put32 v.toUInt32 ++ rest := rfl
  rw [get64, hlow, get32_put32, put64, List.append_assoc, get32_put32]
  apply UInt64.toNat_inj.mp
  simp only [UInt64.toNat_or, UInt64.toNat_shiftLeft, UInt32.toNat_toUInt64, UInt64.toNat_toUInt32,
    UInt64.toNat_shiftRight, Nat.shiftLeft_eq, Nat.shiftRight_eq_div_pow, UInt64.reduceToNat,
    Nat.reduceMod, Nat.reducePow]
  rw [or_eq_add 32 (by omega) (by omega)]
  omega

end Words

import Amisync.Lib.Words
import Mathlib.Data.Nat.Log

/-!
# Variable-length integers

A 64-bit word in groups of seven bits, the least significant first; every byte
but the last has its top bit set.

* `get_put`: a word read back, whatever follows it.
* `get_prefix`: a word that is cut short is not read.
* `length_put`, `length_put_le`: how long a word of a given size is.
-/

namespace Varint

open Words

/-- The groups of `v`, at most `fuel` of them. -/
def groups : Nat → UInt64 → List UInt8
  | 0, _ => []
  | fuel + 1, v =>
    let b := (v &&& 0x7f).toUInt8
    if v >>> 7 ≠ 0 then (b ||| 0x80) :: groups fuel (v >>> 7) else [b]

def put (v : UInt64) : List UInt8 := groups 10 v

/-- Read on at bit `shift`, with `fuel` bytes still allowed. -/
def gather : Nat → UInt64 → UInt64 → List UInt8 → Option (UInt64 × List UInt8)
  | 0, _, _, _ => none
  | _ + 1, _, _, [] => none
  | fuel + 1, value, shift, b :: rest =>
    let value := value ||| (b &&& 0x7f).toUInt64 <<< shift
    if b &&& 0x80 = 0 then some (value, rest) else gather fuel value (shift + 7) rest

def get (l : List UInt8) : Option (UInt64 × List UInt8) := gather 10 0 0 l

/-! ## Bytes -/

theorem toNat_shift (v : UInt64) : (v >>> 7).toNat = v.toNat / 128 := by
  simp [UInt64.toNat_shiftRight, Nat.shiftRight_eq_div_pow]

theorem toNat_low (v : UInt64) : ((v &&& 0x7f).toUInt8).toNat = v.toNat % 128 := by
  have hmask : (0x7f : UInt64).toNat = 2 ^ 7 - 1 := rfl
  rw [UInt64.toNat_toUInt8, UInt64.toNat_and, hmask, Nat.and_two_pow_sub_one_eq_mod]
  omega

theorem toNat_more {b : UInt8} (h : b.toNat < 128) : (b ||| 0x80).toNat = b.toNat + 128 := by
  have htop : (0x80 : UInt8).toNat = 128 := rfl
  rw [UInt8.toNat_or, htop, Nat.or_comm, or_eq_add 7 (by omega) h, Nat.add_comm]

theorem toNat_payload (b : UInt8) : (b &&& 0x7f).toUInt64.toNat = b.toNat % 128 := by
  have hmask : (0x7f : UInt8).toNat = 2 ^ 7 - 1 := rfl
  rw [UInt8.toNat_toUInt64, UInt8.toNat_and, hmask, Nat.and_two_pow_sub_one_eq_mod]

/-- The top bit. -/
theorem last_iff (b : UInt8) : b &&& 0x80 = 0 ↔ b.toNat < 128 := by
  have htop : (0x80 : UInt8).toNat = 2 ^ 7 := rfl
  have hb : b.toNat < 256 := b.toNat_lt
  rw [← UInt8.toNat_inj, UInt8.toNat_and, htop, Nat.and_two_pow, UInt8.toNat_zero,
    Nat.testBit_eq_decide_div_mod_eq]
  simp only [Nat.reducePow]
  by_cases h : b.toNat < 128
  · have hz : b.toNat / 128 % 2 = 0 := by omega
    simp [h, hz]
  · have hz : b.toNat / 128 % 2 = 1 := by omega
    simp [h, hz]

theorem toNat_byte (v : UInt64) : ((v &&& 0x7f).toUInt8 ||| 0x80).toNat = v.toNat % 128 + 128 := by
  have hlow := toNat_low v
  rw [toNat_more (by omega), hlow]

theorem not_last (v : UInt64) : ¬ ((v &&& 0x7f).toUInt8 ||| 0x80) &&& 0x80 = 0 := by
  rw [last_iff, toNat_byte]
  omega

theorem groups_succ (fuel : Nat) (v : UInt64) : groups (fuel + 1) v =
    if v >>> 7 ≠ 0 then ((v &&& 0x7f).toUInt8 ||| 0x80) :: groups fuel (v >>> 7)
    else [(v &&& 0x7f).toUInt8] := rfl

theorem shift_ne_zero {v : UInt64} : v >>> 7 ≠ 0 ↔ 128 ≤ v.toNat := by
  rw [ne_eq, ← UInt64.toNat_inj, toNat_shift, UInt64.toNat_zero]
  omega

theorem put_ne_nil (v : UInt64) : put v ≠ [] := by
  rw [put, groups_succ]
  split <;> simp

/-! ## Reading back -/

/-- The bits read so far are below `s`, those to come are not. -/
theorem toNat_gathered {value shift : UInt64} {s p : Nat} (hs : shift.toNat = s) (hs64 : s < 64)
    (hvalue : value.toNat < 2 ^ s) {b : UInt8} (hb : b.toNat % 128 = p) (hp : p * 2 ^ s < 2 ^ 64) :
    (value ||| (b &&& 0x7f).toUInt64 <<< shift).toNat = value.toNat + p * 2 ^ s := by
  rw [UInt64.toNat_or, UInt64.toNat_shiftLeft, toNat_payload, hb, hs, Nat.mod_eq_of_lt hs64,
    Nat.shiftLeft_eq, Nat.mod_eq_of_lt hp, Nat.or_comm, or_eq_add s (Nat.dvd_mul_left ..) hvalue,
    Nat.add_comm]

/-- **Loop.** The reader is at group `k`; the invariant is on the bits it has. -/
theorem gather_groups (m k : Nat) (hk : k ≤ 9) (value shift v : UInt64) (rest : List UInt8)
    (hs : shift.toNat = 7 * k) (hvalue : value.toNat < 2 ^ (7 * k))
    (hv : v.toNat * 2 ^ (7 * k) < 2 ^ 64) (hm : v.toNat < 128 ^ (m + 1)) :
    ∃ w, gather (10 - k) value shift (groups (m + 1) v ++ rest) = some (w, rest) ∧
      w.toNat = value.toNat + v.toNat * 2 ^ (7 * k) := by
  obtain ⟨n, hn⟩ : ∃ n, 10 - k = n + 1 := ⟨9 - k, by omega⟩
  have hpart : v.toNat % 128 * 2 ^ (7 * k) < 2 ^ 64 :=
    Nat.lt_of_le_of_lt (Nat.mul_le_mul_right _ (Nat.mod_le ..)) hv
  have hlow := toNat_low v
  induction m generalizing k value shift v n with
  | zero =>
    have hlast : ¬ v >>> 7 ≠ 0 := fun h => by
      have := shift_ne_zero.mp h
      omega
    have hfew : v.toNat % 128 = v.toNat := Nat.mod_eq_of_lt (by omega)
    rw [hfew] at hlow hpart
    rw [groups_succ, if_neg hlast, hn, List.singleton_append, gather, if_pos ((last_iff _).mpr (by omega))]
    exact ⟨_, rfl, toNat_gathered hs (by omega) hvalue (by omega) hpart⟩
  | succ m ih =>
    rw [groups_succ, hn]
    by_cases hmore : v >>> 7 ≠ 0
    · have hbig := shift_ne_zero.mp hmore
      have hbyte := toNat_byte v
      rw [if_pos hmore, List.cons_append, gather, if_neg (not_last v)]
      have hg := toNat_gathered (b := (v &&& 0x7f).toUInt8 ||| 0x80) (p := v.toNat % 128) hs (by omega)
        hvalue (by omega) hpart
      -- a group is left, so there is room for it
      have hpow : 2 ^ (7 * (k + 1)) = 128 * 2 ^ (7 * k) := by
        rw [Nat.mul_add, Nat.pow_add, Nat.mul_comm]
      have hroom : 2 ^ (7 * (k + 1)) < 2 ^ 64 := by
        rw [hpow]
        exact Nat.lt_of_le_of_lt (Nat.mul_le_mul_right _ hbig) hv
      have hk9 : 7 * (k + 1) < 64 := (Nat.pow_lt_pow_iff_right (by decide)).mp hroom
      have hsplit : v.toNat / 128 * (128 * 2 ^ (7 * k)) + v.toNat % 128 * 2 ^ (7 * k) =
          v.toNat * 2 ^ (7 * k) := by
        rw [← Nat.mul_assoc, ← Nat.add_mul]
        congr 1
        omega
      have hshift : (shift + 7).toNat = 7 * (k + 1) := by
        rw [UInt64.toNat_add, hs]
        show (7 * k + 7) % 2 ^ 64 = _
        omega
      have hvalue' : value.toNat + v.toNat % 128 * 2 ^ (7 * k) < 2 ^ (7 * (k + 1)) := by
        have hle : v.toNat % 128 * 2 ^ (7 * k) ≤ 127 * 2 ^ (7 * k) :=
          Nat.mul_le_mul_right _ (by omega)
        omega
      obtain ⟨w, hw, hval⟩ := ih (k + 1) (by omega) _ (shift + 7) (v >>> 7) hshift (by rw [hg]; exact hvalue')
        (by rw [toNat_shift, hpow]; omega) (by rw [toNat_shift]; omega) (n - 1) (by omega)
        (Nat.lt_of_le_of_lt (Nat.mul_le_mul_right _ (Nat.mod_le ..))
          (by rw [toNat_shift, hpow]; omega)) (toNat_low _)
      have hfuel : 10 - (k + 1) = n := by omega
      rw [hfuel] at hw
      refine ⟨w, hw, ?_⟩
      rw [hval, hg, toNat_shift, hpow]
      omega
    · have hsmall : v.toNat < 128 := by
        by_contra h
        exact hmore (shift_ne_zero.mpr (by omega))
      have hfew : v.toNat % 128 = v.toNat := Nat.mod_eq_of_lt hsmall
      rw [hfew] at hlow hpart
      rw [if_neg hmore, List.singleton_append, gather, if_pos ((last_iff _).mpr (by omega))]
      exact ⟨_, rfl, toNat_gathered hs (by omega) hvalue (by omega) hpart⟩

/-- **Round trip.** -/
theorem get_put (v : UInt64) (rest : List UInt8) : get (put v ++ rest) = some (v, rest) := by
  have hv : v.toNat < 2 ^ 64 := v.toNat_lt
  obtain ⟨w, hw, hval⟩ := gather_groups 9 0 (by decide) 0 0 v rest rfl (by decide)
    (by simpa using hv) (by omega)
  have hwv : w = v := by
    apply UInt64.toNat_inj.mp
    simpa using hval
  rw [← hwv]
  exact hwv ▸ hw

/-! ## Lengths and cuts -/

/-- A reader goes on. -/
theorem length_gather {fuel : Nat} {value shift v : UInt64} {l rest : List UInt8}
    (h : gather fuel value shift l = some (v, rest)) : rest.length < l.length := by
  induction fuel generalizing value shift l with
  | zero => simp [gather] at h
  | succ fuel ih =>
    cases l with
    | nil => simp [gather] at h
    | cons b l =>
      rw [gather] at h
      rw [List.length_cons]
      split at h
      · cases h
        omega
      · have := ih h
        omega

theorem length_get {v : UInt64} {l rest : List UInt8} (h : get l = some (v, rest)) :
    rest.length < l.length := length_gather h

/-- The number of groups of a value. -/
def size (n : Nat) : Nat := Nat.log 128 n + 1

theorem length_groups (fuel : Nat) (v : UInt64) (hv : v.toNat < 128 ^ fuel) (hpos : 0 < fuel) :
    (groups fuel v).length = size v.toNat := by
  induction fuel generalizing v with
  | zero => exact absurd hpos (Nat.lt_irrefl 0)
  | succ fuel ih =>
    rw [groups_succ, size]
    split
    · rename_i hmore
      have hbig := shift_ne_zero.mp hmore
      have hfuel : 0 < fuel := by
        apply Nat.pos_of_ne_zero
        rintro rfl
        rw [Nat.zero_add, Nat.pow_one] at hv
        omega
      have hshift : (v >>> 7).toNat < 128 ^ fuel := by
        rw [toNat_shift, Nat.div_lt_iff_lt_mul (by decide), ← Nat.pow_succ]
        exact hv
      rw [List.length_cons, ih (v >>> 7) hshift hfuel, toNat_shift, size,
        Nat.log_of_one_lt_of_le (by decide) hbig]
    · rename_i hlast
      rw [shift_ne_zero, Nat.not_le] at hlast
      rw [Nat.log_of_lt hlast]
      rfl

theorem length_put (v : UInt64) : (put v).length = size v.toNat :=
  length_groups 10 v (Nat.lt_trans v.toNat_lt (by decide)) (by decide)

theorem size_le {n k : Nat} (hn : n < 128 ^ k) (hk : 1 ≤ k) : size n ≤ k :=
  Nat.log_lt_of_lt_pow' (Nat.pos_iff_ne_zero.mp hk) hn

theorem length_put_le {n : Nat} {v : UInt64} (hv : v.toNat < 128 ^ n) (hn : 1 ≤ n) :
    (put v).length ≤ n := by
  rw [length_put]
  exact size_le hv hn

theorem length_put_le_ten (v : UInt64) : (put v).length ≤ 10 :=
  length_put_le (Nat.lt_trans v.toNat_lt (by decide)) (by decide)

/-- Every byte but the last says that there is more. -/
theorem gather_groups_prefix (m n : Nat) (value shift v : UInt64) {p : List UInt8}
    (hp : p <+: groups m v) (hne : p ≠ groups m v) : gather n value shift p = none := by
  induction m generalizing n value shift v p with
  | zero => exact absurd (List.prefix_nil.mp hp) hne
  | succ m ih =>
    rw [groups_succ] at hp hne
    cases p with
    | nil => cases n <;> rfl
    | cons b p =>
      cases n with
      | zero => rfl
      | succ n =>
        split at hp
        · rename_i hmore
          rw [if_pos hmore] at hne
          obtain ⟨hb, htail⟩ := List.cons_prefix_cons.mp hp
          subst hb
          rw [gather, if_neg (not_last v)]
          exact ih n _ _ _ htail fun e => hne (e ▸ rfl)
        · rename_i hmore
          rw [if_neg hmore] at hne
          obtain ⟨hb, htail⟩ := List.cons_prefix_cons.mp hp
          subst hb
          rw [List.prefix_nil.mp htail] at hne
          exact absurd rfl hne

/-- **Cut.** -/
theorem get_prefix {v : UInt64} {p : List UInt8} (hp : p <+: put v) (hne : p ≠ put v) :
    get p = none :=
  gather_groups_prefix 10 10 0 0 v hp hne

end Varint

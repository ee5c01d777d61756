import Mathlib.Data.Nat.Basic
import Mathlib.Data.List.Basic

/-!
# Texts and the bytes that spell them

UTF-8 as a relation between texts and byte strings, on top of the encoding of one
character that Lean itself has.

* `spell`: the bytes of a text; `Spelled`: the byte strings that are well formed.
* `encodeChar_ascii`, `encodeChar_high`: an ASCII character is its own byte, every byte
  of any other character is from 0x80 on.
* `Seq`: the table of well-formed sequences, by lead byte; `seq_encodeChar`,
  `encodeChar_of_seq`: they are the encodings of the characters.
* `Latin`, `latinBytes`: the texts that fit one byte a character, and these bytes.
-/

namespace Amisync.Lib.Utf8

open String (utf8EncodeChar)

def spell (text : List Char) : List UInt8 := text.flatMap utf8EncodeChar

/-- Well-formed UTF-8: the bytes of some text. -/
def Spelled (bs : List UInt8) : Prop := ∃ text, bs = spell text

@[simp] theorem spell_nil : spell [] = [] := rfl

@[simp] theorem spell_cons (c : Char) (text : List Char) :
    spell (c :: text) = utf8EncodeChar c ++ spell text := rfl

theorem spell_append (s t : List Char) : spell (s ++ t) = spell s ++ spell t := by
  induction s with
  | nil => rfl
  | cons c s ih => rw [List.cons_append, spell_cons, spell_cons, ih, List.append_assoc]

theorem Spelled.append {a b : List UInt8} (ha : Spelled a) (hb : Spelled b) : Spelled (a ++ b) := by
  obtain ⟨s, rfl⟩ := ha
  obtain ⟨t, rfl⟩ := hb
  exact ⟨s ++ t, (spell_append s t).symm⟩

/-! ## One character -/

theorem encodeChar_ascii {c : Char} (h : c.toNat < 0x80) : utf8EncodeChar c = [UInt8.ofNat c.toNat] := by
  have hv : c.val.toNat ≤ 0x7F := Nat.le_of_lt_succ h
  rw [utf8EncodeChar, if_pos hv]
  rfl

theorem encodeChar_high {c : Char} (h : 0x80 ≤ c.toNat) : ∀ b ∈ utf8EncodeChar c, 0x80 ≤ b.toNat := by
  have hv : ¬ c.val.toNat ≤ 0x7F := Nat.not_le.mpr h
  intro b hb
  simp only [utf8EncodeChar, if_neg hv] at hb
  split at hb
  · simp only [List.mem_cons, List.not_mem_nil, or_false] at hb
    rcases hb with rfl | rfl <;> rw [UInt8.toNat_ofNat'] <;> omega
  · split at hb
    · simp only [List.mem_cons, List.not_mem_nil, or_false] at hb
      rcases hb with rfl | rfl | rfl <;> rw [UInt8.toNat_ofNat'] <;> omega
    · simp only [List.mem_cons, List.not_mem_nil, or_false] at hb
      rcases hb with rfl | rfl | rfl | rfl <;> rw [UInt8.toNat_ofNat'] <;> omega

/-! ## The table of sequences -/

/-- A continuation byte. -/
def Tail (b : UInt8) : Prop := 0x80 ≤ b.toNat ∧ b.toNat ≤ 0xBF

/-- The shortest-form sequences and the code points they stand for. -/
inductive Seq : List UInt8 → Nat → Prop
  | one {a : UInt8} : a.toNat < 0x80 → Seq [a] a.toNat
  | two {a b : UInt8} : 0xC2 ≤ a.toNat → a.toNat < 0xE0 → Tail b →
      Seq [a, b] (a.toNat % 32 * 64 + b.toNat % 64)
  | three {a b c : UInt8} : 0xE0 ≤ a.toNat → a.toNat < 0xF0 → Tail b → Tail c →
      (a.toNat = 0xE0 → 0xA0 ≤ b.toNat) → (a.toNat = 0xED → b.toNat ≤ 0x9F) →
      Seq [a, b, c] ((a.toNat % 16 * 64 + b.toNat % 64) * 64 + c.toNat % 64)
  | four {a b c d : UInt8} : 0xF0 ≤ a.toNat → a.toNat < 0xF5 → Tail b → Tail c → Tail d →
      (a.toNat = 0xF0 → 0x90 ≤ b.toNat) → (a.toNat = 0xF4 → b.toNat ≤ 0x8F) →
      Seq [a, b, c, d] (((a.toNat % 8 * 64 + b.toNat % 64) * 64 + c.toNat % 64) * 64 + d.toNat % 64)

theorem toNat_ofNat {n : Nat} (h : n < 256) : (UInt8.ofNat n).toNat = n := by
  rw [UInt8.toNat_ofNat', Nat.mod_eq_of_lt h]

theorem eq_ofNat {b : UInt8} {n : Nat} (h : b.toNat = n) : b = UInt8.ofNat n := by
  rw [← h, UInt8.ofNat_toNat]

/-- The character of a code point. -/
theorem exists_char {n : Nat} (h : n < 0xD800 ∨ 0xDFFF < n ∧ n < 0x110000) :
    ∃ c : Char, c.toNat = n := by
  have hn : n < UInt32.size := by
    rw [UInt32.size]
    omega
  refine ⟨⟨UInt32.ofNat n, ?_⟩, ?_⟩
  · rw [UInt32.isValidChar, UInt32.toNat_ofNat_of_lt' hn]
    exact h
  · exact UInt32.toNat_ofNat_of_lt' hn

/-- The encoding of a character is in the table. -/
theorem seq_encodeChar (c : Char) : Seq (utf8EncodeChar c) c.toNat := by
  have hc : c.toNat = c.val.toNat := rfl
  have hvalid : c.val.toNat < 0xD800 ∨ 0xDFFF < c.val.toNat ∧ c.val.toNat < 0x110000 := c.valid
  rw [hc]
  generalize hn : c.val.toNat = v at hvalid
  simp only [utf8EncodeChar, hn]
  split
  · have ha := toNat_ofNat (n := v) (by omega)
    have h := @Seq.one (UInt8.ofNat v) (by omega)
    rwa [ha] at h
  · split
    · have ha := toNat_ofNat (n := v / 64 % 0x20 + 0xC0) (by omega)
      have hb := toNat_ofNat (n := v % 0x40 + 0x80) (by omega)
      have h := @Seq.two (UInt8.ofNat (v / 64 % 0x20 + 0xC0)) (UInt8.ofNat (v % 0x40 + 0x80))
        (by omega) (by omega) (by unfold Tail; omega)
      rw [ha, hb] at h
      convert h using 1
      omega
    · split
      · have ha := toNat_ofNat (n := v / 4096 % 0x10 + 0xE0) (by omega)
        have hb := toNat_ofNat (n := v / 64 % 0x40 + 0x80) (by omega)
        have hc := toNat_ofNat (n := v % 0x40 + 0x80) (by omega)
        have h := @Seq.three (UInt8.ofNat (v / 4096 % 0x10 + 0xE0))
          (UInt8.ofNat (v / 64 % 0x40 + 0x80)) (UInt8.ofNat (v % 0x40 + 0x80))
          (by omega) (by omega) (by unfold Tail; omega) (by unfold Tail; omega)
          (by omega) (by omega)
        rw [ha, hb, hc] at h
        convert h using 1
        omega
      · have ha := toNat_ofNat (n := v / 262144 % 0x08 + 0xF0) (by omega)
        have hb := toNat_ofNat (n := v / 4096 % 0x40 + 0x80) (by omega)
        have hc := toNat_ofNat (n := v / 64 % 0x40 + 0x80) (by omega)
        have hd := toNat_ofNat (n := v % 0x40 + 0x80) (by omega)
        have h := @Seq.four (UInt8.ofNat (v / 262144 % 0x08 + 0xF0))
          (UInt8.ofNat (v / 4096 % 0x40 + 0x80)) (UInt8.ofNat (v / 64 % 0x40 + 0x80))
          (UInt8.ofNat (v % 0x40 + 0x80)) (by omega) (by omega) (by unfold Tail; omega)
          (by unfold Tail; omega) (by unfold Tail; omega) (by omega) (by omega)
        rw [ha, hb, hc, hd] at h
        convert h using 1
        omega

/-- A sequence of the table is the encoding of its character. -/
theorem encodeChar_of_seq {s : List UInt8} {n : Nat} (h : Seq s n) :
    ∃ c : Char, c.toNat = n ∧ s = utf8EncodeChar c := by
  cases h with
  | @one a ha =>
    obtain ⟨c, hc⟩ := exists_char (n := a.toNat) (by omega)
    have hv : c.val.toNat = a.toNat := hc
    refine ⟨c, hc, ?_⟩
    rw [utf8EncodeChar, hv, if_pos (by omega), ← eq_ofNat rfl]
  | @two a b h1 h2 hb =>
    unfold Tail at hb
    obtain ⟨c, hc⟩ := exists_char (n := a.toNat % 32 * 64 + b.toNat % 64) (by omega)
    have hv : c.val.toNat = a.toNat % 32 * 64 + b.toNat % 64 := hc
    refine ⟨c, hc, ?_⟩
    rw [utf8EncodeChar, hv, if_neg (by omega), if_pos (by omega), ← @eq_ofNat a _ (by omega),
      ← @eq_ofNat b _ (by omega)]
  | @three a b d h1 h2 hb hd h3 h4 =>
    unfold Tail at hb hd
    obtain ⟨c, hc⟩ := exists_char
      (n := (a.toNat % 16 * 64 + b.toNat % 64) * 64 + d.toNat % 64) (by omega)
    have hv : c.val.toNat = (a.toNat % 16 * 64 + b.toNat % 64) * 64 + d.toNat % 64 := hc
    refine ⟨c, hc, ?_⟩
    rw [utf8EncodeChar, hv, if_neg (by omega), if_neg (by omega), if_pos (by omega),
      ← @eq_ofNat a _ (by omega), ← @eq_ofNat b _ (by omega), ← @eq_ofNat d _ (by omega)]
  | @four a b d e h1 h2 hb hd he h3 h4 =>
    unfold Tail at hb hd he
    obtain ⟨c, hc⟩ := exists_char
      (n := ((a.toNat % 8 * 64 + b.toNat % 64) * 64 + d.toNat % 64) * 64 + e.toNat % 64) (by omega)
    have hv : c.val.toNat =
        ((a.toNat % 8 * 64 + b.toNat % 64) * 64 + d.toNat % 64) * 64 + e.toNat % 64 := hc
    refine ⟨c, hc, ?_⟩
    rw [utf8EncodeChar, hv, if_neg (by omega), if_neg (by omega), if_neg (by omega),
      ← @eq_ofNat a _ (by omega), ← @eq_ofNat b _ (by omega), ← @eq_ofNat d _ (by omega),
      ← @eq_ofNat e _ (by omega)]

/-! ## Texts of Latin-1 characters -/

def Latin (text : List Char) : Prop := ∀ c ∈ text, c.toNat ≤ 0xFF

instance (text : List Char) : Decidable (Latin text) :=
  inferInstanceAs (Decidable (∀ c ∈ text, c.toNat ≤ 0xFF))

def latinBytes (text : List Char) : List UInt8 := text.map fun c => UInt8.ofNat c.toNat

theorem length_encodeChar_pos (c : Char) : 1 ≤ (utf8EncodeChar c).length :=
  List.length_pos_of_ne_nil String.utf8EncodeChar_ne_nil

theorem length_le_spell (text : List Char) : text.length ≤ (spell text).length := by
  induction text with
  | nil => simp
  | cons c text ih =>
    have := length_encodeChar_pos c
    simp only [spell_cons, List.length_append, List.length_cons]
    omega

theorem length_latinBytes_le (text : List Char) : (latinBytes text).length ≤ (spell text).length := by
  rw [latinBytes, List.length_map]
  exact length_le_spell text

end Amisync.Lib.Utf8

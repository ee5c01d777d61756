import Amisync.PathSafe
import Amisync.Lib.Utf8

/-!
# The two spellings of a name

What `name_to_local` and `name_from_local` do to a name, told by the texts its components
spell.

* `utf8Seq_iff`: `utf8_seq` accepts exactly the table of well-formed sequences.
* `utf8Class_spell`, `utf8Class_eq_invalid`: the classification of a component is that of
  its text.
* `toLocal_stays_inside`: no byte string becomes a path out of the folder.
* `diskName_survives`: a name read off the disk is UTF-8 and leads back to its bytes.
* `wireName_survives_iff`: when a name from a peer is read back as itself.
-/

namespace Amisync

open Amisync.Lib.Utf8
open String (utf8EncodeChar)

/-! ## The decoder and the table -/

/-- A lead byte, by its value. -/
theorem utf8Seq_cons (b : UInt8) (rest : Bytes) : utf8Seq (b :: rest) =
    if b.toNat < 0x80 then some (b.toNat, rest)
    else if b.toNat < 0xC2 then none
    else if b.toNat < 0xE0 then utf8Tail 1 0x80 0xBF (b.toNat % 32) rest
    else if b.toNat < 0xF0 then
      utf8Tail 2 (if b.toNat = 0xE0 then 0xA0 else 0x80) (if b.toNat = 0xED then 0x9F else 0xBF)
        (b.toNat % 16) rest
    else if b.toNat < 0xF5 then
      utf8Tail 3 (if b.toNat = 0xF0 then 0x90 else 0x80) (if b.toNat = 0xF4 then 0x8F else 0xBF)
        (b.toNat % 8) rest
    else none := by
  have heq : ∀ k : UInt8, (b = k) = (b.toNat = k.toNat) := fun k => by rw [UInt8.toNat_inj]
  simp only [utf8Seq, UInt8.lt_iff_toNat_lt, heq]
  rfl

/-- The last continuation byte has been read. -/
theorem utf8Tail_zero {lo hi : UInt8} {cp cp' : Nat} {bs rest : Bytes} :
    utf8Tail 0 lo hi cp bs = some (cp', rest) ↔ cp = cp' ∧ bs = rest := by
  rw [utf8Tail, Option.some.injEq, Prod.mk.injEq]

/-- One more continuation byte. -/
theorem utf8Tail_succ {n : Nat} {lo hi : UInt8} {cp cp' : Nat} {bs rest : Bytes} :
    utf8Tail (n + 1) lo hi cp bs = some (cp', rest) ↔
      ∃ b bs', bs = b :: bs' ∧ (lo.toNat ≤ b.toNat ∧ b.toNat ≤ hi.toNat) ∧
        utf8Tail n 0x80 0xBF (cp * 64 + b.toNat % 64) bs' = some (cp', rest) := by
  cases bs with
  | nil => simp [utf8Tail]
  | cons b bs =>
    simp only [utf8Tail, UInt8.lt_iff_toNat_lt]
    constructor
    · intro h
      split at h
      · simp at h
      · rename_i hb
        exact ⟨b, bs, rfl, by omega, h⟩
    · rintro ⟨b', bs', he, hb, h⟩
      obtain ⟨rfl, rfl⟩ := List.cons.inj he
      rwa [if_neg (by omega)]

/-- The second byte of a sequence: a continuation byte within the lead byte's own limits. -/
theorem second_iff {p q : Prop} [Decidable p] [Decidable q] {lo hi b : UInt8}
    (hlo : 0x80 ≤ lo.toNat) (hhi : hi.toNat ≤ 0xBF) :
    ((if p then lo else 0x80).toNat ≤ b.toNat ∧ b.toNat ≤ (if q then hi else 0xBF).toNat) ↔
      Tail b ∧ (p → lo.toNat ≤ b.toNat) ∧ (q → b.toNat ≤ hi.toNat) := by
  have h80 : (0x80 : UInt8).toNat = 0x80 := rfl
  have hBF : (0xBF : UInt8).toNat = 0xBF := rfl
  unfold Tail
  by_cases hp : p <;> by_cases hq : q <;> simp only [hp, hq, if_true, if_false, true_implies,
    false_implies, and_true, true_and, h80, hBF] <;> omega

/-- **Decoder.** `utf8_seq` accepts exactly what the table lists. -/
theorem utf8Seq_iff {bs rest : Bytes} {cp : Nat} :
    utf8Seq bs = some (cp, rest) ↔ ∃ s, Seq s cp ∧ bs = s ++ rest := by
  constructor
  · intro h
    cases bs with
    | nil => simp [utf8Seq] at h
    | cons a bs =>
      rw [utf8Seq_cons] at h
      split at h
      · rename_i h1
        rw [Option.some.injEq, Prod.mk.injEq] at h
        obtain ⟨rfl, rfl⟩ := h
        exact ⟨[a], .one h1, rfl⟩
      split at h
      · simp at h
      split at h
      · obtain ⟨b, bs', rfl, hb, h⟩ := utf8Tail_succ.mp h
        obtain ⟨rfl, rfl⟩ := utf8Tail_zero.mp h
        exact ⟨[a, b], .two (by omega) (by omega) hb, rfl⟩
      split at h
      · obtain ⟨b, bs', rfl, hb, h⟩ := utf8Tail_succ.mp h
        obtain ⟨c, r', rfl, hc, h⟩ := utf8Tail_succ.mp h
        obtain ⟨rfl, rfl⟩ := utf8Tail_zero.mp h
        obtain ⟨hb, hlo, hhi⟩ := (second_iff (by decide) (by decide)).mp hb
        exact ⟨[a, b, c], .three (by omega) (by omega) hb hc hlo hhi, rfl⟩
      split at h
      · obtain ⟨b, r, rfl, hb, h⟩ := utf8Tail_succ.mp h
        obtain ⟨c, r, rfl, hc, h⟩ := utf8Tail_succ.mp h
        obtain ⟨d, r, rfl, hd, h⟩ := utf8Tail_succ.mp h
        obtain ⟨rfl, rfl⟩ := utf8Tail_zero.mp h
        obtain ⟨hb, hlo, hhi⟩ := (second_iff (by decide) (by decide)).mp hb
        exact ⟨[a, b, c, d], .four (by omega) (by omega) hb hc hd hlo hhi, rfl⟩
      · simp at h
  · rintro ⟨s, hs, rfl⟩
    cases hs with
    | one h1 => rw [List.cons_append, utf8Seq_cons, if_pos h1, List.nil_append]
    | two h1 h2 hb =>
      rw [List.cons_append, utf8Seq_cons, if_neg (by omega), if_neg (by omega), if_pos h2]
      exact utf8Tail_succ.mpr ⟨_, _, rfl, hb, utf8Tail_zero.mpr ⟨rfl, rfl⟩⟩
    | three h1 h2 hb hc h3 h4 =>
      rw [List.cons_append, utf8Seq_cons, if_neg (by omega), if_neg (by omega), if_neg (by omega),
        if_pos h2]
      have hb := (@second_iff _ _ _ _ 0xA0 0x9F _ (by decide) (by decide)).mpr ⟨hb, h3, h4⟩
      exact utf8Tail_succ.mpr ⟨_, _, rfl, hb,
        utf8Tail_succ.mpr ⟨_, _, rfl, hc, utf8Tail_zero.mpr ⟨rfl, rfl⟩⟩⟩
    | four h1 h2 hb hc hd h3 h4 =>
      rw [List.cons_append, utf8Seq_cons, if_neg (by omega), if_neg (by omega), if_neg (by omega),
        if_neg (by omega), if_pos h2]
      have hb := (@second_iff _ _ _ _ 0x90 0x8F _ (by decide) (by decide)).mpr ⟨hb, h3, h4⟩
      exact utf8Tail_succ.mpr ⟨_, _, rfl, hb, utf8Tail_succ.mpr ⟨_, _, rfl, hc,
        utf8Tail_succ.mpr ⟨_, _, rfl, hd, utf8Tail_zero.mpr ⟨rfl, rfl⟩⟩⟩⟩

/-- What is decoded is one character. -/
theorem utf8Seq_eq_some {bs rest : Bytes} {cp : Nat} :
    utf8Seq bs = some (cp, rest) ↔ ∃ c : Char, c.toNat = cp ∧ bs = utf8EncodeChar c ++ rest := by
  rw [utf8Seq_iff]
  constructor
  · rintro ⟨s, hs, rfl⟩
    obtain ⟨c, hc, rfl⟩ := encodeChar_of_seq hs
    exact ⟨c, hc, rfl⟩
  · rintro ⟨c, rfl, rfl⟩
    exact ⟨utf8EncodeChar c, seq_encodeChar c, rfl⟩

/-! ## A whole component -/

theorem utf8Points_spell (text : List Char) (fuel : Nat) (h : text.length ≤ fuel) :
    utf8Points fuel (spell text) = some (text.map Char.toNat) := by
  induction text generalizing fuel with
  | nil => cases fuel <;> rfl
  | cons c text ih =>
    cases fuel with
    | zero => simp at h
    | succ fuel =>
      have hseq : utf8Seq (spell (c :: text)) = some (c.toNat, spell text) :=
        utf8Seq_eq_some.mpr ⟨c, rfl, rfl⟩
      obtain ⟨x, xs, hx⟩ := List.exists_cons_of_ne_nil (String.utf8EncodeChar_ne_nil (c := c))
      rw [spell_cons, hx, List.cons_append] at hseq ⊢
      rw [utf8Points, hseq]
      dsimp only
      rw [ih fuel (by simpa using h)]
      rfl

theorem spell_of_utf8Points {fuel : Nat} {bs : Bytes} {cps : List Nat}
    (h : utf8Points fuel bs = some cps) : ∃ text, bs = spell text ∧ text.map Char.toNat = cps := by
  induction fuel generalizing bs cps with
  | zero =>
    cases bs with
    | nil => exact ⟨[], rfl, Option.some.inj h⟩
    | cons b bs => simp [utf8Points] at h
  | succ fuel ih =>
    cases bs with
    | nil => exact ⟨[], rfl, Option.some.inj h⟩
    | cons b bs =>
      rw [utf8Points] at h
      cases hseq : utf8Seq (b :: bs) with
      | none => simp [hseq] at h
      | some r =>
        obtain ⟨cp, rest⟩ := r
        obtain ⟨c, rfl, hbs⟩ := utf8Seq_eq_some.mp hseq
        rw [hseq] at h
        obtain ⟨cps', hcps, rfl⟩ := Option.map_eq_some_iff.mp h
        obtain ⟨text, rfl, rfl⟩ := ih hcps
        exact ⟨c :: text, hbs, rfl⟩

/-- The classification is by the text. -/
theorem utf8Class_spell (text : List Char) :
    utf8Class (spell text) = if Latin text then .latin else .wide := by
  rw [utf8Class, utf8Points_spell text (spell text).length (length_le_spell text)]
  dsimp only
  by_cases hl : Latin text
  · have hany : ((text.map Char.toNat).any fun cp => 0xFF < cp) = false := by
      simpa [Latin] using hl
    rw [hany, if_pos hl]
    rfl
  · have hany : ((text.map Char.toNat).any fun cp => 0xFF < cp) = true := by
      simpa [Latin] using hl
    rw [hany, if_neg hl]
    rfl

theorem utf8Class_eq_invalid {c : Bytes} : utf8Class c = .invalid ↔ ¬ Spelled c := by
  constructor
  · rintro h ⟨text, rfl⟩
    rw [utf8Class_spell] at h
    split at h <;> simp at h
  · intro h
    rw [utf8Class]
    cases hp : utf8Points c.length c with
    | none => rfl
    | some cps =>
      obtain ⟨text, ht, -⟩ := spell_of_utf8Points hp
      exact absurd ⟨text, ht⟩ h

/-- A component is wide exactly when it spells a text that goes beyond Latin-1. -/
theorem utf8Class_eq_wide {c : Bytes} :
    utf8Class c = .wide ↔ ∃ text, c = spell text ∧ ¬ Latin text := by
  constructor
  · intro h
    have hs : Spelled c := by
      by_contra hs
      rw [utf8Class_eq_invalid.mpr hs] at h
      simp at h
    obtain ⟨text, rfl⟩ := hs
    refine ⟨text, rfl, ?_⟩
    intro hl
    rw [utf8Class_spell, if_pos hl] at h
    simp at h
  · rintro ⟨text, rfl, hl⟩
    rw [utf8Class_spell, if_neg hl]

/-! ## The mappings, by the text -/

theorem componentToLocal_latin {text : List Char} (h : Latin text) :
    componentToLocal (spell text) = latinBytes text := by
  rw [componentToLocal, utf8Class_spell, if_pos h,
    utf8Points_spell text (spell text).length (length_le_spell text)]
  dsimp only
  rw [List.map_map]
  rfl

theorem componentToLocal_wide {text : List Char} (h : ¬ Latin text) :
    componentToLocal (spell text) = spell text := by
  rw [componentToLocal, utf8Class_spell, if_neg h]

theorem componentToLocal_invalid {c : Bytes} (h : ¬ Spelled c) : componentToLocal c = c := by
  rw [componentToLocal, utf8Class_eq_invalid.mpr h]

/-- A Latin-1 byte is written as the encoding of its character. -/
theorem byteFromLocal_eq {c : Char} (h : c.toNat ≤ 0xFF) :
    byteFromLocal (UInt8.ofNat c.toNat) = utf8EncodeChar c := by
  have hseq := utf8Seq_byteFromLocal (UInt8.ofNat c.toNat) []
  obtain ⟨c', hc', hb⟩ := utf8Seq_eq_some.mp hseq
  rw [toNat_ofNat (by omega)] at hc'
  have hcc : c' = c := by
    apply Char.ext
    exact UInt32.toNat_inj.mp hc'
  rwa [hcc, List.append_nil, List.append_nil] at hb

theorem flatMap_byteFromLocal {text : List Char} (h : Latin text) :
    (latinBytes text).flatMap byteFromLocal = spell text := by
  induction text with
  | nil => rfl
  | cons c text ih =>
    have hc : c.toNat ≤ 0xFF := h c List.mem_cons_self
    have ht : Latin text := fun x hx => h x (List.mem_cons_of_mem _ hx)
    rw [spell_cons, ← ih ht, ← byteFromLocal_eq hc]
    rfl

/-- The byte string read as Latin-1: always a text. -/
theorem spelled_flatMap (c : Bytes) : Spelled (c.flatMap byteFromLocal) := by
  induction c with
  | nil => exact ⟨[], rfl⟩
  | cons b c ih =>
    obtain ⟨ch, -, hb⟩ := utf8Seq_eq_some.mp (utf8Seq_byteFromLocal b [])
    rw [List.append_nil, List.append_nil] at hb
    rw [List.flatMap_cons]
    exact Spelled.append ⟨[ch], by simp [hb]⟩ ih

theorem spelled_componentFromLocal (c : Bytes) : Spelled (componentFromLocal c) := by
  unfold componentFromLocal
  split
  · rename_i hw
    obtain ⟨text, rfl, -⟩ := utf8Class_eq_wide.mp hw
    exact ⟨text, rfl⟩
  · exact spelled_flatMap c

/-! ## Names -/

/-- A byte of a joined name is a separator or a byte of a component. -/
theorem mem_joinComponents {b : UInt8} {cs : List Bytes} (h : b ∈ joinComponents cs) :
    b = slash ∨ ∃ c ∈ cs, b ∈ c := by
  induction cs with
  | nil => simp [joinComponents] at h
  | cons c cs ih =>
    cases cs with
    | nil => exact Or.inr ⟨c, List.mem_cons_self, h⟩
    | cons d ds =>
      rw [joinComponents, List.mem_append, List.mem_cons] at h
      rcases h with h | h | h
      · exact Or.inr ⟨c, List.mem_cons_self, h⟩
      · exact Or.inl h
      · rcases ih h with h | ⟨x, hx, hb⟩
        · exact Or.inl h
        · exact Or.inr ⟨x, List.mem_cons_of_mem _ hx, hb⟩

theorem mem_of_mem_components {name c : Bytes} {b : UInt8} (hc : c ∈ components name) (hb : b ∈ c) :
    b ∈ name := by
  induction name generalizing c with
  | nil =>
    simp only [components, List.mem_singleton] at hc
    exact hc ▸ hb
  | cons a rest ih =>
    rw [components] at hc
    split at hc
    · rcases List.mem_cons.mp hc with rfl | hc
      · simp at hb
      · exact List.mem_cons_of_mem _ (ih hc hb)
    · obtain ⟨d, ds, hd⟩ := List.exists_cons_of_ne_nil (components_ne_nil rest)
      rw [hd, consFirst] at hc
      rcases List.mem_cons.mp hc with rfl | hc
      · rcases List.mem_cons.mp hb with rfl | hb
        · exact List.mem_cons_self
        · exact List.mem_cons_of_mem _ (ih (hd ▸ List.mem_cons_self) hb)
      · exact List.mem_cons_of_mem _ (ih (hd ▸ List.mem_cons_of_mem _ hc) hb)

/-- Bytes in front of a name that hold no separator go to its first component. -/
theorem components_append {x : Bytes} (hx : slash ∉ x) {rest c : Bytes} {cs : List Bytes}
    (h : components rest = c :: cs) : components (x ++ rest) = (x ++ c) :: cs := by
  induction x with
  | nil => exact h
  | cons b x ih =>
    have hb : b ≠ slash := fun e => hx (e ▸ List.mem_cons_self)
    rw [List.cons_append, components_cons_of_ne hb, ih fun h => hx (List.mem_cons_of_mem _ h)]
    rfl

/-- The components of a text are texts. -/
theorem spelled_of_mem_components {name c : Bytes} (h : Spelled name) (hc : c ∈ components name) :
    Spelled c := by
  obtain ⟨text, rfl⟩ := h
  induction text generalizing c with
  | nil =>
    simp only [spell_nil, components, List.mem_singleton] at hc
    exact ⟨[], hc⟩
  | cons ch text ih =>
    obtain ⟨d, ds, hd⟩ := List.exists_cons_of_ne_nil (components_ne_nil (spell text))
    by_cases hs : slash ∈ utf8EncodeChar ch
    · -- the separator itself: it is one byte
      have hlow : ch.toNat < 0x80 := by
        by_contra hhigh
        exact absurd (encodeChar_high (Nat.le_of_not_lt hhigh) slash hs) (by decide)
      rw [encodeChar_ascii hlow, List.mem_singleton] at hs
      rw [spell_cons, encodeChar_ascii hlow, ← hs, List.cons_append, List.nil_append, components,
        if_pos rfl] at hc
      rcases List.mem_cons.mp hc with rfl | hc
      · exact ⟨[], rfl⟩
      · exact ih hc
    · rw [spell_cons, components_append hs hd] at hc
      rcases List.mem_cons.mp hc with rfl | hc
      · exact Spelled.append ⟨[ch], by simp⟩ (ih (hd ▸ List.mem_cons_self))
      · exact ih (hd ▸ List.mem_cons_of_mem _ hc)

theorem spelled_joinComponents {cs : List Bytes} (h : ∀ c ∈ cs, Spelled c) :
    Spelled (joinComponents cs) := by
  induction cs with
  | nil => exact ⟨[], rfl⟩
  | cons c cs ih =>
    cases cs with
    | nil => exact h c List.mem_cons_self
    | cons d ds =>
      have hrest := ih fun x hx => h x (List.mem_cons_of_mem _ hx)
      have hslash : Spelled [slash] := ⟨['/'], rfl⟩
      rw [joinComponents]
      exact Spelled.append (h c List.mem_cons_self) (Spelled.append hslash hrest)

/-! ## To the disk -/

/-- The ASCII bytes of a component are kept. -/
theorem mem_componentToLocal {c : Bytes} {b : UInt8} (hb : b.toNat < 0x80) :
    b ∈ componentToLocal c → b ∈ c := by
  intro h
  by_cases hs : Spelled c
  · obtain ⟨text, rfl⟩ := hs
    by_cases hl : Latin text
    · rw [componentToLocal_latin hl] at h
      obtain ⟨ch, hch, rfl⟩ := List.mem_map.mp h
      rw [toNat_ofNat (Nat.lt_succ_of_le (hl ch hch))] at hb
      refine List.mem_flatMap.mpr ⟨ch, hch, ?_⟩
      rw [encodeChar_ascii hb]
      exact List.mem_singleton_self _
    · rwa [componentToLocal_wide hl] at h
  · rwa [componentToLocal_invalid hs] at h

/-- A component that comes out as ASCII went in as that. -/
theorem componentToLocal_eq_self {c : Bytes} (h : ∀ b ∈ componentToLocal c, b.toNat < 0x80) :
    componentToLocal c = c := by
  by_cases hs : Spelled c
  · obtain ⟨text, rfl⟩ := hs
    by_cases hl : Latin text
    · rw [componentToLocal_latin hl] at h ⊢
      induction text with
      | nil => rfl
      | cons ch text ih =>
        have hch : ch.toNat < 0x80 := by
          have := h (UInt8.ofNat ch.toNat) List.mem_cons_self
          rwa [toNat_ofNat (Nat.lt_succ_of_le (hl ch List.mem_cons_self))] at this
        have ht := ih (fun b hb => h b (List.mem_cons_of_mem _ hb))
          fun x hx => hl x (List.mem_cons_of_mem _ hx)
        rw [spell_cons, encodeChar_ascii hch, ← ht]
        rfl
    · exact componentToLocal_wide hl
  · exact componentToLocal_invalid hs

theorem length_componentToLocal_le (c : Bytes) : (componentToLocal c).length ≤ c.length := by
  by_cases hs : Spelled c
  · obtain ⟨text, rfl⟩ := hs
    by_cases hl : Latin text
    · rw [componentToLocal_latin hl]
      exact length_latinBytes_le text
    · rw [componentToLocal_wide hl]
  · rw [componentToLocal_invalid hs]

theorem slash_not_mem_toLocal {c : Bytes} (h : slash ∉ c) : slash ∉ componentToLocal c :=
  fun hm => h (mem_componentToLocal (by decide) hm)

/-- A safe component is stored under a safe one. -/
theorem componentSafe_toLocal {c : Bytes} (h : componentSafe c = true) :
    componentSafe (componentToLocal c) = true := by
  have hkeep : ∀ d : Bytes, (∀ b ∈ d, b.toNat < 0x80) → componentToLocal c = d → c = d := by
    intro d hd he
    rw [← componentToLocal_eq_self (c := c) (by rw [he]; exact hd), he]
  simp only [componentSafe, Bool.and_eq_true, Bool.not_eq_true', bne_iff_ne, List.contains_eq_mem,
    decide_eq_false_iff_not] at h ⊢
  obtain ⟨⟨⟨⟨hcolon, hback⟩, hnil⟩, hdot⟩, hdots⟩ := h
  refine ⟨⟨⟨⟨?_, ?_⟩, ?_⟩, ?_⟩, ?_⟩
  · exact fun hm => hcolon (mem_componentToLocal (by decide) hm)
  · exact fun hm => hback (mem_componentToLocal (by decide) hm)
  · exact fun he => hnil (hkeep [] (by simp) he)
  · exact fun he => hdot (hkeep [dot] (by simp [dot]) he)
  · exact fun he => hdots (hkeep [dot, dot] (by simp [dot]) he)

theorem components_of_nameToLocal {cap : Nat} {name l : Bytes} (h : nameToLocal cap name = some l) :
    components l = (components name).map componentToLocal := by
  obtain ⟨rfl, -⟩ := fitted_eq_some.mp h
  exact components_map (fun _ => slash_not_mem_toLocal) name

theorem length_joinComponents_map_le {f : Bytes → Bytes} (hf : ∀ c, (f c).length ≤ c.length)
    (cs : List Bytes) : (joinComponents (cs.map f)).length ≤ (joinComponents cs).length := by
  induction cs with
  | nil => simp [joinComponents]
  | cons c cs ih =>
    cases cs with
    | nil => exact hf c
    | cons d ds =>
      have := hf c
      simp only [List.map_cons, joinComponents, List.length_append, List.length_cons] at ih ⊢
      omega

theorem length_of_nameToLocal {cap : Nat} {name l : Bytes} (h : nameToLocal cap name = some l) :
    l.length ≤ name.length := by
  obtain ⟨rfl, -⟩ := fitted_eq_some.mp h
  have := length_joinComponents_map_le length_componentToLocal_le (components name)
  rwa [joinComponents_components] at this

/-- An ASCII byte of what is stored was in the name. -/
theorem mem_of_nameToLocal {cap : Nat} {name l : Bytes} (h : nameToLocal cap name = some l)
    {b : UInt8} (hlow : b.toNat < 0x80) (hslash : b ≠ slash) (hb : b ∈ l) : b ∈ name := by
  obtain ⟨rfl, -⟩ := fitted_eq_some.mp h
  rcases mem_joinComponents hb with h | ⟨c, hc, hbc⟩
  · exact absurd h hslash
  · obtain ⟨d, hd, rfl⟩ := List.mem_map.mp hc
    exact mem_of_mem_components hd (mem_componentToLocal hlow hbc)

theorem componentSafe_iff {c : Bytes} : componentSafe c = true ↔
    colon ∉ c ∧ backslash ∉ c ∧ c ≠ [] ∧ c ≠ [dot] ∧ c ≠ [dot, dot] := by
  simp [componentSafe, and_assoc]

/-- A safe name holds no volume mark and no foreign separator. -/
theorem not_mem_of_pathNameSafe {name : Name} (h : pathNameSafe name = true) :
    colon ∉ name ∧ backslash ∉ name := by
  rw [pathNameSafe, List.all_eq_true] at h
  have hbyte : ∀ b, b ≠ slash → b ∈ name → ∃ c ∈ components name, b ∈ c := by
    intro b hne hb
    rw [← joinComponents_components name] at hb
    exact (mem_joinComponents hb).resolve_left hne
  constructor
  · intro hb
    obtain ⟨c, hc, hbc⟩ := hbyte colon (by decide) hb
    exact (componentSafe_iff.mp (h c hc)).1 hbc
  · intro hb
    obtain ⟨c, hc, hbc⟩ := hbyte backslash (by decide) hb
    exact (componentSafe_iff.mp (h c hc)).2.1 hbc

theorem pathNameSafe_toLocal {cap : Nat} {name l : Bytes} (hs : pathNameSafe name = true)
    (h : nameToLocal cap name = some l) : pathNameSafe l = true := by
  rw [pathNameSafe, List.all_eq_true] at hs ⊢
  rw [components_of_nameToLocal h]
  intro c hc
  obtain ⟨d, hd, rfl⟩ := List.mem_map.mp hc
  exact componentSafe_toLocal (hs d hd)

/-- **Containment.** Where a safe name is stored is below the folder, at the same depth. -/
theorem toLocal_stays_inside {cap : Nat} {name l : Bytes} (hs : pathNameSafe name = true)
    (h : nameToLocal cap name = some l) :
    pathNameSafe l = true ∧ (components l).length = (components name).length ∧
      (∀ c ∈ components l, c ≠ [] ∧ c ≠ [dot] ∧ c ≠ [dot, dot]) ∧
      colon ∉ l ∧ backslash ∉ l ∧ l.length ≤ name.length ∧ (0 ∉ name → 0 ∉ l) := by
  have hsafe := pathNameSafe_toLocal hs h
  have hall := hsafe
  rw [pathNameSafe, List.all_eq_true] at hall
  refine ⟨hsafe, ?_, ?_, (not_mem_of_pathNameSafe hsafe).1, (not_mem_of_pathNameSafe hsafe).2,
    length_of_nameToLocal h, ?_⟩
  · rw [components_of_nameToLocal h, List.length_map]
  · intro c hc
    exact (componentSafe_iff.mp (hall c hc)).2.2
  · intro h0 hl
    exact h0 (mem_of_nameToLocal h (by decide) (by decide) hl)

/-- An overlong `..` stays what it is: it is not UTF-8. -/
theorem toLocal_stays_inside_overlong :
    nameToLocal bepPathMax [0xC0, 0xAE, 0xC0, 0xAE] = some [0xC0, 0xAE, 0xC0, 0xAE] ∧
      pathNameSafe [0xC0, 0xAE, 0xC0, 0xAE] = true :=
  ⟨by decide, (@toLocal_stays_inside bepPathMax [0xC0, 0xAE, 0xC0, 0xAE] _ (by decide) (by decide)).1⟩

/-! ## From the disk -/

theorem mem_byteFromLocal_low {b x : UInt8} (h : b ∈ byteFromLocal x) (hb : b.toNat < 0x80) :
    b = x := by
  obtain ⟨c, hc, henc⟩ := utf8Seq_eq_some.mp (utf8Seq_byteFromLocal x [])
  rw [List.append_nil, List.append_nil] at henc
  rw [henc] at h
  by_cases hlow : c.toNat < 0x80
  · rw [encodeChar_ascii hlow, List.mem_singleton, hc, UInt8.ofNat_toNat] at h
    exact h
  · exact absurd (encodeChar_high (Nat.le_of_not_lt hlow) b h) (Nat.not_le.mpr hb)

theorem mem_componentFromLocal {c : Bytes} {b : UInt8} (hb : b.toNat < 0x80)
    (h : b ∈ componentFromLocal c) : b ∈ c := by
  unfold componentFromLocal at h
  split at h
  · exact h
  · obtain ⟨x, hx, hbx⟩ := List.mem_flatMap.mp h
    exact mem_byteFromLocal_low hbx hb ▸ hx

/-- **From the disk and back.** A name read off the disk is UTF-8, leads back to its bytes and is
the name of no others. -/
theorem diskName_survives {cap : Nat} {l n : Bytes} (h : nameFromLocal cap l = some n) :
    Spelled n ∧ (0 ∉ l → 0 ∉ n) ∧
      (∀ cap', l.length < cap' → nameToLocal cap' n = some l) ∧ l.length < cap ∧
      ∀ cap' l', nameFromLocal cap' l' = some n → l' = l := by
  have hfit := (fitted_eq_some.mp h).2
  have hn := (fitted_eq_some.mp h).1
  refine ⟨?_, ?_, fun cap' hcap => nameToLocal_of_fromLocal h hcap, ?_, ?_⟩
  · rw [← hn]
    apply spelled_joinComponents
    intro c hc
    obtain ⟨d, -, rfl⟩ := List.mem_map.mp hc
    exact spelled_componentFromLocal d
  · intro h0 hm
    rw [← hn] at hm
    rcases mem_joinComponents hm with hs | ⟨c, hc, hb⟩
    · exact absurd hs (by decide)
    · obtain ⟨d, hd, rfl⟩ := List.mem_map.mp hc
      exact h0 (mem_of_mem_components hd (mem_componentFromLocal (by decide) hb))
  · have := length_of_nameFromLocal h
    rw [hn] at hfit
    omega
  · intro cap' l' h'
    have hl := nameToLocal_of_fromLocal h (Nat.lt_succ_of_le (Nat.le_max_left l.length l'.length))
    have hl' := nameToLocal_of_fromLocal h' (Nat.lt_succ_of_le (Nat.le_max_right l.length l'.length))
    exact Option.some.inj (hl'.symm.trans hl)

/-- The byte `é` of a disk that knows nothing of UTF-8. -/
theorem nameFromLocal_eacute : nameFromLocal bepPathMax [0xE9] = some [0xC3, 0xA9] := by
  decide

theorem diskName_survives_eacute :
    nameFromLocal bepPathMax [0xE9] = some [0xC3, 0xA9] ∧ Spelled [0xC3, 0xA9] ∧
      nameToLocal bepPathMax [0xC3, 0xA9] = some [0xE9] :=
  ⟨by decide, (diskName_survives nameFromLocal_eacute).1,
    (diskName_survives nameFromLocal_eacute).2.2.1 _ (by decide)⟩

/-! ## A name a peer chose -/

/-- No component whose characters all fit Latin-1 spells, as one byte a character, a text that
goes beyond Latin-1. -/
def ReadsAsLatin (name : Name) : Prop :=
  ∀ s t, spell s ∈ components name → Latin s → latinBytes s = spell t → Latin t

/-- Read back, a component is itself unless it now reads as a wider text. -/
theorem fromLocal_toLocal_iff {s : List Char} :
    componentFromLocal (componentToLocal (spell s)) = spell s ↔
      (Latin s → ∀ t, latinBytes s = spell t → Latin t) := by
  by_cases hl : Latin s
  · rw [componentToLocal_latin hl]
    constructor
    · intro h _ t ht
      by_contra hwide
      have hclass : utf8Class (latinBytes s) = .wide := utf8Class_eq_wide.mpr ⟨t, ht, hwide⟩
      rw [componentFromLocal, if_pos hclass] at h
      -- the bytes were not widened: they are those of `s` itself, which is Latin-1
      rw [h, utf8Class_spell, if_pos hl] at hclass
      simp at hclass
    · intro h
      have hclass : utf8Class (latinBytes s) ≠ .wide := by
        intro hw
        obtain ⟨t, ht, hwide⟩ := utf8Class_eq_wide.mp hw
        exact hwide (h hl t ht)
      rw [componentFromLocal, if_neg hclass, flatMap_byteFromLocal hl]
  · rw [componentToLocal_wide hl, componentFromLocal, if_pos (utf8Class_eq_wide.mpr ⟨s, rfl, hl⟩)]
    exact ⟨fun _ hl' => absurd hl' hl, fun _ => rfl⟩

/-- A mapping of components that leaves the name alone leaves each of them alone. -/
theorem joinComponents_map_eq_iff {f : Bytes → Bytes} (hf : ∀ c, slash ∉ c → slash ∉ f c)
    {name : Bytes} :
    joinComponents ((components name).map f) = name ↔ ∀ c ∈ components name, f c = c := by
  constructor
  · intro h c hc
    have hmap : (components name).map f = (components name).map id := by
      rw [List.map_id, ← components_map hf, h]
    exact List.map_inj_left.mp hmap c hc
  · exact joinComponents_map

/-- **From the wire and back.** A name of UTF-8 is read back as itself exactly when it fits and none
of its Latin-1 components is a wider text on the disk. -/
theorem wireName_survives_iff {cap cap' : Nat} {name : Name} {l : Bytes} (hu : Spelled name)
    (hl : nameToLocal cap name = some l) :
    nameFromLocal cap' l = some name ↔ name.length < cap' ∧ ReadsAsLatin name := by
  have hslash : ∀ c, slash ∉ c → slash ∉ (componentFromLocal ∘ componentToLocal) c :=
    fun c hc => slash_not_mem_fromLocal (slash_not_mem_toLocal hc)
  have hall : (∀ c ∈ components name, (componentFromLocal ∘ componentToLocal) c = c) ↔
      ReadsAsLatin name := by
    constructor
    · intro h s t hmem hlat
      exact fromLocal_toLocal_iff.mp (h (spell s) hmem) hlat t
    · intro h c hc
      obtain ⟨s, rfl⟩ := spelled_of_mem_components hu hc
      exact fromLocal_toLocal_iff.mpr fun hlat t => h s t hc hlat
  rw [nameFromLocal, fitted_eq_some, components_of_nameToLocal hl, List.map_map, ← hall,
    ← joinComponents_map_eq_iff hslash]
  constructor
  · rintro ⟨he, hlen⟩
    rw [he] at hlen
    exact ⟨hlen, he⟩
  · rintro ⟨hlen, he⟩
    refine ⟨he, ?_⟩
    rwa [he]

/-- The Latin-1 text `â`, `\x82`, `¬`: on the disk its bytes are the UTF-8 of `€`. -/
def misreadName : Name := [0xC3, 0xA2, 0xC2, 0x82, 0xC2, 0xAC]

theorem misreadName_lost : ¬ ∀ (name : Name) (l : Bytes), Spelled name → pathNameSafe name = true →
    nameToLocal bepPathMax name = some l → nameFromLocal bepPathMax l = some name := by
  intro h
  have hback := h misreadName [0xE2, 0x82, 0xAC] ⟨['â', '\x82', '¬'], by decide⟩ (by decide)
    (by decide)
  exact absurd hback (by decide)

/-- The name `é`. -/
theorem wireName_survives_eacute :
    nameToLocal bepPathMax [0xC3, 0xA9] = some [0xE9] ∧
      (nameFromLocal bepPathMax [0xE9] = some [0xC3, 0xA9] ↔
        [0xC3, 0xA9].length < bepPathMax ∧ ReadsAsLatin [0xC3, 0xA9]) :=
  ⟨by decide, @wireName_survives_iff bepPathMax _ _ _ ⟨['é'], by decide⟩ (by decide)⟩

end Amisync

import Mathlib.Data.Nat.Digits.Lemmas
import Mathlib.Data.List.DropRight
import Mathlib.Data.List.TakeWhile

/-!
# Characters and numbers as the C library reads and writes them

In the C locale, for strings as lists of bytes.

* `trim_blank_append`, `trim_append_blank`: blanks at the ends do not count.
* `strrchr_append`, `strrchr_cases`: the last of a character is found.
* `mem_padded`, `length_padded_le`: what a number of a given width is printed with.
* `atol_decimal_take`: the first digits of a printed number, read back.
-/

namespace Ctype

abbrev Str := List UInt8

def ascii (s : String) : Str := s.toList.map fun c => UInt8.ofNat c.toNat

def isspace (c : UInt8) : Bool := c = 32 || (9 ≤ c && c ≤ 13)

def isdigit (c : UInt8) : Bool := 48 ≤ c && c ≤ 57

def tolower (c : UInt8) : UInt8 := if 65 ≤ c ∧ c ≤ 90 then c + 32 else c

def toupper (c : UInt8) : UInt8 := if 97 ≤ c ∧ c ≤ 122 then c - 32 else c

/-- A fact about every byte. -/
theorem forall_byte {p : UInt8 → Prop} (h : ∀ n < 256, p (UInt8.ofNat n)) (c : UInt8) : p c := by
  have hc := h c.toNat c.toNat_lt
  rwa [UInt8.ofNat_toNat] at hc

/-! ## Blanks at the ends -/

def rtrim (s : Str) : Str := s.rdropWhile isspace

def trim (s : Str) : Str := rtrim (s.dropWhile isspace)

theorem rtrim_append_of_blank {s w : Str} (hw : ∀ c ∈ w, isspace c = true) : rtrim (s ++ w) = rtrim s := by
  induction w using List.reverseRecOn with
  | nil => rw [List.append_nil]
  | append_singleton w c ih =>
    rw [← List.append_assoc, rtrim, List.rdropWhile_concat_pos _ _ _ (hw c (by simp))]
    exact ih fun d hd => hw d (List.mem_append_left _ hd)

theorem rtrim_of_last {s : Str} {c : UInt8} (hc : isspace c = false) : rtrim (s ++ [c]) = s ++ [c] :=
  List.rdropWhile_concat_neg _ _ _ (by simp [hc])

theorem rtrim_append_of_last {s t : Str} {c : UInt8} (hc : isspace c = false) :
    rtrim (s ++ c :: t) = s ++ c :: rtrim t := by
  induction t using List.reverseRecOn with
  | nil => exact rtrim_of_last hc
  | append_singleton t d ih =>
    cases hd : isspace d with
    | true =>
      have hblank : ∀ e ∈ [d], isspace e = true := by simpa using hd
      rw [← List.cons_append, ← List.append_assoc, rtrim_append_of_blank hblank,
        rtrim_append_of_blank hblank, ih]
    | false =>
      rw [← List.cons_append, ← List.append_assoc, rtrim_of_last hd, rtrim_of_last hd]
      simp

theorem trim_of_first {s : Str} {c : UInt8} (hc : isspace c = false) : trim (c :: s) = c :: rtrim s := by
  unfold trim
  rw [List.dropWhile_cons_of_neg (by simp [hc])]
  exact rtrim_append_of_last (s := []) hc

theorem trim_blank_append {s w : Str} (hw : ∀ c ∈ w, isspace c = true) : trim (w ++ s) = trim s := by
  unfold trim
  rw [List.dropWhile_append_of_pos hw]

theorem trim_append_blank {s w : Str} (hw : ∀ c ∈ w, isspace c = true) : trim (s ++ w) = trim s := by
  by_cases hs : ∀ c ∈ s, isspace c = true
  · have hall : ∀ c ∈ s ++ w, isspace c = true := by
      intro c hc
      rcases List.mem_append.mp hc with hc | hc
      · exact hs c hc
      · exact hw c hc
    unfold trim
    rw [List.dropWhile_eq_nil_iff.mpr hs, List.dropWhile_eq_nil_iff.mpr hall]
  · unfold trim
    rw [List.dropWhile_append]
    have hne : ¬ (List.dropWhile isspace s).isEmpty = true := by
      intro h
      exact hs (List.dropWhile_eq_nil_iff.mp (List.isEmpty_iff.mp h))
    rw [if_neg hne, rtrim_append_of_blank hw]

theorem trim_rtrim (s : Str) : trim (rtrim s) = trim s := by
  have hsplit : rtrim s ++ s.rtakeWhile isspace = s := List.rdropWhile_append_rtakeWhile
  have h := trim_append_blank (s := rtrim s) (w := s.rtakeWhile isspace) fun _ => List.mem_rtakeWhile_imp
  rw [hsplit] at h
  exact h.symm

theorem infix_trim (s : Str) : trim s <:+: s :=
  (List.rdropWhile_prefix _ _).isInfix.trans (List.dropWhile_suffix isspace).isInfix

/-! ## The last of a character -/

/-- The last `c` of a string, with what is before and after it. -/
def strrchr (c : UInt8) : Str → Option (Str × Str)
  | [] => none
  | x :: xs =>
    match strrchr c xs with
    | some (before, after) => some (x :: before, after)
    | none => if x = c then some ([], xs) else none

theorem strrchr_of_notMem {c : UInt8} {s : Str} (h : c ∉ s) : strrchr c s = none := by
  induction s with
  | nil => rfl
  | cons x s ih =>
    rw [List.mem_cons, not_or] at h
    simp [strrchr, ih h.2, Ne.symm h.1]

theorem strrchr_append {c : UInt8} {t : Str} (h : c ∉ t) (s : Str) : strrchr c (s ++ c :: t) = some (s, t) := by
  induction s with
  | nil => simp [strrchr, strrchr_of_notMem h]
  | cons x s ih => simp [strrchr, ih]

theorem strrchr_cases (c : UInt8) (s : Str) :
    (strrchr c s = none ∧ c ∉ s) ∨ ∃ before after, strrchr c s = some (before, after) ∧
      s = before ++ c :: after ∧ c ∉ after := by
  induction s with
  | nil => exact Or.inl ⟨rfl, List.not_mem_nil⟩
  | cons x s ih =>
    rcases ih with ⟨hnone, hmem⟩ | ⟨before, after, hsome, rfl, hmem⟩
    · by_cases hx : x = c
      · exact Or.inr ⟨[], s, by rw [strrchr, hnone]; simp [hx], by rw [hx]; rfl, hmem⟩
      · refine Or.inl ⟨by rw [strrchr, hnone]; simp [hx], ?_⟩
        rw [List.mem_cons, not_or]
        exact ⟨Ne.symm hx, hmem⟩
    · exact Or.inr ⟨x :: before, after, by rw [strrchr, hsome], rfl, hmem⟩

/-! ## Numbers -/

/-- The value of the digits at the front. -/
def digitsVal (s : Str) : Nat := (s.takeWhile isdigit).foldl (fun v c => 10 * v + (c - 48).toNat) 0

/-- `strtol` in base ten: a number out of range is the nearest one in it. -/
def atol (s : Str) : Int :=
  let v : Int := match s.dropWhile isspace with
    | [] => 0
    | c :: cs => if c = 45 then -digitsVal cs else if c = 43 then digitsVal cs else digitsVal (c :: cs)
  max (-2 ^ 31) (min v (2 ^ 31 - 1))

/-- `%u` -/
def decimal (n : Nat) : Str :=
  if n = 0 then [48] else (Nat.digits 10 n).reverse.map fun d => UInt8.ofNat (48 + d)

section Decimal
variable {n : Nat}

theorem decimal_of_pos (hn : 0 < n) :
    decimal n = (Nat.digits 10 n).reverse.map fun d => UInt8.ofNat (48 + d) := by
  unfold decimal
  rw [if_neg (by omega)]

theorem digit_facts : ∀ d < 10, isdigit (UInt8.ofNat (48 + d)) = true ∧
    (UInt8.ofNat (48 + d) - 48).toNat = d := by
  decide

theorem isdigit_of_mem_decimal {c : UInt8} (hc : c ∈ decimal n) : isdigit c = true := by
  rcases Nat.eq_zero_or_pos n with rfl | hn
  · rw [List.mem_singleton.mp hc]
    rfl
  · rw [decimal_of_pos hn] at hc
    obtain ⟨d, hd, rfl⟩ := List.mem_map.mp hc
    exact (digit_facts d (Nat.digits_lt_base (by omega) (List.mem_reverse.mp hd))).1

theorem length_decimal (hn : 0 < n) : (decimal n).length = (Nat.digits 10 n).length := by
  rw [decimal_of_pos hn]
  simp

theorem length_decimal_le {k : Nat} (hk : 1 ≤ k) (hn : n < 10 ^ k) : (decimal n).length ≤ k := by
  rcases Nat.eq_zero_or_pos n with rfl | hpos
  · exact hk
  · rw [length_decimal hpos]
    exact (Nat.digits_length_le_iff (by decide) n).mpr hn

/-- The value of some digits, the highest one first. -/
theorem foldl_digits {ds : List Nat} (hds : ∀ d ∈ ds, d < 10) :
    (ds.reverse.map fun d => UInt8.ofNat (48 + d)).foldl (fun v c => 10 * v + (c - 48).toNat) 0 =
      Nat.ofDigits 10 ds := by
  induction ds with
  | nil => rfl
  | cons d ds ih =>
    have hd := (digit_facts d (hds d List.mem_cons_self)).2
    rw [List.reverse_cons, List.map_append, List.foldl_append,
      ih fun e he => hds e (List.mem_cons_of_mem d he), Nat.ofDigits_cons]
    simp only [List.map_cons, List.map_nil, List.foldl_cons, List.foldl_nil, hd]
    exact Nat.add_comm _ _

/-- The first digits of a number. -/
theorem digitsVal_decimal_take (hn : 0 < n) (k : Nat) :
    digitsVal ((decimal n).take k) = n / 10 ^ ((decimal n).length - k) := by
  have hall : ∀ c ∈ (decimal n).take k, isdigit c = true :=
    fun c hc => isdigit_of_mem_decimal (List.mem_of_mem_take hc)
  unfold digitsVal
  rw [List.takeWhile_eq_self_iff.mpr hall, length_decimal hn, decimal_of_pos hn, ← List.map_take,
    List.take_reverse, foldl_digits, Nat.self_div_pow_eq_ofDigits_drop _ n (by omega)]
  intro d hd
  exact Nat.digits_lt_base (by omega) (List.mem_of_mem_drop hd)

end Decimal

/-- `%0wd` -/
def padded (w : Nat) (x : Int) : Str :=
  let digits := decimal x.natAbs
  if x < 0 then 45 :: (List.replicate (w - 1 - digits.length) 48 ++ digits)
  else List.replicate (w - digits.length) 48 ++ digits

theorem mem_padded {w : Nat} {x : Int} {c : UInt8} (hc : c ∈ padded w x) : c = 45 ∨ isdigit c = true := by
  have hdigits : ∀ {n : Nat} {d : UInt8}, d ∈ List.replicate n 48 ++ decimal x.natAbs → isdigit d = true := by
    intro n d hd
    rcases List.mem_append.mp hd with hd | hd
    · rw [List.eq_of_mem_replicate hd]
      rfl
    · exact isdigit_of_mem_decimal hd
  rw [padded] at hc
  split at hc
  · exact (List.mem_cons.mp hc).imp_right hdigits
  · exact Or.inr (hdigits hc)

theorem length_padded_le {k : Nat} {x : Int} (hk : 1 ≤ k) (hx : x.natAbs < 10 ^ k) (w : Nat) :
    (padded w x).length ≤ max w k + if x < 0 then 1 else 0 := by
  have hlen := length_decimal_le hk hx
  rw [padded]
  split
  · rw [List.length_cons, List.length_append, List.length_replicate]
    omega
  · rw [List.length_append, List.length_replicate]
    omega

theorem digit_not_blank (c : UInt8) : isdigit c = true → isspace c = false ∧ c ≠ 45 ∧ c ≠ 43 ∧ c ≠ 58 := by
  revert c
  exact forall_byte (by decide +kernel)

/-- Digits alone. -/
theorem atol_of_digits {s : Str} (hs : ∀ c ∈ s, isdigit c = true) (hv : digitsVal s < 2 ^ 31) :
    atol s = digitsVal s := by
  cases s with
  | nil => rfl
  | cons c t =>
    obtain ⟨hspace, hminus, hplus, -⟩ := digit_not_blank c (hs c List.mem_cons_self)
    unfold atol
    rw [List.dropWhile_cons_of_neg (by simp [hspace])]
    dsimp only
    rw [if_neg hminus, if_neg hplus]
    omega

theorem atol_decimal_take {n : Nat} (hn : 0 < n) (hn' : n < 2 ^ 31) (k : Nat) :
    atol ((decimal n).take k) = (n / 10 ^ ((decimal n).length - k) : Nat) := by
  rw [← digitsVal_decimal_take hn]
  refine atol_of_digits (fun c hc => isdigit_of_mem_decimal (List.mem_of_mem_take hc)) ?_
  rw [digitsVal_decimal_take hn]
  exact Nat.lt_of_le_of_lt (Nat.div_le_self _ _) hn'

end Ctype

import Amisync.ConfigFile

/-!
# Words of the configuration file (`next_token`)

What is written as one word, with quotes around it where it has a blank, and what
is read of it.

* `nextToken_word`, `nextToken_quoted`: a word, and what is in quotes.
* `nextToken_long`, `nextToken_cut`: they do not fit.
* `nextToken_field`: what is written as one word is read as one.
* `parseLine_assign`: what is set on a line is read back.
-/

namespace Amisync.ConfigFile

open Ctype

/-! ## Tokens -/

section Tokens
variable {cap : Nat} {s tok r w : Str}

theorem dropWhile_blank (hw : ∀ c ∈ w, isspace c = true) (s : Str) :
    (w ++ s).dropWhile isspace = s.dropWhile isspace :=
  List.dropWhile_append_of_pos hw

theorem takeWhile_stop {p : UInt8 → Bool} (hs : ∀ c ∈ s, p c = true)
    (hrest : ∀ c, r.head? = some c → p c = false) : (s ++ r).takeWhile p = s := by
  rw [List.takeWhile_append_of_pos hs]
  cases r with
  | nil => simp
  | cons c r => rw [List.takeWhile_cons_of_neg (by simp [hrest c rfl]), List.append_nil]

theorem ne_quote (hs : quote ∉ s) : ∀ d ∈ s, decide (d ≠ quote) = true := by
  intro d hd
  rw [decide_eq_true_iff]
  rintro rfl
  exact hs hd

theorem takeWhile_quote (hs : quote ∉ s) (r : Str) :
    (s ++ quote :: r).takeWhile (fun d => decide (d ≠ quote)) = s :=
  takeWhile_stop (ne_quote hs) (by simp)

/-- A word that may be too long. -/
theorem nextToken_long (hw : ∀ c ∈ w, isspace c = true) (hne : tok ≠ [])
    (htok : ∀ c ∈ tok, isspace c = false) (hq : tok.head? ≠ some quote)
    (hrest : ∀ c, r.head? = some c → isspace c = true) :
    nextToken cap (w ++ (tok ++ r)) = some (tok.take (cap - 1), tok.drop (cap - 1) ++ r) := by
  obtain ⟨c, t, rfl⟩ := List.exists_cons_of_ne_nil hne
  have hc : isspace c = false := htok c List.mem_cons_self
  have hcq : c ≠ quote := by simpa using hq
  have htake : (c :: (t ++ r)).takeWhile (fun d => !isspace d) = c :: t := by
    rw [← List.cons_append]
    refine takeWhile_stop ?_ ?_
    · intro d hd
      rw [htok d hd]
      rfl
    · intro d hd
      rw [hrest d hd]
      rfl
  have hdrop : (c :: (t ++ r)).drop ((c :: t).take (cap - 1)).length = (c :: t).drop (cap - 1) ++ r := by
    rw [← List.cons_append, List.length_take]
    rcases Nat.le_total (cap - 1) (c :: t).length with hle | hle
    · rw [Nat.min_eq_left hle, List.drop_append_of_le_length hle]
    · rw [Nat.min_eq_right hle, List.drop_left, List.drop_eq_nil_of_le hle, List.nil_append]
  unfold nextToken
  rw [dropWhile_blank hw, List.cons_append, List.dropWhile_cons_of_neg (by simp [hc])]
  dsimp only
  rw [if_neg hcq, htake, hdrop]

/-- A word. -/
theorem nextToken_word (hw : ∀ c ∈ w, isspace c = true) (hne : tok ≠ [])
    (htok : ∀ c ∈ tok, isspace c = false) (hq : tok.head? ≠ some quote) (hlen : tok.length < cap)
    (hrest : ∀ c, r.head? = some c → isspace c = true) :
    nextToken cap (w ++ (tok ++ r)) = some (tok, r) := by
  rw [nextToken_long hw hne htok hq hrest, List.take_of_length_le (by omega),
    List.drop_eq_nil_of_le (by omega), List.nil_append]

/-- What is in quotes. -/
theorem nextToken_quoted (hw : ∀ c ∈ w, isspace c = true) (hs : quote ∉ s) (hlen : s.length < cap)
    (r : Str) : nextToken cap (w ++ quote :: (s ++ quote :: r)) = some (s, r) := by
  have htake := takeWhile_quote hs r
  unfold nextToken
  rw [dropWhile_blank hw, List.dropWhile_cons_of_neg (by decide)]
  dsimp only
  rw [if_pos rfl, htake, List.take_of_length_le (by omega)]
  simp

/-- The closing quote may be missing. -/
theorem nextToken_open (hw : ∀ c ∈ w, isspace c = true) (hs : quote ∉ s) (hlen : s.length < cap) :
    nextToken cap (w ++ quote :: s) = some (s, []) := by
  have htake : s.takeWhile (fun d => decide (d ≠ quote)) = s :=
    List.takeWhile_eq_self_iff.mpr (ne_quote hs)
  unfold nextToken
  rw [dropWhile_blank hw, List.dropWhile_cons_of_neg (by decide)]
  dsimp only
  rw [if_pos rfl, htake, List.take_of_length_le (by omega)]
  simp

/-- What is in quotes and does not fit. -/
theorem nextToken_cut (hs : quote ∉ s) (hlen : cap ≤ s.length) (r : Str) :
    nextToken cap (quote :: (s ++ quote :: r)) =
      some (s.take (cap - 1), if s.drop (cap - 1) = [] then r else s.drop (cap - 1) ++ quote :: r) := by
  have htake := takeWhile_quote hs r
  have hshort : (s.take (cap - 1)).length = cap - 1 := by
    rw [List.length_take]
    omega
  unfold nextToken
  rw [List.dropWhile_cons_of_neg (by decide)]
  dsimp only
  rw [if_pos rfl, htake, hshort, List.drop_append_of_le_length (by omega)]
  cases hd : s.drop (cap - 1) with
  | nil => simp
  | cons c q =>
    have hc : c ≠ quote := by
      rintro rfl
      exact hs (List.mem_of_mem_drop (i := cap - 1) (by simp [hd]))
    simp [hc]

/-- Where the next character is no quote, the token has no blank in it. -/
theorem no_blank_of_word {c : UInt8} {q : Str} (hs : s.dropWhile isspace = c :: q) (hc : c ≠ quote)
    (h : nextToken cap s = some (tok, r)) : ∀ d ∈ tok, isspace d = false := by
  unfold nextToken at h
  rw [hs] at h
  dsimp only at h
  rw [if_neg hc] at h
  simp only [Option.some.injEq, Prod.mk.injEq] at h
  intro d hd
  rw [← h.1] at hd
  simpa using List.mem_takeWhile_imp (List.mem_of_mem_take hd)

end Tokens

/-! ## Safe text -/

theorem safe_byte (c : UInt8) : (!(c < 32 || c = 127) && c ≠ quote) = true →
    c ≠ quote ∧ c ≠ nl ∧ (isspace c = true → c = 32) := by
  revert c
  exact forall_byte (by decide +kernel)

theorem isspace_of_blank (c : UInt8) : blank c = true → isspace c = true := by
  revert c
  exact forall_byte (by decide +kernel)

theorem safe_facts {s : Str} (h : textFieldSafe s = true) {c : UInt8} (hc : c ∈ s) :
    c ≠ quote ∧ c ≠ nl ∧ (isspace c = true → c = 32) :=
  safe_byte c (List.all_eq_true.mp h c hc)

theorem not_blank_of_safe {s : Str} (h : textFieldSafe s = true) (hb : (32 : UInt8) ∉ s) {c : UInt8} (hc : c ∈ s) :
    isspace c = false := by
  by_contra hspace
  rw [Bool.not_eq_false] at hspace
  exact hb ((safe_facts h hc).2.2 hspace ▸ hc)

theorem any_blank_iff {s : Str} (h : textFieldSafe s = true) : s.any blank = true ↔ (32 : UInt8) ∈ s := by
  rw [List.any_eq_true]
  constructor
  · rintro ⟨c, hc, hb⟩
    have hspace := isspace_of_blank c hb
    exact (safe_facts h hc).2.2 hspace ▸ hc
  · intro hmem
    exact ⟨32, hmem, rfl⟩

/-- **One word.** What is written as one is read as one. -/
theorem nextToken_field {cap : Nat} {s r : Str} (h : textFieldSafe s = true) (hne : s ≠ [])
    (hlen : s.length < cap) (hrest : ∀ c, r.head? = some c → isspace c = true) :
    nextToken cap (32 :: (quoted cap s ++ r)) = some (s, r) := by
  have hw : ∀ c ∈ ([32] : Str), isspace c = true := List.forall_mem_singleton.mpr rfl
  have hshort : s.take (cap - 1) = s := List.take_of_length_le (by omega)
  unfold quoted
  dsimp only
  rw [hshort]
  cases hb : s.any blank with
  | true =>
    have hq : quote ∉ s := fun hmem => (safe_facts h hmem).1 rfl
    have hquoted := nextToken_quoted hw hq hlen r
    simpa using hquoted
  | false =>
    have hnone : (32 : UInt8) ∉ s := by
      intro hmem
      rw [(any_blank_iff h).mpr hmem] at hb
      simp at hb
    have hhead : s.head? ≠ some quote := by
      intro hq
      exact (safe_facts h (List.mem_of_head? hq)).1 rfl
    have hword := nextToken_word hw hne (fun c hc => not_blank_of_safe h hnone hc) hhead hlen hrest
    simpa using hword

/-! ## A setting -/

/-- The first `=` of a line that is no comment. -/
theorem parseLine_of_trim {line x a v : Str} {c : UInt8} (h : trim line = c :: x)
    (hc : ¬ (c = 59 || c = 35 || c = 91) = true) (hsplit : c :: x = a ++ 61 :: v) (ha : 61 ∉ a) :
    parseLine line = some (trim a, trim v) := by
  have hbefore : ∀ d ∈ a, decide (d ≠ 61) = true := by
    intro d hd
    rw [decide_eq_true_iff]
    rintro rfl
    exact ha hd
  have hmem : (61 : UInt8) ∈ c :: x := by simp [hsplit]
  unfold parseLine
  rw [h]
  dsimp only
  rw [if_neg hc, if_pos hmem, hsplit, List.takeWhile_append_of_pos hbefore,
    List.dropWhile_append_of_pos hbefore, List.takeWhile_cons_of_neg (by simp),
    List.dropWhile_cons_of_neg (by simp), List.append_nil, List.tail_cons]

/-- A key, and what is set. -/
theorem parseLine_assign {c z : UInt8} {t : Str} (hc : isspace c = false ∧ c ≠ 59 ∧ c ≠ 35 ∧ c ≠ 91)
    (hz : isspace z = false) (hkey : 61 ∉ c :: (t ++ [z])) (w : Str) :
    parseLine (c :: (t ++ [z]) ++ 32 :: 61 :: 32 :: w) = some (c :: (t ++ [z]), trim w) := by
  obtain ⟨hspace, hsemi, hhash, hbracket⟩ := hc
  have htrim : trim (c :: (t ++ [z]) ++ 32 :: 61 :: 32 :: w) =
      c :: (t ++ [z] ++ [32] ++ 61 :: rtrim (32 :: w)) := by
    have hafter : rtrim (t ++ [z] ++ [32] ++ 61 :: (32 :: w)) = t ++ [z] ++ [32] ++ 61 :: rtrim (32 :: w) :=
      rtrim_append_of_last (by decide)
    rw [List.cons_append, trim_of_first hspace]
    simpa using hafter
  have hbefore : (61 : UInt8) ∉ c :: (t ++ [z]) ++ [32] := by
    intro hmem
    rcases List.mem_append.mp hmem with hmem | hmem
    · exact hkey hmem
    · exact absurd hmem (by decide)
  have hleft : trim (c :: (t ++ [z]) ++ [32]) = c :: (t ++ [z]) := by
    rw [trim_append_blank (List.forall_mem_singleton.mpr rfl), trim_of_first hspace, rtrim_of_last hz]
  have hvalue : trim (rtrim (32 :: w)) = trim w := by
    rw [trim_rtrim]
    exact trim_blank_append (w := [32]) (List.forall_mem_singleton.mpr rfl)
  rw [parseLine_of_trim htrim (by simp [hsemi, hhash, hbracket]) (a := c :: (t ++ [z]) ++ [32]) rfl hbefore,
    hleft, hvalue]

end Amisync.ConfigFile

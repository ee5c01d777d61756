import Amisync.Lib.Ctype

/-!
# Device ids (`device_id.c`)

A device is named by the SHA-256 value of its certificate in base 32, with a check
character for each thirteen, written in groups of seven.

* `deviceIdNormalize`: the 56 characters of an id, however it is spelled.
* `normalize_of_normalize`: it is a normal form.
* `Formatted`: an id as we write it ourselves. `formatted_fromRaw`: each raw value
  has one.
-/

namespace Amisync

open Ctype

def deviceIdBufsz : Nat := 64

def b32Alpha : Str := ascii "ABCDEFGHIJKLMNOPQRSTUVWXYZ234567"

def b32Index (c : UInt8) : Option Nat :=
  if 65 ≤ c ∧ c ≤ 90 then some (c - 65).toNat
  else if 50 ≤ c ∧ c ≤ 55 then some (26 + (c - 50).toNat)
  else none

/-- The character for the low five bits. -/
def b32Char (n : Nat) : UInt8 := b32Alpha.getD (n % 32) 0

/-! ## The check character -/

def luhnSum : Nat → Str → Nat
  | _, [] => 0
  | factor, c :: cs =>
    let addend := factor * (b32Index c).getD 0
    addend / 32 + addend % 32 + luhnSum (if factor = 2 then 1 else 2) cs

def luhn32 (s : Str) : UInt8 := b32Char ((32 - luhnSum 1 s % 32) % 32)

/-! ## From a hash -/

/-- The characters that a buffer of that many bits is good for, and the bits that are left. -/
def b32Emit (buffer : Nat) : Nat → Str × Nat
  | bits + 5 =>
    let r := b32Emit buffer bits
    (b32Char (buffer >>> bits) :: r.1, r.2)
  | bits => ([], bits)

def b32EncodeFrom (buffer bits : Nat) : List UInt8 → Str
  | [] => if 0 < bits then [b32Char (buffer <<< (5 - bits))] else []
  | b :: bs =>
    let buffer := buffer <<< 8 ||| b.toNat
    let r := b32Emit buffer (bits + 8)
    r.1 ++ b32EncodeFrom (buffer &&& (2 ^ r.2 - 1)) r.2 bs

/-- `b32_encode_256` -/
def b32Encode (hash : List UInt8) : Str := b32EncodeFrom 0 0 hash

/-- Each thirteen characters with their check character. -/
def withChecks (b32 : Str) : Str :=
  (List.range 4).flatMap fun i =>
    let chunk := (b32.drop (13 * i)).take 13
    chunk ++ [luhn32 chunk]

/-- Eight groups of seven. -/
def formatId (canon : Str) : Str :=
  (List.range 8).flatMap fun g => (if g = 0 then [] else [45]) ++ (canon.drop (7 * g)).take 7

def deviceIdFromRaw (hash : List UInt8) : Str := formatId (withChecks (b32Encode hash))

/-! ## Normal form -/

/-- The characters that count. -/
def collectId (canon : Str) : Str → Option Str
  | [] => some canon
  | c :: cs =>
    if c = 45 || isspace c then collectId canon cs
    else if (b32Index (toupper c)).isNone then none
    else if 56 ≤ canon.length then none
    else collectId (canon ++ [toupper c]) cs

/-- The check character of each chunk. -/
def checksOk (canon : Str) : Bool :=
  (List.range 4).all fun i => some (luhn32 ((canon.drop (14 * i)).take 13)) == canon[14 * i + 13]?

def deviceIdNormalize (s : Str) : Option Str :=
  (collectId [] s).bind fun canon => if canon.length = 56 && checksOk canon then some canon else none

def deviceIdEqual (a b : Str) : Bool :=
  match deviceIdNormalize a, deviceIdNormalize b with
  | some x, some y => x = y
  | _, _ => false

/-- An id as it is written. -/
def Formatted (id : Str) : Prop := ∃ canon, deviceIdNormalize canon = some canon ∧ id = formatId canon

/-! ## Clean characters -/

/-- In the alphabet. -/
def Clean (c : UInt8) : Prop := (b32Index c).isSome = true

instance : DecidablePred Clean := fun _ => inferInstanceAs (Decidable (_ = _))

theorem clean_facts (c : UInt8) : Clean c → toupper c = c ∧ c ≠ 45 ∧ isspace c = false ∧ 50 ≤ c ∧ c ≤ 90 := by
  revert c
  exact forall_byte (by decide +kernel)

theorem clean_b32Char (n : Nat) : Clean (b32Char n) := by
  have h : ∀ k < 32, Clean (b32Alpha.getD k 0) := by decide
  exact h (n % 32) (Nat.mod_lt n (by omega))

theorem clean_of_collectId {s canon out : Str} (h : collectId canon s = some out)
    (hc : ∀ c ∈ canon, Clean c) : ∀ c ∈ out, Clean c := by
  induction s generalizing canon with
  | nil =>
    obtain rfl := Option.some.inj h
    exact hc
  | cons c s ih =>
    rw [collectId] at h
    split at h
    · exact ih h hc
    · split at h
      · simp at h
      · rename_i hsome
        split at h
        · simp at h
        · refine ih h ?_
          intro d hd
          rcases List.mem_append.mp hd with hd | hd
          · exact hc d hd
          · rw [List.mem_singleton.mp hd]
            simpa [Clean, Option.isSome_iff_ne_none] using hsome

/-- Only the dashes go. -/
theorem collectId_of_clean {s canon : Str} (hs : ∀ c ∈ s, c = 45 ∨ Clean c)
    (hlen : (canon ++ s.filter (· ≠ 45)).length ≤ 56) :
    collectId canon s = some (canon ++ s.filter (· ≠ 45)) := by
  induction s generalizing canon with
  | nil => simp [collectId]
  | cons c s ih =>
    rw [collectId]
    rcases hs c List.mem_cons_self with rfl | hc
    · rw [if_pos (by decide)]
      rw [List.filter_cons_of_neg (by decide)] at hlen ⊢
      exact ih (fun d hd => hs d (List.mem_cons_of_mem _ hd)) hlen
    · obtain ⟨hup, hdash, hspace, -⟩ := clean_facts c hc
      have hsome : (b32Index (toupper c)).isNone = false := by
        rw [hup, ← Option.not_isSome, show (b32Index c).isSome = true from hc]
        rfl
      rw [List.filter_cons_of_pos (by simpa using hdash)] at hlen ⊢
      rw [if_neg (by simp [hdash, hspace]), hsome, if_neg (by simp), hup, if_neg]
      · rw [ih (fun d hd => hs d (List.mem_cons_of_mem _ hd)) (by simpa using hlen)]
        simp
      · simp only [List.length_append, List.length_cons] at hlen
        omega

theorem normalize_facts {s canon : Str} (h : deviceIdNormalize s = some canon) :
    canon.length = 56 ∧ checksOk canon = true ∧ ∀ c ∈ canon, Clean c := by
  obtain ⟨out, hout, hif⟩ := Option.bind_eq_some_iff.mp h
  split at hif
  · rename_i hok
    obtain rfl := Option.some.inj hif
    simp only [Bool.and_eq_true, decide_eq_true_eq] at hok
    exact ⟨hok.1, hok.2, clean_of_collectId hout (by simp)⟩
  · simp at hif

/-- What has the characters, the length and the checks is normal, with dashes or without. -/
theorem normalize_of_filter {s canon : Str} (hs : ∀ c ∈ s, c = 45 ∨ Clean c)
    (hfilter : s.filter (· ≠ 45) = canon) (hlen : canon.length = 56) (hok : checksOk canon = true) :
    deviceIdNormalize s = some canon := by
  unfold deviceIdNormalize
  rw [collectId_of_clean hs (by rw [hfilter]; simp [hlen]), hfilter]
  simp [hlen, hok]

theorem filter_of_clean {s : Str} (hs : ∀ c ∈ s, Clean c) : s.filter (· ≠ 45) = s := by
  refine List.filter_eq_self.mpr ?_
  intro c hc
  simpa using (clean_facts c (hs c hc)).2.1

/-- **Normal form.** -/
theorem normalize_of_normalize {s canon : Str} (h : deviceIdNormalize s = some canon) :
    deviceIdNormalize canon = some canon := by
  obtain ⟨hlen, hok, hclean⟩ := normalize_facts h
  exact normalize_of_filter (fun c hc => Or.inr (hclean c hc)) (filter_of_clean hclean) hlen hok

theorem deviceIdEqual_iff {a canon : Str} (hc : deviceIdNormalize canon = some canon) :
    deviceIdEqual a canon = true ↔ deviceIdNormalize a = some canon := by
  unfold deviceIdEqual
  rw [hc]
  cases deviceIdNormalize a <;> simp

/-- Blanks at the end do not count. -/
theorem collectId_append_blank {s w : Str} (hw : ∀ c ∈ w, isspace c = true) (canon : Str) :
    collectId canon (s ++ w) = collectId canon s := by
  induction s generalizing canon with
  | nil =>
    induction w with
    | nil => rfl
    | cons c w ih =>
      have hskip : collectId canon (c :: w) = collectId canon w := by
        rw [collectId, if_pos (by simp [hw c List.mem_cons_self])]
      rw [List.nil_append, hskip]
      exact ih fun d hd => hw d (List.mem_cons_of_mem c hd)
  | cons c s ih =>
    rw [List.cons_append, collectId, collectId]
    split
    · exact ih canon
    · split
      · rfl
      · split
        · rfl
        · exact ih _

theorem normalize_append_blank {s w : Str} (hw : ∀ c ∈ w, isspace c = true) :
    deviceIdNormalize (s ++ w) = deviceIdNormalize s := by
  unfold deviceIdNormalize
  rw [collectId_append_blank hw]

/-- One character that is not in the alphabet is enough. -/
theorem collectId_of_bad {s : Str} {c : UInt8} (hc : c ∈ s)
    (hbad : c ≠ 45 ∧ isspace c = false ∧ (b32Index (toupper c)).isNone = true) (canon : Str) :
    collectId canon s = none := by
  induction s generalizing canon with
  | nil => simp at hc
  | cons d s ih =>
    rw [collectId]
    rcases List.mem_cons.mp hc with rfl | hc
    · rw [if_neg (by simp [hbad.1, hbad.2.1]), if_pos hbad.2.2]
    · split
      · exact ih hc canon
      · split
        · rfl
        · split
          · rfl
          · exact ih hc _

theorem normalize_of_bad {s : Str} {c : UInt8} (hc : c ∈ s)
    (hbad : c ≠ 45 ∧ isspace c = false ∧ (b32Index (toupper c)).isNone = true) : deviceIdNormalize s = none := by
  unfold deviceIdNormalize
  rw [collectId_of_bad hc hbad]
  rfl

/-! ## Formatted ids -/

theorem formatId_eq (canon : Str) : formatId canon =
    canon.take 7 ++ (45 :: (canon.drop 7).take 7) ++ (45 :: (canon.drop 14).take 7) ++
      (45 :: (canon.drop 21).take 7) ++ (45 :: (canon.drop 28).take 7) ++
      (45 :: (canon.drop 35).take 7) ++ (45 :: (canon.drop 42).take 7) ++
      (45 :: (canon.drop 49).take 7) := by
  simp [formatId, List.range_succ]

theorem mem_formatId {canon : Str} {c : UInt8} (h : c ∈ formatId canon) : c = 45 ∨ c ∈ canon := by
  obtain ⟨g, -, hc⟩ := List.mem_flatMap.mp h
  rcases List.mem_append.mp hc with hc | hc
  · split at hc
    · simp at hc
    · exact Or.inl (List.mem_singleton.mp hc)
  · exact Or.inr (List.mem_of_mem_drop (List.mem_of_mem_take hc))

theorem filter_formatId {canon : Str} (hlen : canon.length = 56) (hclean : ∀ c ∈ canon, Clean c) :
    (formatId canon).filter (· ≠ 45) = canon := by
  have hpart : ∀ i, ((canon.drop i).take 7).filter (· ≠ 45) = (canon.drop i).take 7 :=
    fun i => filter_of_clean fun c hc => hclean c (List.mem_of_mem_drop (List.mem_of_mem_take hc))
  have hgroup : ∀ g, ((if g = 0 then [] else [45]) ++ (canon.drop (7 * g)).take 7).filter (· ≠ 45) =
      (canon.drop (7 * g)).take 7 := by
    intro g
    rw [List.filter_append, hpart]
    split <;> simp
  have hjoin : ∀ n, (List.range n).flatMap (fun g => (canon.drop (7 * g)).take 7) = canon.take (7 * n) := by
    intro n
    induction n with
    | zero => simp
    | succ n ih =>
      rw [List.range_succ, List.flatMap_append, ih, List.flatMap_singleton,
        show 7 * (n + 1) = 7 * n + 7 by omega, List.take_add]
  unfold formatId
  rw [List.filter_flatMap]
  simp only [hgroup]
  rw [hjoin, List.take_of_length_le (by omega)]

theorem clean_formatId {canon : Str} (hc : deviceIdNormalize canon = some canon) :
    ∀ c ∈ formatId canon, c = 45 ∨ Clean c := by
  intro c hmem
  rcases mem_formatId hmem with h | h
  · exact Or.inl h
  · exact Or.inr ((normalize_facts hc).2.2 c h)

theorem normalize_formatId {canon : Str} (hc : deviceIdNormalize canon = some canon) :
    deviceIdNormalize (formatId canon) = some canon := by
  obtain ⟨hlen, hok, hclean⟩ := normalize_facts hc
  exact normalize_of_filter (clean_formatId hc) (filter_formatId hlen hclean) hlen hok

namespace Formatted

variable {id : Str}

theorem facts (h : Formatted id) : id.length = 63 ∧ (∀ c ∈ id, c = 45 ∨ Clean c) ∧
    ∃ canon, deviceIdNormalize id = some canon ∧ deviceIdNormalize canon = some canon := by
  obtain ⟨canon, hc, rfl⟩ := h
  refine ⟨?_, clean_formatId hc, canon, normalize_formatId hc, hc⟩
  rw [formatId_eq]
  simp [(normalize_facts hc).1]

end Formatted

/-! ## Ids of raw values -/

theorem b32Emit_facts (buffer bits : Nat) : (b32Emit buffer bits).1.length = bits / 5 ∧
    (b32Emit buffer bits).2 = bits % 5 ∧ ∀ c ∈ (b32Emit buffer bits).1, Clean c := by
  fun_induction b32Emit buffer bits with
  | case1 bits r ih =>
    obtain ⟨hlen, hbits, hclean⟩ := ih
    refine ⟨?_, ?_, ?_⟩
    · rw [List.length_cons, hlen]
      omega
    · rw [hbits]
      omega
    · intro c hc
      rcases List.mem_cons.mp hc with rfl | hc
      · exact clean_b32Char _
      · exact hclean c hc
  | case2 bits hsmall =>
    have hlt : bits < 5 := by
      by_contra hge
      exact hsmall (bits - 5) (by omega)
    refine ⟨?_, ?_, by simp⟩
    · rw [List.length_nil]
      omega
    · dsimp only
      omega

theorem b32EncodeFrom_facts (buffer bits : Nat) (hbits : bits < 5) (bs : List UInt8) :
    (b32EncodeFrom buffer bits bs).length = (8 * bs.length + bits + 4) / 5 ∧
      ∀ c ∈ b32EncodeFrom buffer bits bs, Clean c := by
  induction bs generalizing buffer bits with
  | nil =>
    rw [b32EncodeFrom]
    split
    · refine ⟨?_, ?_⟩
      · simp only [List.length_singleton, List.length_nil]
        omega
      · intro c hc
        rw [List.mem_singleton.mp hc]
        exact clean_b32Char _
    · refine ⟨?_, by simp⟩
      simp only [List.length_nil]
      omega
  | cons b bs ih =>
    obtain ⟨hlen, hrest, hclean⟩ := b32Emit_facts (buffer <<< 8 ||| b.toNat) (bits + 8)
    rw [b32EncodeFrom, hrest]
    obtain ⟨hlen', hclean'⟩ := ih ((buffer <<< 8 ||| b.toNat) &&& (2 ^ ((bits + 8) % 5) - 1))
      ((bits + 8) % 5) (Nat.mod_lt _ (by omega))
    refine ⟨?_, ?_⟩
    · rw [List.length_append, hlen, hlen', List.length_cons]
      omega
    · intro c hc
      rcases List.mem_append.mp hc with hc | hc
      · exact hclean c hc
      · exact hclean' c hc

/-- One chunk in front. -/
theorem chunk_facts {x : Str} (hx : x.length = 13) (l : UInt8) (rest : Str) :
    ((x ++ [l]) ++ rest).take 13 = x ∧ ((x ++ [l]) ++ rest)[13]? = some l ∧
      ((x ++ [l]) ++ rest).drop 14 = rest := by
  refine ⟨?_, ?_, ?_⟩
  · rw [List.append_assoc, List.take_left' hx]
  · rw [List.append_assoc, List.getElem?_append_right (by omega), hx]
    simp
  · exact List.drop_left' (by rw [List.length_append, List.length_singleton, hx])

/-- Four chunks with their check characters. -/
theorem checksOk_chunks {x₀ x₁ x₂ x₃ : Str} (l₀ l₁ l₂ l₃ : UInt8) (h₀ : x₀.length = 13) (h₁ : x₁.length = 13)
    (h₂ : x₂.length = 13) (h₃ : x₃.length = 13) :
    checksOk ((x₀ ++ [l₀]) ++ ((x₁ ++ [l₁]) ++ ((x₂ ++ [l₂]) ++ (x₃ ++ [l₃])))) = true ↔
      luhn32 x₀ = l₀ ∧ luhn32 x₁ = l₁ ∧ luhn32 x₂ = l₂ ∧ luhn32 x₃ = l₃ := by
  generalize hs₃ : x₃ ++ [l₃] = s₃
  generalize hs₂ : (x₂ ++ [l₂]) ++ s₃ = s₂
  generalize hs₁ : (x₁ ++ [l₁]) ++ s₂ = s₁
  generalize hs₀ : (x₀ ++ [l₀]) ++ s₁ = s₀
  obtain ⟨t₀, g₀, d₀⟩ := hs₀ ▸ chunk_facts h₀ l₀ s₁
  obtain ⟨t₁, g₁, d₁⟩ := hs₁ ▸ chunk_facts h₁ l₁ s₂
  obtain ⟨t₂, g₂, d₂⟩ := hs₂ ▸ chunk_facts h₂ l₂ s₃
  obtain ⟨t₃, g₃, -⟩ := chunk_facts h₃ l₃ []
  rw [List.append_nil, hs₃] at t₃ g₃
  have e₂ : s₀.drop 28 = s₂ := by rw [← d₁, ← d₀, List.drop_drop]
  have e₃ : s₀.drop 42 = s₃ := by rw [← d₂, ← e₂, List.drop_drop]
  have at₁ : s₀[27]? = some l₁ := by rw [← g₁, ← d₀, List.getElem?_drop]
  have at₂ : s₀[41]? = some l₂ := by rw [← g₂, ← e₂, List.getElem?_drop]
  have at₃ : s₀[55]? = some l₃ := by rw [← g₃, ← e₃, List.getElem?_drop]
  unfold checksOk
  simp [List.range_succ, d₀, e₂, e₃, t₀, t₁, t₂, t₃, g₀, at₁, at₂, at₃]

theorem withChecks_eq (b : Str) : withChecks b = (b.take 13 ++ [luhn32 (b.take 13)]) ++
    (((b.drop 13).take 13 ++ [luhn32 ((b.drop 13).take 13)]) ++
    (((b.drop 26).take 13 ++ [luhn32 ((b.drop 26).take 13)]) ++
    ((b.drop 39).take 13 ++ [luhn32 ((b.drop 39).take 13)]))) := by
  simp [withChecks, List.range_succ]

theorem length_chunks {b : Str} (hb : b.length = 52) :
    (b.take 13).length = 13 ∧ ((b.drop 13).take 13).length = 13 ∧
      ((b.drop 26).take 13).length = 13 ∧ ((b.drop 39).take 13).length = 13 := by
  simp only [List.length_take, List.length_drop]
  omega

theorem normalize_withChecks {b : Str} (hb : b.length = 52) (hclean : ∀ c ∈ b, Clean c) :
    deviceIdNormalize (withChecks b) = some (withChecks b) := by
  have hcanon : ∀ c ∈ withChecks b, Clean c := by
    intro c hc
    obtain ⟨i, -, hc⟩ := List.mem_flatMap.mp hc
    rcases List.mem_append.mp hc with hc | hc
    · exact hclean c (List.mem_of_mem_drop (List.mem_of_mem_take hc))
    · rw [List.mem_singleton.mp hc]
      exact clean_b32Char _
  obtain ⟨h₀, h₁, h₂, h₃⟩ := length_chunks hb
  refine normalize_of_filter (fun c hc => Or.inr (hcanon c hc)) (filter_of_clean hcanon) ?_ ?_
  · rw [withChecks_eq]
    simp only [List.length_append, List.length_singleton, h₀, h₁, h₂, h₃]
  · rw [withChecks_eq, checksOk_chunks _ _ _ _ h₀ h₁ h₂ h₃]
    exact ⟨rfl, rfl, rfl, rfl⟩

theorem b32Encode_facts {hash : List UInt8} (hlen : hash.length = 32) :
    (b32Encode hash).length = 52 ∧ ∀ c ∈ b32Encode hash, Clean c := by
  obtain ⟨hb, hclean⟩ := b32EncodeFrom_facts 0 0 (by omega) hash
  rw [hlen] at hb
  exact ⟨hb, hclean⟩

/-- An id of ours has the form that is checked. -/
theorem formatted_fromRaw {hash : List UInt8} (hlen : hash.length = 32) : Formatted (deviceIdFromRaw hash) := by
  obtain ⟨hb, hclean⟩ := b32Encode_facts hlen
  exact ⟨withChecks (b32Encode hash), normalize_withChecks hb hclean, rfl⟩

end Amisync

import Mathlib.Computability.Language

/-!
# Matching with wildcards, on a budget

A pattern is a product of languages. A matcher for it tries the tails of a string
one after the other and hands what is left of its budget from one try to the next.

* `one`, `run`: what a wildcard for one character stands for, and one for many.
* `cons_mem_one_mul`, `cons_mem_run_mul`: a product, read from the front.
* `Decides`: a search says yes only where it should, and where it has budget enough
  it says so exactly then, at a fixed price.
* `Decides.guard`, `Decides.refuse`, `Decides.test`, `Decides.orElse`: one more step, a test,
  one try after another.
-/

namespace Wildcards

variable {α : Type*}

/-! ## Languages -/

/-- One character for which `p` holds. -/
def one (p : α → Prop) : Language α := {w | ∃ c, p c ∧ w = [c]}

/-- Any number of them. -/
def run (p : α → Prop) : Language α := {w | ∀ c ∈ w, p c}

variable {p : α → Prop} {L : Language α} {c : α} {s : List α}

theorem nil_notMem_one_mul : [] ∉ one p * L := by
  rintro ⟨a, ⟨c, -, rfl⟩, b, -, h⟩
  simp at h

theorem cons_mem_one_mul : c :: s ∈ one p * L ↔ p c ∧ s ∈ L := by
  constructor
  · rintro ⟨a, ⟨d, hd, rfl⟩, b, hb, h⟩
    obtain ⟨rfl, rfl⟩ := List.cons.inj h
    exact ⟨hd, hb⟩
  · rintro ⟨hc, hs⟩
    exact ⟨[c], ⟨c, hc, rfl⟩, s, hs, rfl⟩

theorem nil_mem_run : [] ∈ run p := fun _ h => absurd h List.not_mem_nil

theorem mem_run_mul_of_mem (h : s ∈ L) : s ∈ run p * L := ⟨[], nil_mem_run, s, h, rfl⟩

theorem nil_mem_run_mul : [] ∈ run p * L ↔ [] ∈ L := by
  constructor
  · rintro ⟨a, -, b, hb, h⟩
    obtain ⟨rfl, rfl⟩ := List.append_eq_nil_iff.mp h
    exact hb
  · exact mem_run_mul_of_mem

theorem cons_mem_run_mul : c :: s ∈ run p * L ↔ c :: s ∈ L ∨ (p c ∧ s ∈ run p * L) := by
  constructor
  · rintro ⟨a, ha, b, hb, h⟩
    cases a with
    | nil =>
      obtain rfl : b = c :: s := h
      exact Or.inl hb
    | cons d a =>
      obtain ⟨rfl, rfl⟩ := List.cons.inj h
      exact Or.inr ⟨ha d List.mem_cons_self, a, fun e he => ha e (List.mem_cons_of_mem d he), b, hb, rfl⟩
  · rintro (h | ⟨hc, a, ha, b, hb, rfl⟩)
    · exact mem_run_mul_of_mem h
    · refine ⟨c :: a, ?_, b, hb, rfl⟩
      intro e he
      rcases List.mem_cons.mp he with rfl | he
      · exact hc
      · exact ha e he

theorem mem_run_true (s : List α) : s ∈ run (fun _ : α => True) := fun _ _ => trivial

/-! ## Budgets -/

/-- What a search is worth. It is given a budget, of which something has to be left. -/
structure Decides (f : Nat → Bool × Nat) (q : Prop) : Prop where
  sound : ∀ n, (f n).1 = true → q
  settles : ∃ b : Bool, (b = true ↔ q) ∧ ∃ u, ∀ k, f (u + 1 + k) = (b, 1 + k)

variable {f g : Nat → Bool × Nat} {q r : Prop}

namespace Decides

theorem const (b : Bool) (h : b = true ↔ q) : Decides (fun n => (b, n)) q :=
  ⟨fun _ hb => h.mp hb, b, h, 0, fun k => by rw [Nat.zero_add]⟩

theorem congr (h : Decides f q) (hqr : q ↔ r) : Decides f r := by
  obtain ⟨b, hb, hu⟩ := h.settles
  exact ⟨fun n hn => hqr.mp (h.sound n hn), b, hb.trans hqr, hu⟩

/-- A test that costs nothing. -/
theorem refuse (b : Prop) [Decidable b] (h : Decides f q) :
    Decides (fun n => if b then (false, n) else f n) (¬ b ∧ q) := by
  by_cases hb : b
  · simp only [if_pos hb]
    exact const false (by simp [hb])
  · simp only [if_neg hb]
    exact h.congr (by simp [hb])

theorem test (b : Prop) [Decidable b] (h : Decides f q) :
    Decides (fun n => if b then f n else (false, n)) (b ∧ q) := by
  by_cases hb : b
  · simp only [if_pos hb]
    exact h.congr (by simp [hb])
  · simp only [if_neg hb]
    exact const false (by simp [hb])

/-- One step is paid for; a search that cannot pay says no. -/
theorem guard (h : Decides f q) : Decides (fun n => if n ≤ 1 then (false, n - 1) else f (n - 1)) q := by
  obtain ⟨b, hb, u, hu⟩ := h.settles
  refine ⟨?_, b, hb, u + 1, ?_⟩
  · intro n hn
    split at hn
    · simp at hn
    · exact h.sound _ hn
  · intro k
    rw [if_neg (by omega), ← hu k]
    congr 1
    omega

/-- One search after the other. -/
theorem orElse (hf : Decides f q) (hg : Decides g r) :
    Decides (fun n => match f n with
      | (true, m) => (true, m)
      | (false, m) => g m) (q ∨ r) := by
  obtain ⟨b, hb, u, hu⟩ := hf.settles
  obtain ⟨b', hb', u', hu'⟩ := hg.settles
  refine ⟨?_, ?_⟩
  · intro n hn
    have hsound := hf.sound n
    cases hfn : f n with
    | mk c m =>
      rw [hfn] at hn hsound
      cases c with
      | true => exact Or.inl (hsound rfl)
      | false => exact Or.inr (hg.sound m hn)
  · cases b with
    | true =>
      refine ⟨true, by simp [hb.mp rfl], u, ?_⟩
      intro k
      rw [hu k]
    | false =>
      have hq : ¬ q := by
        intro hq
        have := hb.mpr hq
        simp at this
      refine ⟨b', by simp [hq, hb'], u + u', ?_⟩
      intro k
      rw [show u + u' + 1 + k = u + 1 + (u' + k) by omega, hu]
      dsimp only
      rw [← hu' k]
      congr 1
      omega

/-- With budget enough the answer is exact. -/
theorem eventually (h : Decides f q) : ∃ B, ∀ n, B ≤ n → ((f n).1 = true ↔ q) := by
  obtain ⟨b, hb, u, hu⟩ := h.settles
  refine ⟨u + 1, ?_⟩
  intro n hn
  obtain ⟨k, rfl⟩ : ∃ k, n = u + 1 + k := ⟨n - (u + 1), by omega⟩
  rw [hu k]
  exact hb

end Decides

end Wildcards

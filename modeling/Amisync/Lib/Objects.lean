import Mathlib.Data.List.Basic

/-!
# Objects with an error flag

Calls on an object that fail for good once its flag is set, and tables of objects
that are changed one at a time.

* `Sticky`: what such a call does. `sticky_seq`: one call, then another if it succeeds.
* `Grown`: the objects of a table are still there, each moved along a preorder.
* `grown_foldl`, `inv_foldl`: the same, and an invariant, over a run. `inv_foldl_range`: over a
  counted loop.
-/

namespace Objects

/-! ## Calls -/

section Sticky
variable {σ : Type*} {err : σ → Bool} {I : σ → Prop} {R : σ → σ → Prop}

/-- A call with a flag set does nothing and fails; a call fails where it sets the flag. -/
structure Sticky (err : σ → Bool) (I : σ → Prop) (R : σ → σ → Prop) (f : σ → Bool × σ) : Prop where
  stuck : ∀ s, err s = true → f s = (false, s)
  fails : ∀ s, (f s).1 = !err (f s).2
  keeps : ∀ s, I s → I (f s).2
  moves : ∀ s, I s → R s (f s).2

/-- `f(..) && g(..)`. -/
def seq (f g : σ → Bool × σ) (s : σ) : Bool × σ :=
  match f s with
  | (true, t) => g t
  | (false, t) => (false, t)

theorem sticky_seq {f g : σ → Bool × σ} (htrans : ∀ s t u, R s t → R t u → R s u)
    (hf : Sticky err I R f) (hg : Sticky err I R g) : Sticky err I R (seq f g) where
  stuck s hs := by rw [seq, hf.stuck s hs]
  fails s := by
    have hfail := hf.fails s
    rw [seq]
    rcases hfs : f s with ⟨_ | _, t⟩
    · rw [hfs] at hfail
      exact hfail
    · exact hg.fails t
  keeps s hs := by
    have hkeep := hf.keeps s hs
    rw [seq]
    rcases hfs : f s with ⟨_ | _, t⟩
    · rw [hfs] at hkeep
      exact hkeep
    · rw [hfs] at hkeep
      exact hg.keeps t hkeep
  moves s hs := by
    have hkeep := hf.keeps s hs
    have hmove := hf.moves s hs
    rw [seq]
    rcases hfs : f s with ⟨_ | _, t⟩
    · rw [hfs] at hmove
      exact hmove
    · rw [hfs] at hkeep hmove
      exact htrans s t _ hmove (hg.moves t hkeep)

end Sticky

/-! ## Tables -/

section Grown
variable {α ε : Type*} {R : α → α → Prop} {l l' l'' : List α}

def Grown (R : α → α → Prop) (l l' : List α) : Prop :=
  ∀ (i : Nat) (a : α), l[i]? = some a → ∃ b, l'[i]? = some b ∧ R a b

theorem grown_refl (hrefl : ∀ a, R a a) (l : List α) : Grown R l l :=
  fun _ a h => ⟨a, h, hrefl a⟩

theorem grown_trans (htrans : ∀ a b c, R a b → R b c → R a c) (h : Grown R l l') (h' : Grown R l' l'') :
    Grown R l l'' := by
  intro i a ha
  obtain ⟨b, hb, hab⟩ := h i a ha
  obtain ⟨c, hc, hbc⟩ := h' i b hb
  exact ⟨c, hc, htrans a b c hab hbc⟩

theorem grown_append (hrefl : ∀ a, R a a) (l x : List α) : Grown R l (l ++ x) := by
  intro i a ha
  exact ⟨a, List.getElem?_append_left (List.getElem?_eq_some_iff.mp ha).1 ▸ ha, hrefl a⟩

theorem grown_set (hrefl : ∀ a, R a a) {i : Nat} {a b : α} (ha : l[i]? = some a) (hab : R a b) :
    Grown R l (l.set i b) := by
  intro j c hc
  by_cases hij : i = j
  · subst hij
    rw [ha, Option.some.injEq] at hc
    subst hc
    exact ⟨b, List.getElem?_set_self (List.getElem?_eq_some_iff.mp ha).1, hab⟩
  · exact ⟨c, (List.getElem?_set_ne hij).trans hc, hrefl c⟩

/-- **Run.** -/
theorem grown_foldl {σ : Type*} {step : σ → ε → σ} (table : σ → List α) (hrefl : ∀ a, R a a)
    (htrans : ∀ a b c, R a b → R b c → R a c) {I : σ → Prop} (hI : ∀ s e, I s → I (step s e))
    (hstep : ∀ s e, I s → Grown R (table s) (table (step s e))) (es : List ε) {s : σ} (hs : I s) :
    Grown R (table s) (table (es.foldl step s)) := by
  induction es generalizing s with
  | nil => exact grown_refl hrefl _
  | cons e es ih => exact grown_trans htrans (hstep s e hs) (ih (hI s e hs))

/-- **Invariant rule.** -/
theorem inv_foldl {σ : Type*} {step : σ → ε → σ} {I : σ → Prop} (hI : ∀ s e, I s → I (step s e))
    (es : List ε) {s : σ} (hs : I s) : I (es.foldl step s) := by
  induction es generalizing s with
  | nil => exact hs
  | cons e es ih => exact ih (hI s e hs)

/-- **Counted loop.** -/
theorem inv_foldl_range {σ : Type*} {step : σ → Nat → σ} {I : Nat → σ → Prop}
    (hI : ∀ i s, I i s → I (i + 1) (step s i)) (n : Nat) {s : σ} (hs : I 0 s) :
    I n ((List.range n).foldl step s) := by
  induction n with
  | zero => exact hs
  | succ n ih =>
    rw [List.range_succ, List.foldl_append]
    exact hI n _ ih

end Grown

end Objects

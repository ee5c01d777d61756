import Mathlib.Data.List.Basic

/-!
# Computations that break off

A postcondition for a computation that ends with a value or breaks off with
what it had so far: `P` holds of the value, or `Q` of what was left.

* `Outcome.bind`, `Outcome.map`: one computation after another.
* `Outcome.foldlM`: a loop, with an invariant that speaks of the elements it has
  been through.
-/

def Outcome {ε α : Type*} (P : α → Prop) (Q : ε → Prop) : Except ε α → Prop
  | .ok a => P a
  | .error e => Q e

namespace Outcome

variable {ε α β σ : Type*} {P : α → Prop} {R : β → Prop} {Q Q' : ε → Prop}

theorem mono {P' : α → Prop} {x : Except ε α} (h : Outcome P Q x) (hP : ∀ a, P a → P' a)
    (hQ : ∀ e, Q e → Q' e) : Outcome P' Q' x := by
  cases x with
  | ok a => exact hP a h
  | error e => exact hQ e h

theorem bind {x : Except ε α} {f : α → Except ε β} (h : Outcome P Q x)
    (hf : ∀ a, P a → Outcome R Q (f a)) : Outcome R Q (x.bind f) := by
  cases x with
  | ok a => exact hf a h
  | error e => exact h

theorem map {x : Except ε α} {f : α → β} (h : Outcome P Q x) (hf : ∀ a, P a → R (f a)) :
    Outcome R Q (x.map f) := by
  cases x with
  | ok a => exact hf a h
  | error e => exact h

/-- **Loop rule.** -/
theorem foldlM {f : σ → α → Except ε σ} {I : List α → σ → Prop} {l : List α}
    (hstep : ∀ l₁ a l₂ s, l = l₁ ++ a :: l₂ → I l₁ s → Outcome (I (l₁ ++ [a])) Q (f s a)) {s : σ}
    (h : I [] s) : Outcome (I l) Q (l.foldlM f s) := by
  have hloop : ∀ (l₁ l₂ : List α) (s : σ), l = l₁ ++ l₂ → I l₁ s → Outcome (I l) Q (l₂.foldlM f s) := by
    intro l₁ l₂
    induction l₂ generalizing l₁ with
    | nil =>
      intro s hl hs
      rw [List.append_nil] at hl
      exact hl ▸ hs
    | cons a l₂ ih =>
      intro s hl hs
      rw [List.foldlM_cons]
      refine (hstep l₁ a l₂ s hl hs).bind fun s' hs' => ih (l₁ ++ [a]) s' ?_ hs'
      rw [hl, List.append_cons]
  exact hloop [] l s rfl h

end Outcome

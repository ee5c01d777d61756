import Mathlib.Data.List.Nodup
import Mathlib.Logic.Function.Basic

/-!
# Chains through an array of links

A chain starts at an index, or nowhere, and goes on to the index that an array
`next` holds for each.

* `IsChain`: the indices of a chain, in its order.
* `walk_eq`: a search along a chain is a search of its indices.
* `IsChain.update`: a link of another index may change.
-/

namespace Chain

def IsChain (next : Nat → Option Nat) : Option Nat → List Nat → Prop
  | none, [] => True
  | some i, j :: l => i = j ∧ IsChain next (next i) l
  | _, _ => False

/-- The first index of the chain that meets `p`. -/
def walk (next : Nat → Option Nat) (p : Nat → Bool) : Nat → Option Nat → Option Nat
  | 0, _ => none
  | _ + 1, none => none
  | fuel + 1, some i => if p i then some i else walk next p fuel (next i)

variable {next : Nat → Option Nat} {start : Option Nat} {l : List Nat}

theorem isChain_nil : IsChain next start [] ↔ start = none := by
  cases start with
  | none => simp [IsChain]
  | some i => simp [IsChain]

theorem isChain_cons {i : Nat} : IsChain next start (i :: l) ↔
    start = some i ∧ IsChain next (next i) l := by
  cases start with
  | none => simp [IsChain]
  | some j =>
    rw [IsChain, Option.some.injEq]
    constructor
    · rintro ⟨rfl, h⟩
      exact ⟨rfl, h⟩
    · rintro ⟨rfl, h⟩
      exact ⟨rfl, h⟩

/-- **Search.** -/
theorem walk_eq (h : IsChain next start l) (p : Nat → Bool) {fuel : Nat} (hf : l.length ≤ fuel) :
    walk next p fuel start = l.find? p := by
  induction l generalizing fuel start with
  | nil =>
    rw [isChain_nil.mp h]
    cases fuel with
    | zero => rfl
    | succ fuel => rfl
  | cons i l ih =>
    obtain ⟨rfl, hl⟩ := isChain_cons.mp h
    cases fuel with
    | zero => simp at hf
    | succ fuel =>
      rw [walk, List.find?_cons]
      cases hp : p i with
      | true => rfl
      | false => exact ih hl (Nat.le_of_succ_le_succ hf)

/-- **Frame.** -/
theorem IsChain.update (h : IsChain next start l) {i : Nat} (hi : i ∉ l) (x : Option Nat) :
    IsChain (Function.update next i x) start l := by
  induction l generalizing start with
  | nil => exact isChain_nil.mpr (isChain_nil.mp h)
  | cons j l ih =>
    obtain ⟨hs, hl⟩ := isChain_cons.mp h
    obtain ⟨hne, hmem⟩ := not_or.mp (fun e => hi (List.mem_cons.mpr e))
    refine isChain_cons.mpr ⟨hs, ?_⟩
    rw [Function.update_of_ne (fun e => hne e.symm)]
    exact ih hl hmem

end Chain

import Mathlib.Data.List.Induction
import Mathlib.Logic.Function.Basic

/-!
# Mark, find again, sweep

A table that several owners write to. An owner that says anew what it has marks its entries as
stale, then names each in turn, which clears the mark or makes a new entry if there is room, and
last removes those that are stale still. In between, the others do the same with theirs.

* `Marks`, `mark`, `found`, `sweep`: what is there and what is stale; the three moves.
* `Foreign`: the moves of other owners.
* `run_isSome`, `run_stale`: from its `mark` on, what an owner has.
* `sweep_run`: what it has after its `sweep`.
-/

namespace Sweep

variable {κ : Type*} [DecidableEq κ]

/-- What is there, and whether it is stale. -/
abbrev Marks (κ : Type*) := κ → Option Bool

inductive Move (κ : Type*)
  | mark (mine : κ → Bool)
  | found (k : κ) (room : Bool)
  | sweep (mine : κ → Bool)

def exec (m : Marks κ) : Move κ → Marks κ
  | .mark mine => fun k => if mine k then (m k).map fun _ => true else m k
  | .found k room => if m k = none ∧ room = false then m else Function.update m k (some false)
  | .sweep mine => fun k => if mine k = true ∧ m k = some true then none else m k

def run (m : Marks κ) (ops : List (Move κ)) : Marks κ := ops.foldl exec m

/-- A move that marks and sweeps nothing of this owner's. -/
def Foreign (mine : κ → Bool) : Move κ → Prop
  | .mark other | .sweep other => ∀ k, mine k = true → other k = false
  | .found _ _ => True

variable {mine : κ → Bool} {m : Marks κ} {k : κ} {ops : List (Move κ)}

theorem exec_found (m : Marks κ) (k : κ) (room : Bool) :
    exec m (.found k room) = if m k = none ∧ room = false then m else Function.update m k (some false) := rfl

theorem exec_sweep (m : Marks κ) (mine : κ → Bool) (k : κ) :
    exec m (.sweep mine) k = if mine k = true ∧ m k = some true then none else m k := rfl

theorem run_append (m : Marks κ) (a b : List (Move κ)) : run m (a ++ b) = run (run m a) b := List.foldl_append

theorem exec_foreign {op : Move κ} (hop : Foreign mine op) (hk : mine k = true)
    (hother : ∀ room, op ≠ .found k room) : exec m op k = m k := by
  cases op with
  | mark other => simp [exec, hop k hk]
  | sweep other => simp [exec, hop k hk]
  | found l room =>
    rw [exec]
    split
    · rfl
    · rename_i hroom
      refine Function.update_of_ne (fun he => ?_) _ _
      exact hother room (he ▸ rfl)

/-- An entry that is there stays, and a new one comes where one of its findings has room. -/
theorem run_isSome (hops : ∀ op ∈ ops, Foreign mine op) (hk : mine k = true) :
    (run (exec m (.mark mine)) ops k).isSome = true ↔ (m k).isSome = true ∨ Move.found k true ∈ ops := by
  induction ops using List.reverseRecOn with
  | nil => simp [run, exec, hk]
  | append_singleton ops op ih =>
    have ih := ih fun x hx => hops x (List.mem_append_left _ hx)
    have hop : Foreign mine op := hops op (by simp)
    rw [run_append]
    show (exec (run (exec m (.mark mine)) ops) op k).isSome = true ↔ _
    by_cases hfound : ∃ room, op = .found k room
    · obtain ⟨room, rfl⟩ := hfound
      rw [exec_found]
      split
      · rename_i hfull
        rw [ih, hfull.2]
        simp
      · rename_i hroom
        rw [Function.update_self]
        cases room with
        | true => simp
        | false =>
          have hsome : (run (exec m (.mark mine)) ops k).isSome = true := by
            rw [Option.isSome_iff_ne_none]
            exact fun h => hroom ⟨h, rfl⟩
          simpa using ih.mp hsome
    · have hother : ∀ room, op ≠ .found k room := fun room he => hfound ⟨room, he⟩
      rw [exec_foreign hop hk hother, ih]
      simp [(hother true).symm]

/-- It is stale as long as it has not been found. -/
theorem run_stale (hops : ∀ op ∈ ops, Foreign mine op) (hk : mine k = true) :
    run (exec m (.mark mine)) ops k = some true ↔ (m k).isSome = true ∧ ∀ room, Move.found k room ∉ ops := by
  induction ops using List.reverseRecOn with
  | nil =>
    cases hm : m k with
    | none => simp [run, exec, hk, hm]
    | some b => simp [run, exec, hk, hm]
  | append_singleton ops op ih =>
    have hops' : ∀ x ∈ ops, Foreign mine x := fun x hx => hops x (List.mem_append_left _ hx)
    have ih := ih hops'
    have hop : Foreign mine op := hops op (by simp)
    rw [run_append]
    show exec (run (exec m (.mark mine)) ops) op k = some true ↔ _
    by_cases hfound : ∃ room, op = .found k room
    · obtain ⟨room, rfl⟩ := hfound
      have hno : ¬ ∀ r, Move.found k r ∉ ops ++ [.found k room] := fun h => h room (by simp)
      refine iff_of_false (fun htrue => ?_) fun h => hno h.2
      rw [exec_found] at htrue
      split at htrue
      · rename_i hfull
        rw [hfull.1] at htrue
        exact absurd htrue (by simp)
      · rw [Function.update_self] at htrue
        exact absurd htrue (by simp)
    · have hother : ∀ room, op ≠ .found k room := fun room he => hfound ⟨room, he⟩
      rw [exec_foreign hop hk hother, ih]
      have hmem : ∀ room, Move.found k room ∉ ops ++ [op] ↔ Move.found k room ∉ ops := by
        intro room
        simp [(hother room).symm]
      simp only [hmem]

/-- **Swept.** What an owner has at the end is what it has found again, or anew where there was room. -/
theorem sweep_run (hops : ∀ op ∈ ops, Foreign mine op) (hk : mine k = true) :
    (exec (run (exec m (.mark mine)) ops) (.sweep mine) k).isSome = true ↔
      (∃ room, Move.found k room ∈ ops) ∧ ((m k).isSome = true ∨ Move.found k true ∈ ops) := by
  have hsome := run_isSome (m := m) hops hk
  have hstale := run_stale (m := m) hops hk
  rw [exec_sweep]
  split
  · rename_i hswept
    have hno := (hstale.mp hswept.2).2
    exact iff_of_false (by simp) fun h => h.1.elim hno
  · rename_i hkept
    rw [hsome]
    refine ⟨fun h => ⟨?_, h⟩, fun h => h.2⟩
    by_contra hnone
    rw [not_exists] at hnone
    have hthere : (m k).isSome = true := h.resolve_right (hnone true)
    exact hkept ⟨hk, hstale.mpr ⟨hthere, hnone⟩⟩

end Sweep

import Mathlib.Data.Nat.Find
import Mathlib.Data.List.Count
import Mathlib.Data.List.GetD

/-!
# Open addressing with linear probing

A table is a list in which one value, `e`, marks the slots that are free. A
search for `k` starts at its home slot and goes on by one, around the end, up to
a slot that is free or holds `k`. How the index is brought back into the table
is a parameter, `wrap`; it is the remainder on the tables at hand.

* `find`: the search, with a bound on the slots it looks at.
* `find_isSome`: with a free slot somewhere, one round is enough.
* `Reached`: a search from the home slot meets the key before any free slot.
* `reached_set_self`, `reached_set`: filling the free slot that a search ended
  at makes its key reached, and keeps the others reached.
-/

namespace Probe

variable {α : Type*}

/-! ## What a search sees -/

section Look
variable (e : α) (t : List α) (k : α)

/-- The slot `d` steps from `i`. -/
def look (i d : Nat) : α := t.getD ((i + d) % t.length) e

def Reached (i : Nat) : Prop := ∃ d, look e t i d = k ∧ ∀ c < d, look e t i c ≠ e

variable {e t k} {i j : Nat}

theorem look_succ (i d : Nat) : look e t i (d + 1) = look e t ((i + 1) % t.length) d := by
  rw [look, look, Nat.mod_add_mod]
  congr 2
  omega

theorem look_zero (hi : i < t.length) : look e t i 0 = t.getD i e := by
  rw [look, Nat.add_zero, Nat.mod_eq_of_lt hi]

/-- A slot of the table lies within one round of the search. -/
theorem exists_look (hi : i < t.length) (hj : j < t.length) :
    ∃ d < t.length, (i + d) % t.length = j := by
  by_cases h : i ≤ j
  · exact ⟨j - i, by omega, by rw [Nat.add_sub_cancel' h, Nat.mod_eq_of_lt hj]⟩
  · refine ⟨t.length + j - i, by omega, ?_⟩
    rw [show i + (t.length + j - i) = t.length + j by omega, Nat.add_mod_left, Nat.mod_eq_of_lt hj]

theorem Reached.mem (h : Reached e t k i) (hk : k ≠ e) : k ∈ t := by
  obtain ⟨d, hd, -⟩ := h
  rw [look] at hd
  by_cases hlt : (i + d) % t.length < t.length
  · rw [List.getD_eq_getElem _ _ hlt] at hd
    exact hd ▸ List.getElem_mem hlt
  · rw [List.getD_eq_default _ _ (by omega)] at hd
    exact absurd hd.symm hk

theorem look_set (hj : t.getD j e = e) {d : Nat} (h : look e t i d ≠ e) :
    look e (t.set j k) i d = look e t i d := by
  rw [look, look, List.length_set]
  have hne : j ≠ (i + d) % t.length := fun he => h (by rw [look, ← he, hj])
  rw [List.getD_eq_getElem?_getD, List.getD_eq_getElem?_getD, List.getElem?_set_ne hne]

/-- The keys that are reached stay so. -/
theorem reached_set (hj : t.getD j e = e) {k' : α} (hk' : k' ≠ e)
    (h : Reached e t k' i) : Reached e (t.set j k) k' i := by
  obtain ⟨d, hd, hc⟩ := h
  refine ⟨d, ?_, fun c hcd => ?_⟩
  · rw [look_set hj (hd ▸ hk'), hd]
  · rw [look_set hj (hc c hcd)]
    exact hc c hcd

end Look

variable [DecidableEq α] (e : α) (t : List α) (k : α)

/-- `none`: not found within the bound. -/
def find (wrap : Nat → Nat) : Nat → Nat → Option Nat
  | 0, _ => none
  | fuel + 1, i =>
    if t.getD i e = e ∨ t.getD i e = k then some i else find wrap fuel (wrap (i + 1))

/-- The number of slots in use. -/
def load : Nat := t.countP (· ≠ e)

variable {e t k} {wrap : Nat → Nat} {i j : Nat}

/-! ## Where a search ends -/

/-- The search stops at the first slot that is free or holds the key. -/
theorem find_eq (hw : ∀ i, wrap i = i % t.length) {d fuel : Nat} (hi : i < t.length)
    (hfuel : d < fuel) (hd : look e t i d = e ∨ look e t i d = k)
    (hc : ∀ c < d, look e t i c ≠ e ∧ look e t i c ≠ k) :
    find e t k wrap fuel i = some ((i + d) % t.length) := by
  have hpos : 0 < t.length := by omega
  induction d generalizing i fuel with
  | zero =>
    obtain ⟨fuel, rfl⟩ := Nat.exists_eq_succ_of_ne_zero (by omega : fuel ≠ 0)
    rw [look_zero hi] at hd
    rw [find, if_pos hd, Nat.add_zero, Nat.mod_eq_of_lt hi]
  | succ d ih =>
    obtain ⟨fuel, rfl⟩ := Nat.exists_eq_succ_of_ne_zero (by omega : fuel ≠ 0)
    have h0 := hc 0 (by omega)
    rw [look_zero hi] at h0
    rw [find, if_neg (not_or.mpr h0), hw]
    rw [look_succ] at hd
    rw [ih (Nat.mod_lt _ hpos) (by omega) hd, Nat.mod_add_mod]
    · congr 2
      omega
    · intro c hcd
      rw [← look_succ]
      exact hc (c + 1) (by omega)

/-- **One round is enough.** -/
theorem find_spec (hw : ∀ i, wrap i = i % t.length) (hi : i < t.length) (hfree : e ∈ t) (k : α) :
    ∃ d, find e t k wrap t.length i = some ((i + d) % t.length) ∧
      (look e t i d = e ∨ look e t i d = k) ∧ ∀ c < d, look e t i c ≠ e ∧ look e t i c ≠ k := by
  obtain ⟨j, hj, hje⟩ := List.getElem_of_mem hfree
  obtain ⟨d₀, hd₀, hlook⟩ := exists_look hi hj
  have hd₀e : look e t i d₀ = e ∨ look e t i d₀ = k :=
    Or.inl (by rw [look, hlook, List.getD_eq_getElem _ _ hj, hje])
  have hex : ∃ d, look e t i d = e ∨ look e t i d = k := ⟨d₀, hd₀e⟩
  have hle : Nat.find hex ≤ d₀ := Nat.find_le hd₀e
  have hmin : ∀ c < Nat.find hex, look e t i c ≠ e ∧ look e t i c ≠ k := fun c hc =>
    not_or.mp (Nat.find_min hex hc)
  exact ⟨_, find_eq hw hi (by omega) (Nat.find_spec hex) hmin, Nat.find_spec hex, hmin⟩

theorem find_isSome (hw : ∀ i, wrap i = i % t.length) (hi : i < t.length) (hfree : e ∈ t) (k : α) :
    (find e t k wrap t.length i).isSome := by
  obtain ⟨d, hd, -⟩ := find_spec hw hi hfree k
  rw [hd]
  rfl

/-- A key that is reached is found. -/
theorem Reached.find (h : Reached e t k i) (hw : ∀ i, wrap i = i % t.length) (hi : i < t.length)
    (hfree : e ∈ t) : ∃ j, find e t k wrap t.length i = some j ∧ t.getD j e = k := by
  obtain ⟨d, hd, hbefore⟩ := h
  obtain ⟨d', hf, hend, hc⟩ := find_spec hw hi hfree k
  refine ⟨_, hf, ?_⟩
  rcases hend with he | hk
  · -- a free slot is not met before the key
    have hle : d ≤ d' := Nat.le_of_not_lt fun hlt => hbefore d' hlt he
    rcases Nat.lt_or_eq_of_le hle with hlt | rfl
    · exact absurd hd (hc d hlt).2
    · exact hd
  · exact hk

/-- The key that is put where its search ended is reached. -/
theorem reached_set_self (hw : ∀ i, wrap i = i % t.length) (hi : i < t.length) (hfree : e ∈ t)
    (hf : find e t k wrap t.length i = some j) (hj : t.getD j e = e) :
    Reached e (t.set j k) k i := by
  obtain ⟨d, hd, -, hc⟩ := find_spec hw hi hfree k
  obtain rfl : (i + d) % t.length = j := Option.some.inj (hd ▸ hf)
  refine ⟨d, ?_, fun c hcd => ?_⟩
  · have hlt : (i + d) % t.length < t.length := Nat.mod_lt _ (by omega)
    rw [look, List.length_set, List.getD_eq_getElem?_getD, List.getElem?_set_self hlt]
    rfl
  · rw [look_set hj (hc c hcd).1]
    exact (hc c hcd).1

/-- A search that ends at a slot in use has reached the key. -/
theorem reached_of_find (hw : ∀ i, wrap i = i % t.length) (hi : i < t.length) (hfree : e ∈ t)
    (hf : find e t k wrap t.length i = some j) (hj : t.getD j e ≠ e) : Reached e t k i := by
  obtain ⟨d, hd, hend, hc⟩ := find_spec hw hi hfree k
  obtain rfl : (i + d) % t.length = j := Option.some.inj (hd ▸ hf)
  exact ⟨d, hend.resolve_left hj, fun c hcd => (hc c hcd).1⟩

/-! ## Load -/

theorem mem_of_load (h : load e t < t.length) : e ∈ t := by
  by_contra hn
  have hall : ∀ a ∈ t, decide (a ≠ e) = true := fun a ha => by
    simpa using fun (h : a = e) => hn (h ▸ ha)
  exact absurd (List.countP_eq_length.mpr hall) (by rw [load] at h; omega)

theorem load_set (hk : k ≠ e) (hlt : j < t.length) (hj : t.getD j e = e) :
    load e (t.set j k) = load e t + 1 := by
  rw [List.getD_eq_getElem _ _ hlt] at hj
  rw [load, load, List.countP_set hlt, hj]
  simp [hk]

theorem load_pos (hk : k ≠ e) (h : k ∈ t) : 0 < load e t :=
  List.countP_pos_iff.mpr ⟨k, h, by simpa using hk⟩

end Probe

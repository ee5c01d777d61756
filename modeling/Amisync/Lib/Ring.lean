import Mathlib.Data.List.Dedup
import Mathlib.Data.List.Nodup
import Mathlib.Data.List.Perm.Subperm

/-!
# Rings

An array with a cursor keeps the elements that were put into it last, over those that were there
before. Elements with a key are put in once, and changed in their place after that.

* `RingBuffer`, `push`, `order`: the array, and what it holds, the oldest first.
* `order_push`, `order_modify`: what becomes of it.
* `note`: the same of a list that is bounded.
* `Recent`, `recent_note`: a list that has been kept so holds the last of each of its keys.
-/

structure RingBuffer (α : Type*) where
  cells : List α
  count : Nat
  next : Nat

namespace RingBuffer

variable {α κ : Type*} {r : RingBuffer α}

/-- At the cursor, which goes on. -/
def push (r : RingBuffer α) (x : α) : RingBuffer α where
  cells := r.cells.set r.next x
  count := if r.count < r.cells.length then r.count + 1 else r.count
  next := (r.next + 1) % r.cells.length

def order (r : RingBuffer α) : List α :=
  if r.count < r.cells.length then r.cells.take r.count else r.cells.drop r.next ++ r.cells.take r.next

structure Valid (r : RingBuffer α) : Prop where
  next : r.next < r.cells.length
  count : r.count ≤ r.cells.length
  filling : r.count < r.cells.length → r.next = r.count

theorem valid_push (h : r.Valid) (x : α) : (r.push x).Valid := by
  have hnext := h.next
  have hcount := h.count
  have hmod := Nat.mod_lt (r.next + 1) (Nat.zero_lt_of_lt hnext)
  refine ⟨?_, ?_, ?_⟩
  · simpa [push] using hmod
  · simp only [push, List.length_set]
    split <;> omega
  · simp only [push, List.length_set]
    intro hlt
    split at hlt
    · rename_i hfill
      rw [if_pos hfill, h.filling hfill, Nat.mod_eq_of_lt hlt]
    · omega

theorem length_push (r : RingBuffer α) (x : α) : (r.push x).cells.length = r.cells.length := by simp [push]

/-- **Put in.** The oldest leaves where there is no room. -/
theorem order_push (h : r.Valid) (x : α) :
    (r.push x).order = (if r.count < r.cells.length then r.order else r.order.tail) ++ [x] := by
  have hnext := h.next
  have hset : r.cells.set r.next x = r.cells.take r.next ++ x :: r.cells.drop (r.next + 1) :=
    List.set_eq_take_append_cons_drop.trans (if_pos hnext)
  have htake : (r.cells.take r.next).length = r.next := by rw [List.length_take]; omega
  unfold order push
  simp only [List.length_set]
  by_cases hfill : r.count < r.cells.length
  · have hcursor := h.filling hfill
    simp only [hfill, if_true]
    by_cases hlast : r.count + 1 < r.cells.length
    · rw [if_pos hlast, hset, ← hcursor, List.take_append, htake, List.take_of_length_le (by omega)]
      simp
    · have hzero : (r.next + 1) % r.cells.length = 0 := by
        rw [show r.next + 1 = r.cells.length by omega, Nat.mod_self]
      rw [if_neg hlast, hzero, List.drop_zero, List.take_zero, List.append_nil, hset, hcursor,
        List.drop_of_length_le (by omega)]
  · simp only [hfill, if_false]
    have htail : (r.cells.drop r.next ++ r.cells.take r.next).tail =
        r.cells.drop (r.next + 1) ++ r.cells.take r.next := by
      rw [List.tail_append_of_ne_nil (by
        rw [ne_eq, List.drop_eq_nil_iff]
        omega), List.tail_drop]
    rw [htail, hset]
    by_cases hlast : r.next + 1 < r.cells.length
    · rw [Nat.mod_eq_of_lt hlast, List.drop_append, List.take_append, htake,
        List.drop_of_length_le (by omega), List.take_of_length_le (by omega),
        show r.next + 1 - r.next = 1 by omega]
      simp
    · rw [show r.next + 1 = r.cells.length by omega, Nat.mod_self, List.drop_zero, List.take_zero,
        List.drop_of_length_le (Nat.le_refl _)]
      simp

theorem length_order (h : r.Valid) : r.order.length = r.count := by
  have hcount := h.count
  have hnext := h.next
  unfold order
  split
  · rw [List.length_take]
    omega
  · rw [List.length_append, List.length_drop, List.length_take]
    omega

/-- What is before the count is all that counts. -/
theorem order_congr {cells : List α} (hlen : cells.length = r.cells.length)
    (htake : cells.take r.count = r.cells.take r.count) (hcount : r.count ≤ r.cells.length) :
    order { r with cells := cells } = r.order := by
  unfold order
  dsimp only
  rw [hlen, htake]
  split
  · rfl
  · have hfull : r.count = r.cells.length := by omega
    rw [hfull, List.take_length, ← hlen, List.take_length] at htake
    rw [htake]

theorem order_map (f : α → α) : order { r with cells := r.cells.map f } = r.order.map f := by
  unfold order
  dsimp only
  rw [List.length_map]
  split
  · rw [List.map_take]
  · rw [List.map_append, List.map_drop, List.map_take]

theorem mem_order (h : r.Valid) (x : α) : x ∈ r.order ↔ x ∈ r.cells.take r.count := by
  have hcount := h.count
  unfold order
  split
  · exact Iff.rfl
  · have hall : r.cells.take r.count = r.cells := List.take_of_length_le (by omega)
    rw [hall, List.mem_append, or_comm, ← List.mem_append, List.take_append_drop]

section Keys
variable [DecidableEq κ] {key : α → κ} {l : List α}

/-- The one element with its key. -/
theorem modify_eq_map (hnodup : (l.map key).Nodup) {i : Nat} {x : α} (hx : l[i]? = some x) (f : α → α) :
    l.modify i f = l.map fun y => if key y = key x then f y else y := by
  induction l generalizing i with
  | nil => simp at hx
  | cons y l ih =>
    rw [List.map_cons, List.nodup_cons] at hnodup
    cases i with
    | zero =>
      obtain rfl : y = x := by simpa using hx
      have hrest : l.map (fun z => if key z = key y then f z else z) = l := by
        refine (List.map_congr_left fun z hz => ?_).trans (List.map_id l)
        refine if_neg fun he => hnodup.1 ?_
        rw [← he]
        exact List.mem_map_of_mem hz
      rw [List.modify_zero_cons, List.map_cons, if_pos rfl, hrest]
    | succ i =>
      have hx' : l[i]? = some x := by simpa using hx
      have hne : key y ≠ key x := by
        intro he
        exact hnodup.1 (he ▸ List.mem_map_of_mem (List.mem_of_getElem? hx'))
      rw [List.modify_succ_cons, List.map_cons, if_neg hne, ih hnodup.2 hx']

omit [DecidableEq κ] in
theorem nodup_take (h : r.Valid) : (r.order.map key).Nodup ↔ ((r.cells.take r.count).map key).Nodup := by
  have hcount := h.count
  unfold order
  split
  · exact Iff.rfl
  · have hall : r.cells.take r.count = r.cells := List.take_of_length_le (by omega)
    rw [hall]
    refine List.Perm.nodup_iff (List.Perm.map key ?_)
    exact List.perm_append_comm.trans (by rw [List.take_append_drop])

/-- **Changed.** -/
theorem order_modify (h : r.Valid) (hnodup : (r.order.map key).Nodup) {i : Nat} {x : α}
    (hx : (r.cells.take r.count)[i]? = some x) (f : α → α) :
    order { r with cells := r.cells.modify i f } = r.order.map fun y => if key y = key x then f y else y := by
  rw [← order_map]
  have hmodify := modify_eq_map ((nodup_take h).mp hnodup) hx f
  refine Eq.trans (order_congr (r := { r with cells := r.cells.map _ }) (by simp) ?_ (by simpa using h.count)) rfl
  dsimp only
  rw [List.take_modify, hmodify, List.map_take]

end Keys

/-! ## A bounded list -/

section Recent
variable [DecidableEq κ] (key : α → κ) (cap : Nat)

/-- An element with a new key goes to the end; one that is there is changed. -/
def note (q : List α) (x : α) : List α :=
  if q.any fun y => decide (key y = key x) then q.map fun y => if key y = key x then x else y
  else (if q.length < cap then q else q.tail) ++ [x]

/-- What a list holds of all that was noted. -/
structure Recent (noted q : List α) : Prop where
  nodup : (q.map key).Nodup
  bound : q.length ≤ cap
  last : ∀ y ∈ q, noted.reverse.find? (fun z => decide (key z = key y)) = some y
  newest : ∀ x, noted.getLast? = some x → x ∈ q
  all : (noted.map key).dedup.length ≤ cap → ∀ x ∈ noted, key x ∈ q.map key

variable {key cap} {noted q : List α} {x : α}

theorem any_key : (q.any fun y => decide (key y = key x)) = true ↔ key x ∈ q.map key := by
  simp only [List.any_eq_true, decide_eq_true_eq, List.mem_map]

theorem map_key_replace : (q.map fun y => if key y = key x then x else y).map key = q.map key := by
  rw [List.map_map]
  refine List.map_congr_left fun y _ => ?_
  dsimp only [Function.comp_apply]
  split
  · rename_i h
    exact h.symm
  · rfl

theorem mem_note (key : α → κ) (cap : Nat) (q : List α) (x : α) : x ∈ note key cap q x := by
  unfold note
  split
  · rename_i hany
    obtain ⟨y, hy, hkey⟩ := List.mem_map.mp (any_key.mp hany)
    exact List.mem_map.mpr ⟨y, hy, if_pos hkey⟩
  · simp

theorem recent_nil (key : α → κ) (cap : Nat) : Recent key cap [] [] :=
  ⟨by simp, by simp, by simp, by simp, by simp⟩

/-- **Step.** -/
theorem recent_note (hcap : 0 < cap) (h : Recent key cap noted q) :
    Recent key cap (noted ++ [x]) (note key cap q x) := by
  have hdedup : (noted.map key).dedup.length ≤ ((noted ++ [x]).map key).dedup.length := by
    refine List.Subperm.length_le (List.Nodup.subperm (List.nodup_dedup _) fun k hk => ?_)
    rw [List.mem_dedup] at hk ⊢
    rw [List.map_append]
    exact List.mem_append_left _ hk
  have hfind : ∀ y, (noted ++ [x]).reverse.find? (fun z => decide (key z = key y)) =
      if key x = key y then some x else noted.reverse.find? fun z => decide (key z = key y) := by
    intro y
    rw [List.reverse_append, List.reverse_singleton, List.singleton_append, List.find?_cons]
    by_cases he : key x = key y
    · simp [he]
    · simp [he]
  unfold note
  split
  · rename_i hany
    have hmem := any_key.mp hany
    refine ⟨?_, by simpa using h.bound, ?_, ?_, ?_⟩
    · rw [map_key_replace]
      exact h.nodup
    · intro y hy
      obtain ⟨z, hz, rfl⟩ := List.mem_map.mp hy
      rw [hfind]
      split
      · rw [if_pos rfl]
      · rename_i hne
        rw [if_neg (Ne.symm hne)]
        exact h.last z hz
    · intro y hy
      obtain rfl : x = y := by simpa using hy
      obtain ⟨z, hz, hkey⟩ := List.mem_map.mp hmem
      exact List.mem_map.mpr ⟨z, hz, if_pos hkey⟩
    · intro hall y hy
      rw [map_key_replace]
      rcases List.mem_append.mp hy with hy | hy
      · exact h.all (Nat.le_trans hdedup hall) y hy
      · rw [List.mem_singleton.mp hy]
        exact hmem
  · rename_i hany
    have hnew : key x ∉ q.map key := fun hm => hany (any_key.mpr hm)
    have hkept : (if q.length < cap then q else q.tail).Sublist q := by
      split
      · exact List.Sublist.refl q
      · exact List.tail_sublist q
    refine ⟨?_, ?_, ?_, by simp, ?_⟩
    · rw [List.map_append, List.map_singleton]
      refine List.Nodup.append ((hkept.map key).nodup h.nodup) (List.nodup_singleton _) ?_
      rw [List.disjoint_singleton]
      exact fun hm => hnew ((hkept.map key).subset hm)
    · have := h.bound
      rw [List.length_append, List.length_singleton]
      split
      · omega
      · rw [List.length_tail]
        omega
    · intro y hy
      rw [hfind]
      rcases List.mem_append.mp hy with hy | hy
      · have hq := hkept.subset hy
        have hne : key x ≠ key y := fun he => hnew (he ▸ List.mem_map_of_mem hq)
        rw [if_neg hne]
        exact h.last y hq
      · rw [List.mem_singleton.mp hy, if_pos rfl]
    · intro hall y hy
      have hroom : q.length < cap := by
        have hsub : (key x :: q.map key).Subperm ((noted ++ [x]).map key).dedup := by
          refine List.Nodup.subperm (List.nodup_cons.mpr ⟨hnew, h.nodup⟩) fun k hk => ?_
          rw [List.mem_dedup, List.map_append, List.mem_append]
          rcases List.mem_cons.mp hk with rfl | hk
          · exact Or.inr (by simp)
          · obtain ⟨z, hz, rfl⟩ := List.mem_map.mp hk
            have hfound := List.mem_of_find?_eq_some (h.last z hz)
            exact Or.inl (List.mem_map_of_mem (List.mem_reverse.mp hfound))
        have := hsub.length_le
        simp only [List.length_cons, List.length_map] at this
        omega
      rw [if_pos hroom, List.map_append, List.mem_append]
      rcases List.mem_append.mp hy with hy | hy
      · exact Or.inl (h.all (Nat.le_trans hdedup hall) y hy)
      · exact Or.inr (by rw [List.mem_singleton.mp hy]; simp)

end Recent

end RingBuffer

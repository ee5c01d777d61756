import Mathlib.Data.List.Basic

/-!
# Cutting a list into blocks, and writing over a part of one

A list is cut into blocks of `n` elements; only the last block may be shorter.
A write replaces what is at its place and appends what reaches past the end.

* `split_of_ne_nil`: the recursion equation.
* `getElem?_split`, `lt_length_split`: which elements each block has, and how
  many blocks there are.
* `length_overwrite`, `slice_overwrite_self`, `slice_overwrite_before`: what a
  write changes and what it leaves alone.
-/

namespace Blocks

variable {α : Type*}

/-- The fuel bounds the number of blocks. -/
def splitAux (n : Nat) : Nat → List α → List (List α)
  | 0, _ => []
  | _ + 1, [] => []
  | fuel + 1, a :: l => (a :: l).take n :: splitAux n fuel ((a :: l).drop n)

def split (n : Nat) (l : List α) : List (List α) := splitAux n l.length l

@[simp] theorem split_nil (n : Nat) : split n ([] : List α) = [] := rfl

/-- More fuel than elements changes nothing. -/
theorem splitAux_fuel {n : Nat} (hn : 0 < n) (fuel : Nat) (l : List α) (h : l.length ≤ fuel) :
    splitAux n fuel l = split n l := by
  unfold split
  induction fuel using Nat.strongRecOn generalizing l with
  | _ fuel ih =>
    cases l with
    | nil => cases fuel <;> rfl
    | cons a l =>
      cases fuel with
      | zero => simp at h
      | succ fuel =>
        have hd : ((a :: l).drop n).length ≤ l.length := by
          simp only [List.length_drop, List.length_cons]
          omega
        have hl : l.length ≤ fuel := by simpa using h
        rw [List.length_cons, splitAux, splitAux,
          ih fuel (Nat.lt_succ_self _) _ (Nat.le_trans hd hl)]
        congr 1
        by_cases hlt : l.length < fuel + 1
        · exact (ih l.length hlt _ hd).symm
        · omega

theorem split_of_ne_nil {n : Nat} (hn : 0 < n) {l : List α} (hl : l ≠ []) :
    split n l = l.take n :: split n (l.drop n) := by
  cases l with
  | nil => exact absurd rfl hl
  | cons a l =>
    have hd : ((a :: l).drop n).length ≤ l.length := by
      simp only [List.length_drop, List.length_cons]
      omega
    rw [← splitAux_fuel hn l.length _ hd]
    rfl

/-- The `len` elements from `off` on, or as many as there are. -/
def slice (l : List α) (off len : Nat) : List α := (l.drop off).take len

theorem length_slice (l : List α) (off len : Nat) :
    (slice l off len).length = min len (l.length - off) := by
  rw [slice, List.length_take, List.length_drop]

theorem getElem?_split {n : Nat} (hn : 0 < n) (l : List α) (i : Nat) :
    (split n l)[i]? = if i * n < l.length then some (slice l (i * n) n) else none := by
  induction i generalizing l with
  | zero =>
    cases l with
    | nil => simp
    | cons a l => simp [split_of_ne_nil hn (List.cons_ne_nil a l), slice]
  | succ i ih =>
    cases l with
    | nil => simp
    | cons a l =>
      have hdrop : ((a :: l).drop n).length = (a :: l).length - n := List.length_drop
      have hslice : slice ((a :: l).drop n) (i * n) n = slice (a :: l) ((i + 1) * n) n := by
        rw [slice, slice, List.drop_drop, Nat.add_mul, Nat.one_mul, Nat.add_comm n]
      rw [split_of_ne_nil hn (List.cons_ne_nil a l), List.getElem?_cons_succ, ih, hslice, hdrop,
        Nat.add_mul, Nat.one_mul]
      by_cases h : i * n < (a :: l).length - n
      · rw [if_pos h, if_pos (by omega)]
      · rw [if_neg h, if_neg (by omega)]

/-- Block `i` exists exactly where the list reaches it. -/
theorem lt_length_split {n : Nat} (hn : 0 < n) (l : List α) (i : Nat) :
    i < (split n l).length ↔ i * n < l.length := by
  have h := getElem?_split hn l i
  by_cases hi : i * n < l.length
  · rw [if_pos hi] at h
    exact ⟨fun _ => hi, fun _ => (List.getElem?_eq_some_iff.mp h).1⟩
  · rw [if_neg hi, List.getElem?_eq_none_iff] at h
    exact ⟨fun hlt => absurd hlt (by omega), fun hlt => absurd hlt hi⟩

/-! ## Writing in place -/

def overwrite (l : List α) (off : Nat) (data : List α) : List α :=
  l.take off ++ data ++ l.drop (off + data.length)

theorem length_overwrite {l : List α} {off : Nat} (h : off ≤ l.length) (data : List α) :
    (overwrite l off data).length = max l.length (off + data.length) := by
  simp only [overwrite, List.length_append, List.length_take, List.length_drop]
  omega

theorem slice_overwrite_self {l : List α} {off : Nat} (h : off ≤ l.length) (data : List α) :
    slice (overwrite l off data) off data.length = data := by
  have hlen : (l.take off).length = off := by simp [h]
  unfold slice overwrite
  rw [List.append_assoc, List.drop_left' hlen, List.take_left' rfl]

/-- What ends before the write begins is left alone. -/
theorem slice_overwrite_before {l : List α} {off a len : Nat} (hoff : off ≤ l.length)
    (h : a + len ≤ off) (data : List α) : slice (overwrite l off data) a len = slice l a len := by
  unfold slice overwrite
  rw [List.append_assoc, List.drop_append_of_le_length (by rw [List.length_take]; omega),
    List.take_append_of_le_length (by rw [List.length_drop, List.length_take]; omega),
    List.drop_take, List.take_take, Nat.min_eq_left (by omega)]

end Blocks

import Mathlib.Data.List.Perm.Basic

/-!
# Loops that work on an array in place

* `sort`: selection sort. The entry with the largest key is swapped to the front,
  then the next one; of equal keys the first one is taken. `sort_perm`,
  `sort_pairwise`: the entries are all there, and no key grows.
* `compact`: what is kept moves down over what is not. `compact_eq`: that is a
  filter.
-/

namespace InPlace

variable {α : Type*}

/-! ## Selection sort -/

section Selection
variable (key : α → Nat)

/-- The inner loop: the place and value of the best entry so far, and the place it is at. -/
def best (i : Nat) (b : α) (j : Nat) : List α → Nat × α
  | [] => (i, b)
  | y :: ys => if key b < key y then best j y (j + 1) ys else best i b (j + 1) ys

/-- The swap: `x` goes to the place `i` of `x :: xs`, where the entry at the front came from. -/
def moved (i : Nat) (x : α) (xs : List α) : List α := ((x :: xs).set i x).tail

/-- The outer loop, one round for each entry. -/
def rounds : Nat → List α → List α
  | 0, l => l
  | _ + 1, [] => []
  | n + 1, x :: xs =>
    let r := best key 0 x 1 xs
    r.2 :: rounds n (moved r.1 x xs)

def sort (l : List α) : List α := rounds key l.length l

variable {key}

/-- `l` is what was seen before, up to the place `j`. -/
theorem best_spec {i j : Nat} {b : α} {l ys : List α} (hlen : l.length = j) (hb : l[i]? = some b)
    (hmax : ∀ y ∈ l, key y ≤ key b) :
    (l ++ ys)[(best key i b j ys).1]? = some (best key i b j ys).2 ∧
      ∀ y ∈ l ++ ys, key y ≤ key (best key i b j ys).2 := by
  induction ys generalizing i j b l with
  | nil =>
    rw [List.append_nil]
    exact ⟨hb, hmax⟩
  | cons y ys ih =>
    have hsplit : l ++ y :: ys = (l ++ [y]) ++ ys := by simp
    rw [best, hsplit]
    split
    · rename_i hlt
      refine ih (by simp [hlen]) (by simp [← hlen]) ?_
      intro z hz
      rcases List.mem_append.mp hz with hz | hz
      · exact Nat.le_trans (hmax z hz) (Nat.le_of_lt hlt)
      · exact Nat.le_of_eq (congrArg key (List.mem_singleton.mp hz))
    · rename_i hle
      have hi : i < l.length := (List.getElem?_eq_some_iff.mp hb).1
      refine ih (by simp [hlen]) ?_ ?_
      · rw [List.getElem?_append_left hi]
        exact hb
      · intro z hz
        rcases List.mem_append.mp hz with hz | hz
        · exact hmax z hz
        · rw [List.mem_singleton.mp hz]
          omega

variable (key) in
/-- The inner loop from the front of the list on. -/
theorem best_front (x : α) (xs : List α) :
    (x :: xs)[(best key 0 x 1 xs).1]? = some (best key 0 x 1 xs).2 ∧
      ∀ y ∈ x :: xs, key y ≤ key (best key 0 x 1 xs).2 :=
  best_spec (l := [x]) rfl rfl (by simp)

theorem set_perm {i : Nat} {b : α} (x : α) {xs : List α} (h : xs[i]? = some b) :
    (b :: xs.set i x).Perm (x :: xs) := by
  induction xs generalizing i with
  | nil => simp at h
  | cons y ys ih =>
    cases i with
    | zero =>
      obtain rfl : y = b := by simpa using h
      exact List.Perm.swap x y ys
    | succ i =>
      have hys : ys[i]? = some b := by simpa using h
      calc (b :: y :: ys.set i x).Perm (y :: b :: ys.set i x) := List.Perm.swap y b _
        _ |>.Perm (y :: x :: ys) := (ih hys).cons y
        _ |>.Perm (x :: y :: ys) := List.Perm.swap x y ys

theorem moved_perm {i : Nat} {b x : α} {xs : List α} (h : (x :: xs)[i]? = some b) :
    (b :: moved i x xs).Perm (x :: xs) := by
  cases i with
  | zero =>
    obtain rfl : x = b := by simpa using h
    exact List.Perm.refl _
  | succ i => exact set_perm x (by simpa using h)

theorem rounds_perm (n : Nat) (l : List α) : (rounds key n l).Perm l := by
  induction n generalizing l with
  | zero => exact List.Perm.refl l
  | succ n ih =>
    cases l with
    | nil => exact List.Perm.refl _
    | cons x xs => exact ((ih _).cons _).trans (moved_perm (best_front key x xs).1)

variable (key) in
theorem sort_perm (l : List α) : (sort key l).Perm l := rounds_perm l.length l

theorem rounds_pairwise {n : Nat} {l : List α} (h : l.length ≤ n) :
    (rounds key n l).Pairwise fun a b => key b ≤ key a := by
  induction n generalizing l with
  | zero =>
    obtain rfl : l = [] := by simpa using h
    exact List.Pairwise.nil
  | succ n ih =>
    cases l with
    | nil => exact List.Pairwise.nil
    | cons x xs =>
      obtain ⟨hat, hmax⟩ := best_front key x xs
      have hperm := moved_perm hat
      refine List.pairwise_cons.mpr ⟨?_, ih ?_⟩
      · intro y hy
        have hmem := (rounds_perm n _).mem_iff.mp hy
        exact hmax y (hperm.mem_iff.mp (List.mem_cons_of_mem _ hmem))
      · have hlen := hperm.length_eq
        simp only [List.length_cons] at hlen h
        omega

theorem sort_pairwise (l : List α) : (sort key l).Pairwise fun a b => key b ≤ key a :=
  rounds_pairwise (Nat.le_refl _)

end Selection

/-! ## Compaction -/

/-- `i` is where the loop reads and `w` where it writes. -/
def compactFrom (p : α → Bool) : Nat → Nat → Nat → List α → List α
  | 0, _, w, l => l.take w
  | n + 1, i, w, l =>
    match l[i]? with
    | none => l.take w
    | some a => if p a then compactFrom p n (i + 1) (w + 1) (l.set w a) else compactFrom p n (i + 1) w l

def compact (p : α → Bool) (l : List α) : List α := compactFrom p l.length 0 0 l

theorem compactFrom_eq (p : α → Bool) {n i w : Nat} {l : List α} (hw : w ≤ i) (hn : l.length = i + n) :
    compactFrom p n i w l = l.take w ++ (l.drop i).filter p := by
  induction n generalizing i w l with
  | zero =>
    rw [compactFrom, List.drop_eq_nil_of_le (by omega), List.filter_nil, List.append_nil]
  | succ n ih =>
    have hi : i < l.length := by omega
    rw [compactFrom, List.getElem?_eq_getElem hi, List.drop_eq_getElem_cons hi]
    dsimp only
    cases hp : p l[i] with
    | false =>
      rw [List.filter_cons_of_neg (by simp [hp])]
      exact ih (by omega) (by omega)
    | true =>
      rw [List.filter_cons_of_pos (by simp [hp])]
      have htake : (l.set w l[i]).take (w + 1) = l.take w ++ [l[i]] := by
        rw [List.take_succ_eq_append_getElem (by simp; omega), List.take_set_of_le (Nat.le_refl _),
          List.getElem_set_self]
      have hdrop : (l.set w l[i]).drop (i + 1) = l.drop (i + 1) :=
        List.drop_set_of_lt (by omega)
      rw [if_pos rfl, ih (by omega) (by simp; omega), htake, hdrop, List.append_assoc]
      rfl

theorem compact_eq (p : α → Bool) (l : List α) : compact p l = l.filter p := by
  unfold compact
  rw [compactFrom_eq p (Nat.le_refl 0) (by simp)]
  simp

end InPlace

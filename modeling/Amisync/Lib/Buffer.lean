import Mathlib.Data.List.Basic

/-!
# Writing into a buffer

A buffer is a list of fixed length. `write m off d` is the buffer after a copy of
`d` to the offset `off`, and `read m off n` are `n` entries from there.

* `length_write`: a copy that fits leaves the buffer its length.
* `take_write`, `drop_write`, `drop_write_after`: what lies before the copy, from it on, and after it.
* `read_write`: what was copied; `read_of_take`: what is read from a known front.
* `shift`: a region that is moved up to make room for its own head.
-/

namespace Buffer

variable {α : Type*}

def write (m : List α) (off : Nat) (d : List α) : List α :=
  m.take off ++ d ++ m.drop (off + d.length)

def read (m : List α) (off n : Nat) : List α := (m.drop off).take n

variable {m d : List α} {i n : Nat}

theorem length_write (h : i + d.length ≤ m.length) : (write m i d).length = m.length := by
  rw [write, List.length_append, List.length_append, List.length_take, List.length_drop]
  omega

@[simp] theorem write_nil (m : List α) (i : Nat) : write m i [] = m := by
  simp [write]

theorem write_zero (m d : List α) : write m 0 d = d ++ m.drop d.length := by
  simp [write]

/-- What lies before the copy is as it was. -/
theorem take_write (hn : n ≤ i) (h : i ≤ m.length) : (write m i d).take n = m.take n := by
  rw [write, List.append_assoc, List.take_append_of_le_length (by rw [List.length_take]; omega),
    List.take_take, Nat.min_eq_left hn]

theorem drop_write (h : i ≤ m.length) :
    (write m i d).drop i = d ++ m.drop (i + d.length) := by
  have hlen : (m.take i).length = i := List.length_take_of_le h
  rw [write, List.append_assoc]
  exact List.drop_left' hlen

/-- What lies after the copy is as it was. -/
theorem drop_write_after (hn : i + d.length ≤ n) (h : i ≤ m.length) : (write m i d).drop n = m.drop n := by
  have hlen : (m.take i ++ d).length = i + d.length := by
    rw [List.length_append, List.length_take_of_le h]
  rw [write, List.drop_append, hlen, List.drop_of_length_le (hlen ▸ hn), List.drop_drop, List.nil_append]
  congr 1
  omega

theorem read_write (h : i ≤ m.length) : read (write m i d) i d.length = d := by
  rw [read, drop_write h, List.take_left]

/-- Up to the end of the copy. -/
theorem take_write_end (h : i ≤ m.length) :
    (write m i d).take (i + d.length) = m.take i ++ d := by
  have hlen : (m.take i ++ d).length = i + d.length := by
    rw [List.length_append, List.length_take_of_le h]
  rw [write]
  exact List.take_left' hlen

/-- Reading from what is known of the front of the buffer. -/
theorem read_of_take {p : List α} {k : Nat} (h : m.take (p.length + d.length) = p ++ d)
    (hk : k ≤ d.length) : read m p.length k = d.take k := by
  have hcut : (m.take (p.length + d.length)).drop p.length = d := by
    rw [h, List.drop_left]
  rw [List.drop_take, Nat.add_sub_cancel_left] at hcut
  rw [read, ← hcut, List.take_take, Nat.min_eq_left hk]

/-- **Shift.** A body is written at `i`, moved up by the length of its head, and the head is
put before it. -/
theorem shift (m : List α) (i : Nat) (head body : List α) (h : i + head.length + body.length ≤ m.length) :
    let m₁ := write m i body
    let m₂ := write m₁ (i + head.length) (read m₁ i body.length)
    let m₃ := write m₂ i head
    m₃.length = m.length ∧ m₃.take (i + (head.length + body.length)) = m.take i ++ (head ++ body) := by
  intro m₁ m₂ m₃
  have h₁ : m₁.length = m.length := length_write (by omega)
  have hread : read m₁ i body.length = body := read_write (by omega)
  have h₂ : m₂.length = m.length := by
    rw [← h₁]
    exact length_write (by rw [hread]; omega)
  have hdrop : m₂.drop (i + head.length) = body ++ m₁.drop (i + head.length + body.length) := by
    show (write m₁ (i + head.length) (read m₁ i body.length)).drop (i + head.length) = _
    rw [hread]
    exact drop_write (by omega)
  have htake : m₂.take i = m.take i := by
    rw [show m₂.take i = m₁.take i from take_write (by omega) (by omega)]
    exact take_write (Nat.le_refl _) (by omega)
  refine ⟨(length_write (by omega)).trans h₂, ?_⟩
  have hm₃ : m₃ = (m.take i ++ (head ++ body)) ++ m₁.drop (i + head.length + body.length) := by
    show m₂.take i ++ head ++ m₂.drop (i + head.length) = _
    rw [htake, hdrop]
    simp only [List.append_assoc]
  rw [hm₃]
  refine List.take_left' ?_
  rw [List.length_append, List.length_append, List.length_take_of_le (by omega)]

end Buffer

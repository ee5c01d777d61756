import Mathlib.Data.Nat.Bitwise

/-!
# Words in a stream of bits

Words of a fixed width, one behind the other, as one string of bits, the most
significant first. Packers and unpackers of any two widths meet in that string.

* `bits_add`: the bits of a word, cut in two.
* `bits_shiftLeft_or`: a word that is moved up for another one.
* `bits_inj`, `stream_inj`: the words again from their bits.
-/

namespace BitStream

/-- The low `w` bits of a word. -/
def bits : Nat → Nat → List Bool
  | 0, _ => []
  | w + 1, n => n.testBit w :: bits w n

@[simp] theorem length_bits (w n : Nat) : (bits w n).length = w := by
  induction w with
  | zero => rfl
  | succ w ih => rw [bits, List.length_cons, ih]

theorem bits_congr {w n m : Nat} (h : ∀ i < w, n.testBit i = m.testBit i) : bits w n = bits w m := by
  induction w with
  | zero => rfl
  | succ w ih => rw [bits, bits, h w (Nat.lt_succ_self w), ih fun i hi => h i (Nat.lt_succ_of_lt hi)]

/-- **Cutting.** -/
theorem bits_add (a b n : Nat) : bits (a + b) n = bits a (n >>> b) ++ bits b n := by
  induction a with
  | zero => rw [Nat.zero_add, bits, List.nil_append]
  | succ a ih =>
    rw [Nat.add_right_comm, bits, ih, bits, Nat.testBit_shiftRight, List.cons_append, Nat.add_comm b]

theorem bits_mod {w k : Nat} (h : w ≤ k) (n : Nat) : bits w (n % 2 ^ k) = bits w n := by
  refine bits_congr ?_
  intro i hi
  rw [Nat.testBit_mod_two_pow, decide_eq_true (by omega : i < k), Bool.true_and]

/-- **Appending.** -/
theorem bits_shiftLeft_or (a : Nat) {b d : Nat} (n : Nat) (hd : d < 2 ^ b) :
    bits (a + b) (n <<< b ||| d) = bits a n ++ bits b d := by
  rw [bits_add]
  congr 1
  · refine bits_congr ?_
    intro i _
    rw [Nat.testBit_shiftRight, Nat.testBit_or, Nat.testBit_shiftLeft,
      Nat.testBit_eq_false_of_lt (Nat.lt_of_lt_of_le hd (Nat.pow_le_pow_right (by omega) (by omega))),
      Bool.or_false, Nat.add_sub_cancel_left, decide_eq_true (by omega : b + i ≥ b), Bool.true_and]
  · refine bits_congr ?_
    intro i hi
    rw [Nat.testBit_or, Nat.testBit_shiftLeft, decide_eq_false (by omega : ¬ i ≥ b), Bool.false_and,
      Bool.false_or]

/-- **The word again.** -/
theorem bits_inj {w n m : Nat} : bits w n = bits w m ↔ n % 2 ^ w = m % 2 ^ w := by
  constructor
  · intro h
    refine Nat.eq_of_testBit_eq ?_
    intro i
    rw [Nat.testBit_mod_two_pow, Nat.testBit_mod_two_pow]
    by_cases hi : i < w
    · have hbit : n.testBit i = m.testBit i := by
        induction w with
        | zero => omega
        | succ w ih =>
          rw [bits, bits] at h
          obtain ⟨htop, hrest⟩ := List.cons.inj h
          rcases Nat.lt_succ_iff_lt_or_eq.mp hi with hi | rfl
          · exact ih hrest hi
          · exact htop
      rw [hbit]
    · rw [decide_eq_false hi, Bool.false_and, Bool.false_and]
  · intro h
    rw [← bits_mod (Nat.le_refl w) n, ← bits_mod (Nat.le_refl w) m, h]

/-- Words one behind the other. -/
def stream (w : Nat) (ns : List Nat) : List Bool := ns.flatMap (bits w)

@[simp] theorem stream_nil (w : Nat) : stream w [] = [] := rfl

@[simp] theorem stream_cons (w n : Nat) (ns : List Nat) : stream w (n :: ns) = bits w n ++ stream w ns := rfl

theorem stream_append (w : Nat) (ns ms : List Nat) : stream w (ns ++ ms) = stream w ns ++ stream w ms :=
  List.flatMap_append

theorem length_stream (w : Nat) (ns : List Nat) : (stream w ns).length = w * ns.length := by
  induction ns with
  | nil => rfl
  | cons n ns ih =>
    rw [stream_cons, List.length_append, length_bits, ih, List.length_cons, Nat.mul_add]
    omega

/-- **The words again.** -/
theorem stream_inj {w : Nat} {ns ms : List Nat} (hns : ∀ n ∈ ns, n < 2 ^ w) (hms : ∀ m ∈ ms, m < 2 ^ w)
    (hlen : ns.length = ms.length) (h : stream w ns = stream w ms) : ns = ms := by
  induction ns generalizing ms with
  | nil =>
    cases ms with
    | nil => rfl
    | cons m ms => cases hlen
  | cons n ns ih =>
    cases ms with
    | nil => cases hlen
    | cons m ms =>
      rw [stream_cons, stream_cons] at h
      obtain ⟨hword, hrest⟩ := List.append_inj h (by rw [length_bits, length_bits])
      have hnm := bits_inj.mp hword
      rw [Nat.mod_eq_of_lt (hns n List.mem_cons_self), Nat.mod_eq_of_lt (hms m List.mem_cons_self)] at hnm
      rw [hnm, ih (fun n hn => hns n (List.mem_cons_of_mem _ hn)) (fun m hm => hms m (List.mem_cons_of_mem _ hm))
        (Nat.succ.inj hlen) hrest]

end BitStream

import Mathlib.Data.List.Basic

/-!
# Messages through a pipe

A pipe carries elements in their order; a message is put into it as a word that codes it, and
a word may break off when the sender fails.

* `PrefixFree`, `PrefixFree.cut`: where one word ends is known from the words.
* `Flow`: what was sent is what was read and what is in the pipe.
* `flow_send`, `flow_cut`, `flow_read`: the ends of the pipe.
-/

namespace Pipe

variable {ι β : Type*}

/-- No word begins another. -/
def PrefixFree (C : List β → Prop) : Prop := ∀ x y r q, C x → C y → x ++ r = y ++ q → x = y

/-- There is no word in a part of one. -/
theorem PrefixFree.cut {C : List β → Prop} (h : PrefixFree C) {x y part r : List β} (hx : C x) (hy : C y)
    (hpart : part <+: x) (hshort : part.length < x.length) : part ≠ y ++ r := by
  rintro rfl
  obtain ⟨q, hq⟩ := hpart
  have hxy : x = y := h x y [] (r ++ q) hx hy (by rw [List.append_nil, ← hq, List.append_assoc])
  rw [hxy, List.length_append] at hshort
  omega

/-- In the pipe are the words of what was sent and not yet read, and then `part`. -/
def Flow (Codes : ι → List β → Prop) (sent got : List ι) (pipe part : List β) : Prop :=
  ∃ pending : List (ι × List β), sent = got ++ pending.map Prod.fst ∧
    pipe = pending.flatMap Prod.snd ++ part ∧ ∀ p ∈ pending, Codes p.1 p.2

variable {Codes : ι → List β → Prop} {sent got : List ι} {pipe part : List β}

theorem flow_empty : Flow Codes [] [] [] [] := ⟨[], rfl, rfl, by simp⟩

theorem Flow.isPrefix (h : Flow Codes sent got pipe part) : got <+: sent := by
  obtain ⟨pending, hsent, -, -⟩ := h
  exact ⟨_, hsent.symm⟩

/-- A word is put in. -/
theorem flow_send (h : Flow Codes sent got pipe []) {i : ι} {b : List β} (hb : Codes i b) :
    Flow Codes (sent ++ [i]) got (pipe ++ b) [] := by
  obtain ⟨pending, rfl, rfl, hpending⟩ := h
  refine ⟨pending ++ [(i, b)], by simp, by simp, ?_⟩
  intro p hp
  rcases List.mem_append.mp hp with hp | hp
  · exact hpending p hp
  · rw [List.mem_singleton.mp hp]
    exact hb

/-- A part of one is put in. -/
theorem flow_cut (h : Flow Codes sent got pipe []) (part : List β) : Flow Codes sent got (pipe ++ part) part := by
  obtain ⟨pending, rfl, rfl, hpending⟩ := h
  exact ⟨pending, rfl, by simp, hpending⟩

/-- The other end has a word before it, or what was left of the last one. -/
theorem flow_read (h : Flow Codes sent got pipe part) :
    (sent = got ∧ pipe = part) ∨
      ∃ i b rest later, Codes i b ∧ pipe = b ++ rest ∧ sent = got ++ i :: later ∧
        Flow Codes sent (got ++ [i]) rest part := by
  obtain ⟨pending, rfl, rfl, hpending⟩ := h
  cases pending with
  | nil => exact Or.inl ⟨by simp, by simp⟩
  | cons p pending =>
    refine Or.inr ⟨p.1, p.2, pending.flatMap Prod.snd ++ part, pending.map Prod.fst, ?_, by simp, by simp, ?_⟩
    · exact hpending p List.mem_cons_self
    · exact ⟨pending, by simp, rfl, fun q hq => hpending q (List.mem_cons_of_mem p hq)⟩

end Pipe

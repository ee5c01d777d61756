import Mathlib.Data.List.Nodup
import Mathlib.Data.List.Perm.Basic

/-!
# Tables kept as lists of keyed entries

A table is a list of entries with a key function; no two entries share a key
(`NodupKeys`).

* `lookup_upsert`: what is found after an entry has been stored.
* `lookup_of_mem`: on distinct keys, what is there is found.
* `nodupKeys_upsert`: storing keeps the keys distinct.
* `perm_cons_dropFirst`: taking one element out of a list without order.
* `swapRemove_perm`, `sweep_perm`: removing an entry by moving the last one into
  its place, once or in a loop, removes nothing else.
* `lookup_swapRemove`, `lookup_sweep`: what is found after that.
-/

namespace Keyed

variable {α κ : Type*} [DecidableEq κ] (key : α → κ)

/-- The first entry of key `k`. -/
def lookup (k : κ) (l : List α) : Option α := l.find? (fun a => key a = k)

/-- Replace the entry of the same key in place, or append. -/
def upsert (a : α) : List α → List α
  | [] => [a]
  | b :: l => if key b = key a then a :: l else b :: upsert a l

def NodupKeys (l : List α) : Prop := (l.map key).Nodup

instance (l : List α) : Decidable (NodupKeys key l) :=
  inferInstanceAs (Decidable (List.Nodup _))

variable {key}

@[simp] theorem lookup_nil (k : κ) : lookup key k [] = none := rfl

theorem lookup_cons (k : κ) (b : α) (l : List α) :
    lookup key k (b :: l) = if key b = k then some b else lookup key k l := by
  unfold lookup
  by_cases h : key b = k <;> simp [h]

theorem key_of_lookup {k : κ} {l : List α} {a : α} (h : lookup key k l = some a) : key a = k := by
  simpa using List.find?_some h

theorem mem_of_lookup {k : κ} {l : List α} {a : α} (h : lookup key k l = some a) : a ∈ l :=
  List.mem_of_find?_eq_some h

theorem lookup_eq_none_iff {k : κ} {l : List α} : lookup key k l = none ↔ k ∉ l.map key := by
  simp [lookup]

theorem lookup_of_mem {l : List α} (hn : NodupKeys key l) {a : α} (ha : a ∈ l) :
    lookup key (key a) l = some a := by
  induction l with
  | nil => simp at ha
  | cons b l ih =>
    simp only [NodupKeys, List.map_cons, List.nodup_cons] at hn
    rw [lookup_cons]
    rcases List.mem_cons.mp ha with rfl | ha
    · simp
    · have hne : ¬ key b = key a := by
        intro e
        exact hn.1 (e ▸ List.mem_map_of_mem ha)
      rw [if_neg hne]
      exact ih hn.2 ha

/-- **Store lemma.** -/
theorem lookup_upsert (k : κ) (a : α) (l : List α) :
    lookup key k (upsert key a l) = if k = key a then some a else lookup key k l := by
  induction l with
  | nil =>
    rw [upsert, lookup_cons, lookup_nil]
    by_cases h : k = key a
    · simp [h]
    · have h' : ¬ key a = k := fun e => h e.symm
      simp [h, h']
  | cons b l ih =>
    rw [upsert]
    by_cases hb : key b = key a
    · rw [if_pos hb, lookup_cons, lookup_cons, hb]
      by_cases h : k = key a
      · simp [h]
      · have h' : ¬ key a = k := fun e => h e.symm
        simp [h, h']
    · rw [if_neg hb, lookup_cons, lookup_cons, ih]
      by_cases hk : key b = k
      · have h : ¬ k = key a := fun e => hb (hk.trans e)
        simp [hk, h]
      · simp [hk]

theorem mem_keys_upsert (k : κ) (a : α) (l : List α) :
    k ∈ (upsert key a l).map key ↔ k = key a ∨ k ∈ l.map key := by
  have h : lookup key k (upsert key a l) = if k = key a then some a else lookup key k l :=
    lookup_upsert k a l
  rw [← not_iff_not, ← lookup_eq_none_iff, h, not_or, ← lookup_eq_none_iff]
  by_cases hk : k = key a <;> simp [hk]

theorem eq_or_mem_of_mem_upsert {a b : α} {l : List α} (h : b ∈ upsert key a l) :
    b = a ∨ b ∈ l := by
  induction l with
  | nil => simpa [upsert] using h
  | cons c l ih =>
    rw [upsert] at h
    by_cases hc : key c = key a
    · rw [if_pos hc] at h
      rcases List.mem_cons.mp h with rfl | h
      · exact Or.inl rfl
      · exact Or.inr (List.mem_cons_of_mem _ h)
    · rw [if_neg hc] at h
      rcases List.mem_cons.mp h with rfl | h
      · exact Or.inr List.mem_cons_self
      · exact (ih h).imp id (List.mem_cons_of_mem _)

/-- Storing moves no entry. -/
theorem getElem?_upsert {a b : α} {l : List α} {i : Nat} (h : (upsert key a l)[i]? = some b) :
    b = a ∨ l[i]? = some b := by
  induction l generalizing i with
  | nil =>
    cases i with
    | zero => exact Or.inl (by simpa [upsert, eq_comm] using h)
    | succ i => simp [upsert] at h
  | cons c l ih =>
    rw [upsert] at h
    split at h
    · cases i with
      | zero => exact Or.inl (by simpa [eq_comm] using h)
      | succ i => exact Or.inr (by simpa using h)
    · cases i with
      | zero => exact Or.inr (by simpa using h)
      | succ i => exact (ih (by simpa using h)).imp id (by simp)

theorem nodupKeys_upsert {l : List α} (a : α) (hn : NodupKeys key l) :
    NodupKeys key (upsert key a l) := by
  induction l with
  | nil => simp [NodupKeys, upsert]
  | cons b l ih =>
    simp only [NodupKeys, List.map_cons, List.nodup_cons] at hn
    rw [upsert]
    by_cases hb : key b = key a
    · rw [if_pos hb]
      simp only [NodupKeys, List.map_cons, List.nodup_cons]
      exact ⟨hb ▸ hn.1, hn.2⟩
    · rw [if_neg hb]
      simp only [NodupKeys, List.map_cons, List.nodup_cons]
      refine ⟨?_, ih hn.2⟩
      rw [mem_keys_upsert]
      rintro (e | e)
      · exact hb e
      · exact hn.1 e

/-- A value that is new stays the only one of its kind. -/
theorem nodup_map_upsert {β : Type*} {f : α → β} {a : α} {l : List α} (hn : (l.map f).Nodup)
    (hnew : f a ∉ l.map f) : ((upsert key a l).map f).Nodup := by
  induction l with
  | nil => simp [upsert]
  | cons b l ih =>
    rw [List.map_cons, List.nodup_cons] at hn
    rw [List.map_cons, List.mem_cons, not_or] at hnew
    rw [upsert]
    split
    · rw [List.map_cons, List.nodup_cons]
      exact ⟨hnew.2, hn.2⟩
    · rw [List.map_cons, List.nodup_cons]
      refine ⟨fun hmem => ?_, ih hn.2 hnew.2⟩
      obtain ⟨c, hc, hfc⟩ := List.mem_map.mp hmem
      rcases eq_or_mem_of_mem_upsert hc with rfl | hc
      · exact hnew.1 hfc
      · exact hn.1 (List.mem_map.mpr ⟨c, hc, hfc⟩)

theorem upsert_of_not_mem {a : α} {l : List α} (h : key a ∉ l.map key) :
    upsert key a l = l ++ [a] := by
  induction l with
  | nil => rfl
  | cons b l ih =>
    rw [List.map_cons, List.mem_cons, not_or] at h
    rw [upsert, if_neg (fun e => h.1 e.symm), ih h.2]
    rfl

/-- Where the entry is known, storing overwrites it. -/
theorem upsert_eq_set {a b : α} {l : List α} (hn : NodupKeys key l) {i : Nat} (hb : l[i]? = some b)
    (hk : key b = key a) : upsert key a l = l.set i a := by
  induction l generalizing i with
  | nil => simp at hb
  | cons c l ih =>
    simp only [NodupKeys, List.map_cons, List.nodup_cons] at hn
    cases i with
    | zero =>
      rw [List.getElem?_cons_zero, Option.some.injEq] at hb
      rw [upsert, if_pos (hb ▸ hk), List.set_cons_zero]
    | succ i =>
      rw [List.getElem?_cons_succ] at hb
      have hne : ¬ key c = key a := by
        intro e
        exact hn.1 (e ▸ hk ▸ List.mem_map_of_mem (List.mem_of_getElem? hb))
      rw [upsert, if_neg hne, ih hn.2 hb, List.set_cons_succ]

/-! ## Removal by moving the last entry into the hole -/

/-- Overwrite entry `i` with the last one and drop the last. -/
def swapRemove (i : Nat) (l : List α) : List α :=
  match l.getLast? with
  | none => []
  | some z => (l.set i z).dropLast

theorem swapRemove_append (i : Nat) (l : List α) (z : α) :
    swapRemove i (l ++ [z]) = if i < l.length then l.set i z else l := by
  unfold swapRemove
  rw [List.getLast?_append_of_ne_nil _ (by simp)]
  simp only [List.getLast?_singleton]
  split
  · rename_i h
    rw [List.set_append_left _ _ h, List.dropLast_concat]
  · rename_i h
    rw [List.set_append_right _ _ (by omega)]
    cases hk : i - l.length with
    | zero => simp
    | succ k => simp

theorem getElem?_swapRemove {i : Nat} {l : List α} (h : i < l.length) (j : Nat) :
    (swapRemove i l)[j]? =
      if j < l.length - 1 then if j = i then l.getLast? else l[j]? else none := by
  obtain ⟨l', z, rfl⟩ : ∃ l' z, l = l' ++ [z] :=
    ⟨l.dropLast, l.getLast (List.ne_nil_of_length_pos (by omega)),
      (List.dropLast_concat_getLast _).symm⟩
  rw [swapRemove_append, List.getLast?_concat, List.length_append, List.length_singleton,
    Nat.add_sub_cancel]
  by_cases hj : j < l'.length
  · rw [if_pos hj, List.getElem?_append_left hj]
    split
    · rw [List.getElem?_set]
      by_cases hij : i = j
      · simp [hij, hj]
      · have hji : ¬ j = i := fun e => hij e.symm
        simp [hij, hji]
    · rename_i hi
      rw [if_neg (by omega)]
  · rw [if_neg hj]
    split
    · rw [List.getElem?_eq_none (by simpa using hj)]
    · rw [List.getElem?_eq_none (by simpa using hj)]

theorem swapRemove_perm {i : Nat} {l : List α} (h : i < l.length) :
    (swapRemove i l).Perm (l.eraseIdx i) := by
  obtain ⟨l', z, rfl⟩ : ∃ l' z, l = l' ++ [z] :=
    ⟨l.dropLast, l.getLast (List.ne_nil_of_length_pos (by omega)),
      (List.dropLast_concat_getLast _).symm⟩
  rw [swapRemove_append]
  split
  · rename_i hi
    rw [List.eraseIdx_append_of_lt_length hi, List.set_eq_take_append_cons_drop, if_pos hi,
      List.eraseIdx_eq_take_drop_succ, List.append_assoc]
    refine List.Perm.append_left _ ?_
    exact (List.perm_append_singleton z _).symm
  · rename_i hi
    rw [List.length_append, List.length_singleton] at h
    have : i = l'.length := by omega
    subst this
    rw [List.eraseIdx_append_of_length_le (Nat.le_refl _)]
    simp

theorem perm_cons_swapRemove {i : Nat} {l : List α} {a : α} (h : l[i]? = some a) :
    l.Perm (a :: swapRemove i l) := by
  obtain ⟨hi, rfl⟩ := List.getElem?_eq_some_iff.mp h
  exact (List.getElem_cons_eraseIdx_perm hi).symm.trans ((swapRemove_perm hi).symm.cons _)

/-- Taking out the first entry that is found. -/
theorem perm_cons_eraseP {p : α → Bool} {l : List α} {a : α} (h : l.find? p = some a) :
    l.Perm (a :: l.eraseP p) := by
  obtain ⟨ha, as, bs, rfl, has⟩ := List.find?_eq_some_iff_append.mp h
  rw [List.eraseP_append_right _ (fun b hb => by simpa using has b hb), List.eraseP_cons_of_pos ha]
  exact List.perm_middle

section First
variable [DecidableEq α]

/-- Take out the first occurrence of `a`, if there is one. -/
def dropFirst (a : α) (l : List α) : List α :=
  if a ∈ l then swapRemove (l.idxOf a) l else l

theorem perm_cons_dropFirst {a : α} {l : List α} (h : a ∈ l) : l.Perm (a :: dropFirst a l) := by
  rw [dropFirst, if_pos h]
  exact perm_cons_swapRemove (List.getElem?_idxOf h)

theorem mem_dropFirst_of_ne {a b : α} (l : List α) (hne : b ≠ a) : b ∈ dropFirst a l ↔ b ∈ l := by
  by_cases h : a ∈ l
  · rw [(perm_cons_dropFirst h).mem_iff, List.mem_cons]
    exact ⟨Or.inr, fun hb => hb.resolve_left hne⟩
  · rw [dropFirst, if_neg h]

theorem nodup_dropFirst {l : List α} (hn : l.Nodup) (a : α) :
    (dropFirst a l).Nodup ∧ a ∉ dropFirst a l := by
  by_cases h : a ∈ l
  · have hp := (perm_cons_dropFirst h).nodup_iff.mp hn
    exact ⟨(List.nodup_cons.mp hp).2, (List.nodup_cons.mp hp).1⟩
  · rw [dropFirst, if_neg h]
    exact ⟨hn, h⟩

end First

/-- The loop `while (i < n)` that removes every entry meeting `p`, entry `i` being looked at
again after the last one has been moved there. -/
def sweepAux (p : α → Bool) : Nat → Nat → List α → List α
  | 0, _, l => l
  | fuel + 1, i, l =>
    match l[i]? with
    | none => l
    | some a =>
      if p a then sweepAux p fuel i (swapRemove i l) else sweepAux p fuel (i + 1) l

def sweep (p : α → Bool) (l : List α) : List α := sweepAux p l.length 0 l

/-- What the loop has not looked at yet loses the entries meeting `p`, and nothing else. -/
theorem sweepAux_perm (p : α → Bool) (fuel i : Nat) (l : List α) (h : l.length ≤ fuel + i) :
    (sweepAux p fuel i l).Perm (l.take i ++ (l.drop i).filter (fun a => !p a)) := by
  induction fuel generalizing i l with
  | zero =>
    rw [sweepAux, List.take_of_length_le (by omega), List.drop_of_length_le (by omega)]
    simp
  | succ fuel ih =>
    rw [sweepAux]
    cases hi : l[i]? with
    | none =>
      rw [List.getElem?_eq_none_iff] at hi
      rw [List.take_of_length_le hi, List.drop_of_length_le hi]
      simp
    | some a =>
      obtain ⟨hlt, ha⟩ := List.getElem?_eq_some_iff.mp hi
      have hdrop : l.drop i = a :: l.drop (i + 1) := by rw [List.drop_eq_getElem_cons hlt, ha]
      dsimp only
      split
      · rename_i hp
        have hperm := swapRemove_perm hlt
        have hlen : (swapRemove i l).length = l.length - 1 := by
          rw [hperm.length_eq, List.length_eraseIdx, if_pos hlt]
        refine (ih i _ (by omega)).trans ?_
        rw [hdrop, List.filter_cons, if_neg (by simp [hp])]
        have htake : (swapRemove i l).take i = l.take i := by
          unfold swapRemove
          obtain ⟨z, hz⟩ : ∃ z, l.getLast? = some z := by
            cases hz : l.getLast? with
            | none =>
              rw [List.getLast?_eq_none_iff] at hz
              simp [hz] at hlt
            | some z => exact ⟨z, rfl⟩
          rw [hz]
          simp only [List.dropLast_eq_take, List.length_set]
          rw [List.take_take, List.take_set_of_le (Nat.min_le_left _ _), Nat.min_eq_left (by omega)]
        have hrest : ((swapRemove i l).drop i).Perm (l.drop (i + 1)) := by
          have h1 : ((swapRemove i l).take i ++ (swapRemove i l).drop i).Perm
              (l.take i ++ l.drop (i + 1)) := by
            rw [List.take_append_drop, ← List.eraseIdx_eq_take_drop_succ]
            exact hperm
          rw [htake] at h1
          exact (List.perm_append_left_iff _).mp h1
        rw [htake]
        exact (hrest.filter _).append_left _
      · rename_i hp
        refine (ih (i + 1) l (by omega)).trans ?_
        rw [hdrop, List.filter_cons, if_pos (by simp [hp]), List.take_succ_eq_append_getElem hlt, ha]
        simp

/-- **Sweep lemma.** -/
theorem sweep_perm (p : α → Bool) (l : List α) :
    (sweep p l).Perm (l.filter (fun a => !p a)) := by
  simpa [sweep] using sweepAux_perm p l.length 0 l (by omega)

theorem lookup_perm {l m : List α} (hn : NodupKeys key l) (hp : l.Perm m) (k : κ) :
    lookup key k l = lookup key k m := by
  have hm : NodupKeys key m := (hp.map key).nodup_iff.mp hn
  cases hl : lookup key k l with
  | none =>
    rw [lookup_eq_none_iff, (hp.map key).mem_iff] at hl
    exact (lookup_eq_none_iff.mpr hl).symm
  | some a =>
    have ha : a ∈ m := hp.mem_iff.mp (mem_of_lookup hl)
    rw [← key_of_lookup hl]
    exact (lookup_of_mem hm ha).symm

theorem lookup_filter {l : List α} (hn : NodupKeys key l) (p : α → Bool) (k : κ) :
    lookup key k (l.filter p) = (lookup key k l).filter p := by
  have hf : NodupKeys key (l.filter p) := hn.sublist (List.filter_sublist.map key)
  cases hl : lookup key k l with
  | none =>
    rw [lookup_eq_none_iff] at hl
    refine lookup_eq_none_iff.mpr fun h => hl ?_
    exact (List.filter_sublist.map key).subset h
  | some a =>
    have ha := mem_of_lookup hl
    have hk := key_of_lookup hl
    rw [Option.filter_some]
    split
    · rename_i hp
      rw [← hk]
      exact lookup_of_mem hf (List.mem_filter.mpr ⟨ha, hp⟩)
    · rename_i hp
      refine lookup_eq_none_iff.mpr fun h => ?_
      obtain ⟨b, hb, hbk⟩ := List.mem_map.mp h
      obtain ⟨hb, hbp⟩ := List.mem_filter.mp hb
      have hba := lookup_of_mem hn hb
      rw [hbk, hl, Option.some.injEq] at hba
      exact hp (hba ▸ hbp)

/-- **Removal lemma.** -/
theorem lookup_sweep {l : List α} (hn : NodupKeys key l) (p : α → Bool) (k : κ) :
    lookup key k (sweep p l) = (lookup key k l).filter (fun a => !p a) := by
  have hf : NodupKeys key (l.filter fun a => !p a) := hn.sublist (List.filter_sublist.map key)
  rw [← lookup_filter hn, ← lookup_perm hf (sweep_perm p l).symm]

theorem lookup_swapRemove {l : List α} (hn : NodupKeys key l) {i : Nat} {a : α}
    (h : l[i]? = some a) (k : κ) :
    lookup key k (swapRemove i l) = if k = key a then none else lookup key k l := by
  have hp := perm_cons_swapRemove h
  have hcons : NodupKeys key (a :: swapRemove i l) := (hp.map key).nodup_iff.mp hn
  rw [lookup_perm hn hp, lookup_cons]
  by_cases hk : k = key a
  · rw [if_pos hk, hk]
    exact lookup_eq_none_iff.mpr (List.nodup_cons.mp hcons).1
  · rw [if_neg hk, if_neg (fun e => hk e.symm)]

omit [DecidableEq κ] in
theorem nodupKeys_of_perm_sublist {l m n : List α} (hn : NodupKeys key l) (hp : m.Perm n)
    (hs : n.Sublist l) : NodupKeys key m :=
  (hp.map key).nodup_iff.mpr (hn.sublist (hs.map key))

end Keyed

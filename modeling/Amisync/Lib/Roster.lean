import Mathlib.Data.List.Basic
import Mathlib.Data.List.Perm.Subperm

/-!
# Tables with a limit, one entry for each key

Entries are offered one by one. One is taken where there is room and no entry has
its key, and it goes to the end.

* `prefix_run`, `mem_of_run`: what was there stays, and nothing comes from elsewhere.
* `length_run_le`, `nodup_run`: the limit holds, and no two entries have one key.
* `key_of_offered`: while there is room, the key of everything offered is there.
* `mem_of_key`: where its key is taken, an entry is not taken.
* `run_insert`: an entry that was there before changes nothing for the others, as
  long as there is room and none of them has its key.
* `others_run`: without the offers for one key, everything else is taken as before.
* `taken_of_fewer`: what is taken at its first offer is taken after fewer offers, too.
-/

namespace Roster

variable {α κ : Type*} [DecidableEq κ] (key : α → κ) (cap : Nat)

/-- One offer. -/
def add (l : List α) (a : α) : List α :=
  if cap ≤ l.length then l
  else if l.any (fun b => key b = key a) then l
  else l ++ [a]

/-- One offer after the other. -/
def run (l : List α) (offers : List α) : List α := offers.foldl (add key cap) l

variable {key cap}

variable (key cap) in
theorem add_cases (l : List α) (a : α) :
    (add key cap l a = l ∧ (cap ≤ l.length ∨ ∃ b ∈ l, key b = key a)) ∨
      (add key cap l a = l ++ [a] ∧ l.length < cap ∧ ∀ b ∈ l, key b ≠ key a) := by
  unfold add
  split
  · rename_i h
    exact Or.inl ⟨rfl, Or.inl h⟩
  · rename_i h
    split
    · rename_i hd
      exact Or.inl ⟨rfl, Or.inr (by simpa using hd)⟩
    · rename_i hd
      exact Or.inr ⟨rfl, by omega, by simpa using hd⟩

theorem run_append (l offers offers' : List α) :
    run key cap l (offers ++ offers') = run key cap (run key cap l offers) offers' :=
  List.foldl_append

variable (key cap) in
theorem prefix_run (l offers : List α) : l <+: run key cap l offers := by
  induction offers generalizing l with
  | nil => exact List.prefix_refl l
  | cons a offers ih =>
    refine List.IsPrefix.trans ?_ (ih (add key cap l a))
    rcases add_cases key cap l a with ⟨h, -⟩ | ⟨h, -⟩
    · exact h.symm ▸ List.prefix_refl l
    · rw [h]
      exact List.prefix_append l [a]

theorem mem_of_run {l offers : List α} {a : α} (h : a ∈ run key cap l offers) : a ∈ l ∨ a ∈ offers := by
  induction offers generalizing l with
  | nil => exact Or.inl h
  | cons b offers ih =>
    rcases ih h with hm | hm
    · rcases add_cases key cap l b with ⟨hb, -⟩ | ⟨hb, -⟩
      · rw [hb] at hm
        exact Or.inl hm
      · rw [hb] at hm
        rcases List.mem_append.mp hm with hm | hm
        · exact Or.inl hm
        · exact Or.inr (List.mem_cons.mpr (Or.inl (List.mem_singleton.mp hm)))
    · exact Or.inr (List.mem_cons_of_mem b hm)

variable (key cap) in
theorem length_le_run (l offers : List α) : l.length ≤ (run key cap l offers).length :=
  (prefix_run key cap l offers).length_le

theorem key_of_offered {l offers : List α} {a : α} (hroom : (run key cap l offers).length < cap)
    (h : a ∈ offers) : ∃ b ∈ run key cap l offers, key b = key a := by
  induction offers generalizing l with
  | nil => simp at h
  | cons b offers ih =>
    rcases List.mem_cons.mp h with rfl | h
    · have hpre : add key cap l a <+: run key cap l (a :: offers) := prefix_run key cap _ offers
      rcases add_cases key cap l a with ⟨hb, hfull | ⟨b, hbl, hkey⟩⟩ | ⟨hb, -⟩
      · have := length_le_run key cap l (a :: offers)
        omega
      · exact ⟨b, hpre.subset (by rw [hb]; exact hbl), hkey⟩
      · exact ⟨a, hpre.subset (by rw [hb]; simp), rfl⟩
    · exact ih hroom h

/-- Where its key is taken, an entry does not come from an offer. -/
theorem mem_of_key {l offers : List α} {a b : α} (hb : b ∈ l) (hkey : key b = key a)
    (h : a ∈ run key cap l offers) : a ∈ l := by
  induction offers generalizing l with
  | nil => exact h
  | cons c offers ih =>
    rcases add_cases key cap l c with ⟨hc, -⟩ | ⟨hc, -, hfresh⟩
    · have hrest : a ∈ run key cap (add key cap l c) offers := h
      rw [hc] at hrest
      exact ih hb hrest
    · have hrest : a ∈ run key cap (add key cap l c) offers := h
      rw [hc] at hrest
      rcases List.mem_append.mp (ih (List.mem_append_left _ hb) hrest) with hmem | hmem
      · exact hmem
      · rw [List.mem_singleton.mp hmem] at hkey
        exact absurd hkey (hfresh b hb)

/-- A full table takes nothing. -/
theorem room_of_mem {l offers : List α} {a : α} (hnew : a ∉ l) (h : a ∈ run key cap l offers) : l.length < cap := by
  induction offers generalizing l with
  | nil => exact absurd h hnew
  | cons b offers ih =>
    rcases add_cases key cap l b with ⟨hb, -⟩ | ⟨-, hlt, -⟩
    · have hrest : a ∈ run key cap (add key cap l b) offers := h
      rw [hb] at hrest
      exact ih hnew hrest
    · exact hlt

/-- One entry more, somewhere in the table. -/
def Inserted (a : α) (l l' : List α) : Prop := ∃ p q, l = p ++ q ∧ l' = p ++ a :: q

theorem inserted_add {a b : α} {l l' : List α} (h : Inserted a l l')
    (hroom : (add key cap l b).length < cap) (hkey : ∀ c ∈ add key cap l b, key c ≠ key a) :
    Inserted a (add key cap l b) (add key cap l' b) := by
  obtain ⟨p, q, rfl, rfl⟩ := h
  rcases add_cases key cap (p ++ q) b with ⟨hb, hfull | ⟨c, hc, hcb⟩⟩ | ⟨hb, hlt, hfresh⟩
  · rw [hb] at hroom
    omega
  · have hc' : c ∈ p ++ a :: q := by
      rcases List.mem_append.mp hc with hc | hc
      · exact List.mem_append_left _ hc
      · exact List.mem_append_right _ (List.mem_cons_of_mem a hc)
    rw [hb]
    rcases add_cases key cap (p ++ a :: q) b with ⟨hb', -⟩ | ⟨-, -, hfresh⟩
    · rw [hb']
      exact ⟨p, q, rfl, rfl⟩
    · exact absurd hcb (hfresh c hc')
  · rw [hb] at hroom hkey ⊢
    have hab : key a ≠ key b := fun h => hkey b (by simp) h.symm
    rcases add_cases key cap (p ++ a :: q) b with ⟨hb', hfull | ⟨c, hc, hcb⟩⟩ | ⟨hb', -⟩
    · simp only [List.length_append, List.length_cons, List.length_nil] at hfull hroom
      omega
    · rcases List.mem_append.mp hc with hc | hc
      · exact absurd hcb (hfresh c (List.mem_append_left _ hc))
      · rcases List.mem_cons.mp hc with rfl | hc
        · exact absurd hcb hab
        · exact absurd hcb (hfresh c (List.mem_append_right _ hc))
    · exact ⟨p, q ++ [b], by simp, by rw [hb']; simp⟩

theorem run_insert {a : α} {l l' offers : List α} (h : Inserted a l l')
    (hroom : (run key cap l offers).length < cap) (hkey : ∀ c ∈ run key cap l offers, key c ≠ key a) :
    Inserted a (run key cap l offers) (run key cap l' offers) := by
  induction offers generalizing l l' with
  | nil => exact h
  | cons b offers ih =>
    have hpre := prefix_run key cap (add key cap l b) offers
    refine ih (inserted_add h (Nat.lt_of_le_of_lt hpre.length_le hroom) ?_) hroom hkey
    exact fun c hc => hkey c (hpre.subset hc)

/-- What is offered where there is room and its key is new is taken. -/
theorem inserted_of_new {a : α} {l : List α} (hroom : l.length < cap) (hkey : ∀ c ∈ l, key c ≠ key a) :
    Inserted a l (add key cap l a) := by
  rcases add_cases key cap l a with ⟨-, hfull | ⟨c, hc, hca⟩⟩ | ⟨h, -⟩
  · omega
  · exact absurd hca (hkey c hc)
  · exact ⟨l, [], by simp, h⟩

theorem Inserted.mem {a : α} {l l' : List α} (h : Inserted a l l') : a ∈ l' := by
  obtain ⟨p, q, -, rfl⟩ := h
  simp

theorem Inserted.eq_or_mem {a b : α} {l l' : List α} (h : Inserted a l l') (hb : b ∈ l') : b = a ∨ b ∈ l := by
  obtain ⟨p, q, rfl, rfl⟩ := h
  rcases List.mem_append.mp hb with hb | hb
  · exact Or.inr (List.mem_append_left _ hb)
  · rcases List.mem_cons.mp hb with hb | hb
    · exact Or.inl hb
    · exact Or.inr (List.mem_append_right _ hb)

/-- What was there before is known, if the entry is new. -/
theorem Inserted.unique {a : α} {l₁ l₂ l' : List α} (h₁ : Inserted a l₁ l') (h₂ : Inserted a l₂ l')
    (hnew₁ : a ∉ l₁) (hnew₂ : a ∉ l₂) : l₁ = l₂ := by
  obtain ⟨p₁, q₁, rfl, rfl⟩ := h₁
  obtain ⟨p₂, q₂, rfl, h⟩ := h₂
  rw [List.mem_append, not_or] at hnew₁ hnew₂
  obtain ⟨rfl, -, rfl⟩ := (List.append_cons_inj_of_notMem hnew₁.1 hnew₁.2).mp h
  rfl

/-! ## Fewer offers -/

variable (key) in
/-- The entries with another key. -/
def others (k : κ) (l : List α) : List α := l.filter fun a => key a ≠ k

theorem others_concat (k : κ) (l : List α) (a : α) :
    others key k (l ++ [a]) = if key a = k then others key k l else others key k l ++ [a] := by
  unfold others
  rw [List.filter_append]
  split <;> rename_i h <;> simp [h]

theorem key_mem_others {k : κ} {l : List α} {a : α} (ha : key a ≠ k) :
    (∃ b ∈ others key k l, key b = key a) ↔ ∃ b ∈ l, key b = key a := by
  constructor
  · rintro ⟨b, hb, hkey⟩
    exact ⟨b, (List.mem_filter.mp hb).1, hkey⟩
  · rintro ⟨b, hb, hkey⟩
    exact ⟨b, List.mem_filter.mpr ⟨hb, by simpa [hkey] using ha⟩, hkey⟩

/-- What has been taken without the offers for one key: everything else, and what found no room. -/
structure Freed (key : α → κ) (cap : Nat) (k : κ) (l l' : List α) : Prop where
  starts : others key k l <+: l'
  same : l.length < cap → l' = others key k l

theorem freed_same {k : κ} {l l' : List α} {a : α} (h : Freed key cap k l l') (ha : key a = k) :
    Freed key cap k (add key cap l a) l' := by
  rcases add_cases key cap l a with ⟨hadd, -⟩ | ⟨hadd, hlt, -⟩
  · rw [hadd]
    exact h
  · have hothers : others key k (l ++ [a]) = others key k l := by rw [others_concat, if_pos ha]
    rw [hadd]
    refine ⟨?_, ?_⟩
    · rw [hothers]
      exact h.starts
    · intro
      rw [hothers]
      exact h.same hlt

theorem freed_other {k : κ} {l l' : List α} {a : α} (h : Freed key cap k l l') (ha : key a ≠ k) :
    Freed key cap k (add key cap l a) (add key cap l' a) := by
  have hpre : l' <+: add key cap l' a := prefix_run key cap l' [a]
  rcases add_cases key cap l a with ⟨hadd, hfull | hold⟩ | ⟨hadd, hlt, hfresh⟩
  · rw [hadd]
    exact ⟨h.starts.trans hpre, fun hlt => by omega⟩
  · rw [hadd]
    refine ⟨h.starts.trans hpre, ?_⟩
    intro hlt
    obtain ⟨b, hb, hkey⟩ := (key_mem_others ha).mpr hold
    rcases add_cases key cap l' a with ⟨hadd', -⟩ | ⟨-, -, hfresh'⟩
    · rw [hadd']
      exact h.same hlt
    · exact absurd hkey (hfresh' b (h.starts.subset hb))
  · have hothers : others key k (l ++ [a]) = others key k l ++ [a] := by rw [others_concat, if_neg ha]
    have hsame := h.same hlt
    have hadd' : add key cap l' a = l' ++ [a] := by
      rcases add_cases key cap l' a with ⟨-, hfull | ⟨b, hb, hkey⟩⟩ | ⟨hadd', -⟩
      · have hle : (others key k l).length ≤ l.length := List.length_filter_le _ l
        rw [hsame] at hfull
        omega
      · rw [hsame] at hb
        exact absurd hkey (hfresh b (List.mem_filter.mp hb).1)
      · exact hadd'
    rw [hadd, hadd', hsame]
    exact ⟨⟨[], by rw [hothers, List.append_nil]⟩, fun _ => hothers.symm⟩

theorem freed_run {k : κ} {l l' : List α} (h : Freed key cap k l l') (offers : List α) :
    Freed key cap k (run key cap l offers) (run key cap l' (others key k offers)) := by
  induction offers generalizing l l' with
  | nil => exact h
  | cons a offers ih =>
    by_cases ha : key a = k
    · have hskip : others key k (a :: offers) = others key k offers := List.filter_cons_of_neg (by simp [ha])
      rw [hskip]
      exact ih (freed_same h ha)
    · have hkeep : others key k (a :: offers) = a :: others key k offers := List.filter_cons_of_pos (by simp [ha])
      rw [hkeep]
      exact ih (freed_other h ha)

variable (key cap) in
/-- **One key less.** Without the offers for it, everything else is taken as before. -/
theorem others_run (k : κ) (offers : List α) :
    others key k (run key cap [] offers) <+: run key cap [] (others key k offers) := by
  have hstart : Freed key cap k [] [] := ⟨List.nil_prefix, fun _ => rfl⟩
  exact (freed_run hstart offers).starts

theorem length_run_le {l : List α} (h : l.length ≤ cap) (offers : List α) : (run key cap l offers).length ≤ cap := by
  induction offers generalizing l with
  | nil => exact h
  | cons a offers ih =>
    refine ih ?_
    rcases add_cases key cap l a with ⟨hadd, -⟩ | ⟨hadd, hlt, -⟩
    · rw [hadd]
      exact h
    · rw [hadd, List.length_append]
      exact hlt

theorem nodup_run {l : List α} (h : (l.map key).Nodup) (offers : List α) :
    ((run key cap l offers).map key).Nodup := by
  induction offers generalizing l with
  | nil => exact h
  | cons a offers ih =>
    refine ih ?_
    rcases add_cases key cap l a with ⟨hadd, -⟩ | ⟨hadd, -, hfresh⟩
    · rw [hadd]
      exact h
    · rw [hadd, List.map_append]
      refine List.nodup_append.mpr ⟨h, List.pairwise_singleton _ _, ?_⟩
      intro x hx y hy hxy
      obtain ⟨b, hb, rfl⟩ := List.mem_map.mp hx
      exact hfresh b hb (hxy.trans (List.mem_singleton.mp hy))

/-- Where the table is not full, it is not full after fewer offers. -/
theorem length_run_of_subset {offers offers' : List α} (hsub : offers' ⊆ offers)
    (hroom : (run key cap [] offers).length < cap) :
    (run key cap [] offers').length ≤ (run key cap [] offers).length := by
  have hnodup : ((run key cap [] offers').map key).Nodup := nodup_run (l := []) List.nodup_nil offers'
  have hkeys : (run key cap [] offers').map key ⊆ (run key cap [] offers).map key := by
    intro x hx
    obtain ⟨a, ha, rfl⟩ := List.mem_map.mp hx
    rcases mem_of_run ha with ha | ha
    · simp at ha
    · obtain ⟨b, hb, hkey⟩ := key_of_offered hroom (hsub ha)
      exact List.mem_map.mpr ⟨b, hb, hkey⟩
  have hle := (List.subperm_of_subset hnodup hkeys).length_le
  rwa [List.length_map, List.length_map] at hle

/-- A full table takes nothing more. -/
theorem run_full {l : List α} (hfull : cap ≤ l.length) (offers : List α) : run key cap l offers = l := by
  induction offers with
  | nil => rfl
  | cons a offers ih =>
    have hadd : add key cap l a = l := if_pos hfull
    have hstep : run key cap l (a :: offers) = run key cap (add key cap l a) offers := rfl
    rw [hstep, hadd, ih]

/-- What is taken at its first offer is taken after fewer offers, too. -/
theorem taken_of_fewer {pre pre' post post' : List α} {a : α} (hfirst : ∀ b ∈ pre, key b ≠ key a)
    (htaken : ∃ b ∈ run key cap [] (pre ++ a :: post), key b = key a) (hsub : pre' ⊆ pre) :
    ∃ b ∈ run key cap [] (pre' ++ a :: post'), key b = key a := by
  have hnew : ∀ b ∈ run key cap [] pre, key b ≠ key a := by
    intro b hb
    rcases mem_of_run hb with hb | hb
    · simp at hb
    · exact hfirst b hb
  have hroom : (run key cap [] pre).length < cap := by
    by_contra hfull
    obtain ⟨b, hb, hkey⟩ := htaken
    rw [run_append, run_full (by omega)] at hb
    exact hnew b hb hkey
  have hroom' : (run key cap [] pre').length < cap :=
    Nat.lt_of_le_of_lt (length_run_of_subset hsub hroom) hroom
  have hthere : ∃ b ∈ add key cap (run key cap [] pre') a, key b = key a := by
    rcases add_cases key cap (run key cap [] pre') a with ⟨-, hfull | hold⟩ | ⟨hadd, -⟩
    · omega
    · obtain ⟨b, hb, hkey⟩ := hold
      exact ⟨b, (prefix_run key cap _ [a]).subset hb, hkey⟩
    · exact ⟨a, by rw [hadd]; simp, rfl⟩
  obtain ⟨b, hb, hkey⟩ := hthere
  rw [run_append]
  exact ⟨b, (prefix_run key cap _ post').subset hb, hkey⟩

end Roster

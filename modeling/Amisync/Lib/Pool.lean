import Mathlib.Data.List.Nodup
import Mathlib.Data.List.Perm.Basic

/-!
# One worker for each slot

Slots that hold a process or none, and the processes that are about, each with the
slot it was started for.

* `Pool`: every process is held by its slot, and every slot's process is about.
* `Pool.start`, `Pool.finish`, `Pool.grow`: a process more, a process less, a slot more.
* `Pool.count_le_one`: no slot has two.
* `perm_eraseIdx`, `perm_modify`: one of a list apart from the others.
-/

variable {π : Type*}

theorem perm_eraseIdx {l : List π} {k : Nat} {a : π} (h : l[k]? = some a) : l.Perm (a :: l.eraseIdx k) := by
  obtain ⟨hk, rfl⟩ := List.getElem?_eq_some_iff.mp h
  exact (List.getElem_cons_eraseIdx_perm hk).symm

theorem perm_modify {l : List π} {k : Nat} {a : π} (h : l[k]? = some a) (f : π → π) :
    (l.modify k f).Perm (f a :: l.eraseIdx k) := by
  have hmod : (l.modify k f)[k]? = some (f a) := by simp [h]
  have hperm := perm_eraseIdx hmod
  rwa [List.eraseIdx_modify_of_eq] at hperm

/-- `held` is what the slots hold, `workers` are the processes with their slots. -/
structure Pool (held : List (Option π)) (workers : List (Nat × π)) : Prop where
  once : (workers.map Prod.fst).Nodup
  owner : ∀ w ∈ workers, held[w.1]? = some (some w.2)
  busy : ∀ i p, held[i]? = some (some p) → (i, p) ∈ workers

namespace Pool

variable {held : List (Option π)} {workers : List (Nat × π)}

theorem init (n : Nat) : Pool (List.replicate n (none : Option π)) [] := by
  refine ⟨List.nodup_nil, by simp, ?_⟩
  intro i p h
  have hnone := List.eq_of_mem_replicate (List.mem_of_getElem? h)
  exact absurd hnone (by simp)

theorem perm {workers' : List (Nat × π)} (h : Pool held workers) (hp : workers.Perm workers') :
    Pool held workers' where
  once := (hp.map Prod.fst).nodup_iff.mp h.once
  owner w hw := h.owner w (hp.mem_iff.mpr hw)
  busy i p hi := hp.mem_iff.mp (h.busy i p hi)

/-- A slot that holds nothing has no process. -/
theorem notMem_of_free (h : Pool held workers) {i : Nat} (hi : held[i]? = some none) :
    i ∉ workers.map Prod.fst := by
  intro hmem
  obtain ⟨w, hw, rfl⟩ := List.mem_map.mp hmem
  have howner := h.owner w hw
  rw [hi] at howner
  exact absurd howner (by simp)

/-- **A process is started for a free slot.** -/
theorem start (h : Pool held workers) {i : Nat} (hi : held[i]? = some none) (p : π) :
    Pool (held.set i (some p)) (workers ++ [(i, p)]) where
  once := by
    rw [List.map_append, List.map_singleton]
    exact h.once.append (List.nodup_singleton i) (by simpa using h.notMem_of_free hi)
  owner := by
    intro w hw
    rcases List.mem_append.mp hw with hw | hw
    · have hne : i ≠ w.1 := fun e => h.notMem_of_free hi (e ▸ List.mem_map_of_mem hw)
      rw [List.getElem?_set_ne hne]
      exact h.owner w hw
    · rw [List.mem_singleton.mp hw]
      exact List.getElem?_set_self (List.getElem?_eq_some_iff.mp hi).1
  busy := by
    intro j q hj
    by_cases hij : i = j
    · subst hij
      rw [List.getElem?_set_self (List.getElem?_eq_some_iff.mp hi).1, Option.some.injEq, Option.some.injEq] at hj
      rw [hj]
      simp
    · rw [List.getElem?_set_ne hij] at hj
      exact List.mem_append_left _ (h.busy j q hj)

/-- **A process ends, and its slot is free.** -/
theorem finish {w : Nat × π} (h : Pool held (w :: workers)) : Pool (held.set w.1 none) workers where
  once := (List.nodup_cons.mp h.once).2
  owner := by
    intro v hv
    have hne : w.1 ≠ v.1 := fun e => (List.nodup_cons.mp h.once).1 (e ▸ List.mem_map_of_mem hv)
    rw [List.getElem?_set_ne hne]
    exact h.owner v (List.mem_cons_of_mem w hv)
  busy := by
    intro j q hj
    by_cases hij : w.1 = j
    · subst hij
      have hlt := (List.getElem?_eq_some_iff.mp (h.owner w List.mem_cons_self)).1
      rw [List.getElem?_set_self hlt] at hj
      exact absurd hj (by simp)
    · rw [List.getElem?_set_ne hij] at hj
      rcases List.mem_cons.mp (h.busy j q hj) with he | hmem
      · exact absurd (congrArg Prod.fst he).symm hij
      · exact hmem

theorem grow (h : Pool held workers) : Pool (held ++ [none]) workers where
  once := h.once
  owner w hw := by
    have howner := h.owner w hw
    rw [List.getElem?_append_left (List.getElem?_eq_some_iff.mp howner).1]
    exact howner
  busy i p hi := by
    rcases Nat.lt_or_ge i held.length with hlt | hge
    · rw [List.getElem?_append_left hlt] at hi
      exact h.busy i p hi
    · rw [List.getElem?_append_right hge] at hi
      exact absurd (List.mem_of_getElem? hi) (by simp)

theorem count_le_one (h : Pool held workers) (i : Nat) : (workers.map Prod.fst).count i ≤ 1 :=
  List.nodup_iff_count_le_one.mp h.once i

end Pool

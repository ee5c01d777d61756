import Mathlib.Data.Finsupp.Order
import Amisync.SyncModel

/-!
# Version vectors as maps from devices to counters

The two passes of `sync_version_compare` and the bump of `sync_bump_version`,
read against the map a vector stands for.

* `counterMap`: the map of a vector, a finite sum of single counters, so the
  order of the counters cannot matter and a counter of 0 is no counter.
* `compare_is_pointwise`: on vectors with distinct ids the comparison is the
  pointwise order of the two maps; swapping the arguments flips the result,
  "ours or equal" is transitive, and no reordering of counters is seen.
* `bump_dominates_iff`: the bump replaces a version by one above it exactly
  when our own counter is not at the top of its 64 bits. There the increase
  wraps to 0 and the new vector is below the old one.
-/

namespace Amisync.Versions

/-! ## The map of a vector -/

noncomputable def counterMap (cs : List BepCounter) : Nat →₀ Nat :=
  (cs.map fun c => Finsupp.single c.id c.value).sum

theorem counterMap_perm {cs ds : List BepCounter} (h : cs.Perm ds) :
    counterMap cs = counterMap ds :=
  (h.map _).sum_eq

theorem counterMap_absent {cs : List BepCounter} {i : Nat} (h : i ∉ cs.map BepCounter.id) :
    counterMap cs i = 0 := by
  induction cs with
  | nil => rfl
  | cons c cs ih =>
    simp only [List.map_cons, List.mem_cons, not_or] at h
    have hc : Finsupp.single c.id c.value i = 0 := Finsupp.single_eq_of_ne h.1
    have hcs : counterMap cs i = 0 := ih h.2
    simpa [counterMap, hc] using hcs

/-- The linear lookup reads the map. -/
theorem vecCounter_eq_counterMap {v : BepVector} (hd : v.Distinct) (i : Nat) :
    vecCounter v i = counterMap v.counters i := by
  obtain ⟨cs, hb⟩ := v
  simp only [BepVector.Distinct] at hd
  simp only [vecCounter]
  clear hb
  induction cs with
  | nil => rfl
  | cons c cs ih =>
    simp only [List.map_cons, List.nodup_cons] at hd
    by_cases hi : c.id = i
    · subst hi
      have hrest : counterMap cs c.id = 0 := counterMap_absent hd.1
      simpa [counterMap] using hrest
    · have hc : Finsupp.single c.id c.value i = 0 := Finsupp.single_eq_of_ne (Ne.symm hi)
      have hcs := ih hd.2
      simpa [hi, counterMap, hc] using hcs

/-- The maps compare as the lookups do. -/
theorem counterMap_le_iff {v w : BepVector} (hv : v.Distinct) (hw : w.Distinct) :
    counterMap v.counters ≤ counterMap w.counters ↔ vecCounter v ≤ vecCounter w := by
  rw [Finsupp.le_def, Pi.le_def]
  constructor
  · intro h i
    rw [vecCounter_eq_counterMap hv, vecCounter_eq_counterMap hw]
    exact h i
  · intro h i
    rw [← vecCounter_eq_counterMap hv, ← vecCounter_eq_counterMap hw]
    exact h i

/-! ## The comparison -/

open Classical in
/-- The relation of two elements of a partial order, in the words of the comparison. -/
noncomputable def relOf {α : Type*} [PartialOrder α] (a b : α) : SyncVerRel :=
  if a = b then .equal
  else if b ≤ a then .ours
  else if a ≤ b then .theirs
  else .concurrent

theorem compare_eq_relOf {v w : BepVector} (hv : v.Distinct) (hw : w.Distinct) :
    syncVersionCompare v w = relOf (counterMap v.counters) (counterMap w.counters) := by
  have hvw := counterMap_le_iff hv hw
  have hwv := counterMap_le_iff hw hv
  unfold relOf
  by_cases h1 : counterMap v.counters ≤ counterMap w.counters
  · by_cases h2 : counterMap w.counters ≤ counterMap v.counters
    · rw [if_pos (le_antisymm h1 h2), syncVersionCompare_equal hv hw]
      exact le_antisymm (hvw.mp h1) (hwv.mp h2)
    · have hne : counterMap v.counters ≠ counterMap w.counters := fun e => h2 e.ge
      rw [if_neg hne, if_neg h2, if_pos h1, syncVersionCompare_theirs hv hw]
      exact lt_of_le_not_ge (hvw.mp h1) (fun h => h2 (hwv.mpr h))
  · have hne : counterMap v.counters ≠ counterMap w.counters := fun e => h1 e.le
    by_cases h2 : counterMap w.counters ≤ counterMap v.counters
    · rw [if_neg hne, if_pos h2, syncVersionCompare_ours hv hw]
      exact lt_of_le_not_ge (hwv.mp h2) (fun h => h1 (hvw.mpr h))
    · rw [if_neg hne, if_neg h2, if_neg h1, syncVersionCompare_concurrent hv hw]
      exact ⟨fun h => h1 (hvw.mpr h), fun h => h2 (hwv.mpr h)⟩

def OursOrEqual (v w : BepVector) : Prop :=
  syncVersionCompare v w = .ours ∨ syncVersionCompare v w = .equal

instance (v w : BepVector) : Decidable (OursOrEqual v w) :=
  inferInstanceAs (Decidable (_ ∨ _))

theorem oursOrEqual_iff {v w : BepVector} (hv : v.Distinct) (hw : w.Distinct) :
    OursOrEqual v w ↔ vecCounter w ≤ vecCounter v := by
  unfold OursOrEqual
  rw [syncVersionCompare_ours hv hw, syncVersionCompare_equal hv hw, eq_comm]
  exact le_iff_lt_or_eq.symm

theorem OursOrEqual.trans {u v w : BepVector} (hu : u.Distinct) (hv : v.Distinct)
    (hw : w.Distinct) (h1 : OursOrEqual u v) (h2 : OursOrEqual v w) : OursOrEqual u w := by
  rw [oursOrEqual_iff hu hv] at h1
  rw [oursOrEqual_iff hv hw] at h2
  exact (oursOrEqual_iff hu hw).mpr (le_trans h2 h1)

theorem distinct_perm {v v' : BepVector} (h : v'.counters.Perm v.counters) (hv : v.Distinct) :
    v'.Distinct :=
  (h.map BepCounter.id).nodup_iff.mpr hv

theorem compare_perm {v v' w w' : BepVector} (hv : v.Distinct) (hw : w.Distinct)
    (h1 : v'.counters.Perm v.counters) (h2 : w'.counters.Perm w.counters) :
    syncVersionCompare v' w' = syncVersionCompare v w := by
  rw [compare_eq_relOf hv hw, compare_eq_relOf (distinct_perm h1 hv) (distinct_perm h2 hw),
    counterMap_perm h1, counterMap_perm h2]

/-- **The comparison is the pointwise order.** -/
theorem compare_is_pointwise (v w : BepVector) (hv : v.Distinct) (hw : w.Distinct) :
    syncVersionCompare v w = relOf (counterMap v.counters) (counterMap w.counters) ∧
    syncVersionCompare w v = (syncVersionCompare v w).flip ∧
    (∀ u : BepVector, u.Distinct → OursOrEqual u v → OursOrEqual v w → OursOrEqual u w) ∧
    (∀ v' w' : BepVector, v'.counters.Perm v.counters → w'.counters.Perm w.counters →
      syncVersionCompare v' w' = syncVersionCompare v w) := by
  refine ⟨compare_eq_relOf hv hw, syncVersionCompare_flip hv hw, ?_, ?_⟩
  · intro u hu h1 h2
    exact OursOrEqual.trans hu hv hw h1 h2
  · intro v' w' h1 h2
    exact compare_perm hv hw h1 h2

/-- Two devices that both moved on, each vector in its own order. -/
theorem compare_two_devices :
    let v : BepVector := ⟨[⟨7, 3⟩, ⟨9, 0⟩, ⟨4, 2⟩], by decide⟩
    let w : BepVector := ⟨[⟨4, 5⟩, ⟨7, 1⟩], by decide⟩
    v.Distinct ∧ w.Distinct ∧
      syncVersionCompare w v = (syncVersionCompare v w).flip ∧
      syncVersionCompare v w = .concurrent :=
  ⟨by decide, by decide,
    (compare_is_pointwise ⟨[⟨7, 3⟩, ⟨9, 0⟩, ⟨4, 2⟩], by decide⟩ ⟨[⟨4, 5⟩, ⟨7, 1⟩], by decide⟩
      (by decide) (by decide)).2.1, by decide⟩

/-! ## The bump -/

/-- Where `prev` points: nowhere, at the output itself, or at another vector. -/
inductive Prev where
  | null
  | out
  | other (v : BepVector)
  deriving DecidableEq

/-- The vector the bump starts from. -/
def Prev.vector (out : BepVector) : Prev → BepVector
  | .null => BepVector.empty
  | .out => out
  | .other v => v

/-- `sync_bump_version` as it writes `out`, whatever was there before. -/
def syncBumpVersionInto (out : BepVector) (prev : Prev) (shortId value : Nat) : BepVector :=
  bumpVector (prev.vector out) shortId value

/-- What a local change owes the version it replaces. -/
structure Replaces (shortId : Nat) (old new : BepVector) : Prop where
  dominates : syncVersionCompare new old = .ours
  dominates_below : ∀ w : BepVector, w.Distinct → OursOrEqual old w →
    syncVersionCompare new w = .ours
  others : new.counters.filter (fun c => c.id ≠ shortId) =
    old.counters.filter (fun c => c.id ≠ shortId)
  distinct : new.Distinct

theorem filter_bumpCounters (id value : Nat) (cs : List BepCounter) :
    (bumpCounters id value cs).filter (fun c => c.id ≠ id) = cs.filter (fun c => c.id ≠ id) := by
  induction cs with
  | nil => rfl
  | cons c cs ih =>
    by_cases h : c.id = id
    · simp [bumpCounters, h]
    · simpa [bumpCounters, h] using ih

theorem filter_bumpVector (v : BepVector) (id value : Nat) :
    (bumpVector v id value).counters.filter (fun c => c.id ≠ id) =
      v.counters.filter (fun c => c.id ≠ id) := by
  unfold bumpVector
  split
  · exact filter_bumpCounters id value v.counters
  · split
    · simp
    · rfl

/-- The bump goes up exactly where our own counter does. -/
theorem lt_bumpVector_iff {v : BepVector} {id value : Nat} (hroom : HasRoom v id)
    (hval : 1 ≤ value) :
    vecCounter v < vecCounter (bumpVector v id value) ↔
      vecCounter v id < bumpValue (vecCounter v id) value := by
  have hb := fun i => vecCounter_bumpVector v id value i hroom hval
  constructor
  · intro h
    obtain ⟨i, hi⟩ := (Pi.lt_def.mp h).2
    rw [hb i] at hi
    split at hi
    · next e => rwa [e] at hi
    · exact absurd hi (lt_irrefl _)
  · intro h
    refine Pi.lt_def.mpr ⟨?_, id, ?_⟩
    · intro i
      rw [hb i]
      split
      · next e => exact e ▸ h.le
      · exact le_rfl
    · rw [hb id, if_pos rfl]
      exact h

/-- The increase is one except at the top of the range, where it wraps to 0. -/
theorem lt_bumpValue_iff {old value : Nat} (ho : old < 2 ^ 64) (hv : value < 2 ^ 64) :
    old < bumpValue old value ↔ old ≠ 2 ^ 64 - 1 := by
  constructor
  · rintro h rfl
    have hle : value ≤ 2 ^ 64 - 1 := by omega
    rw [bumpValue, if_pos hle] at h
    exact absurd h (by decide)
  · intro h
    exact bumpValue_gt (by omega)

theorem replaces_of_lt {v : BepVector} {id value : Nat} (hd : v.Distinct)
    (h : vecCounter v < vecCounter (bumpVector v id value)) :
    Replaces id v (bumpVector v id value) where
  dominates := (syncVersionCompare_ours (distinct_bumpVector v id value hd) hd).mpr h
  dominates_below := by
    intro w hw hle
    rw [syncVersionCompare_ours (distinct_bumpVector v id value hd) hw]
    exact lt_of_le_of_lt ((oursOrEqual_iff hd hw).mp hle) h
  others := filter_bumpVector v id value
  distinct := distinct_bumpVector v id value hd

theorem vecCounter_lt {v : BepVector} {b : Nat} (hb : 0 < b) (h : ∀ c ∈ v.counters, c.value < b)
    (i : Nat) : vecCounter v i < b := by
  rcases Nat.eq_zero_or_pos (vecCounter v i) with h0 | hpos
  · rw [h0]
    exact hb
  · obtain ⟨c, hc, -, hval⟩ := exists_counter_of_vecCounter_pos hpos
    rw [← hval]
    exact h c hc

/-- **Where a local change dominates what it replaces.** -/
theorem bump_dominates_iff (out : BepVector) (prev : Prev) (shortId value : Nat)
    (hd : (prev.vector out).Distinct) (hroom : HasRoom (prev.vector out) shortId)
    (hc : ∀ c ∈ (prev.vector out).counters, c.value < 2 ^ 64)
    (h1 : 1 ≤ value) (h64 : value < 2 ^ 64) :
    Replaces shortId (prev.vector out) (syncBumpVersionInto out prev shortId value) ↔
      vecCounter (prev.vector out) shortId ≠ 2 ^ 64 - 1 := by
  have hold := vecCounter_lt (by decide) hc shortId
  rw [← lt_bumpValue_iff hold h64, ← lt_bumpVector_iff hroom h1]
  constructor
  · intro h
    exact (syncVersionCompare_ours h.distinct hd).mp h.dominates
  · intro h
    exact replaces_of_lt hd h

/-- A counter one below the top, bumped in place. -/
theorem bump_near_top :
    let out : BepVector := ⟨[⟨5, 8⟩, ⟨1, 2 ^ 64 - 2⟩], by decide⟩
    Replaces 1 out (syncBumpVersionInto out .out 1 1000) :=
  (bump_dominates_iff ⟨[⟨5, 8⟩, ⟨1, 2 ^ 64 - 2⟩], by decide⟩ .out 1 1000 (by decide)
    (Or.inl (by decide)) (by decide) (by decide) (by decide)).mpr (by decide)

/-- At the top the new version has our counter at 0, and every peer keeps the old one. -/
theorem bump_wraps :
    let prev : BepVector := BepVector.single 1 (2 ^ 64 - 1)
    prev.Distinct ∧ HasRoom prev 1 ∧
      syncVersionCompare (syncBumpVersionInto BepVector.empty (.other prev) 1 1000) prev = .theirs ∧
      ¬ Replaces 1 prev (syncBumpVersionInto BepVector.empty (.other prev) 1 1000) := by
  refine ⟨by decide, Or.inl (by decide), by decide, ?_⟩
  intro h
  exact absurd h.dominates (by decide)

end Amisync.Versions

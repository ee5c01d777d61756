import Amisync.Types

/-!
# The pure sync decisions (`syncmodel.c`)

The version-vector operations and the decision table that every receive path
goes through.

* `syncVersionCompare_equal`, `_ours`, `_theirs`, `_concurrent`: on vectors
  with distinct ids the two flag-setting loops compute the pointwise order of
  the counter maps `vecCounter`.
* `vecCounter_bumpVector`: a local change sets our own counter, strictly
  above its old value, and leaves every other counter alone.
* `syncClassifyIncoming_deleted`, `syncClassifyIncoming_live`: the decision
  table for a pair of records that both carry a vector, one row per relation.
* `resolveConflict_swap`: between two copies whose hashes differ exactly one
  side yields.
-/

namespace Amisync

/-! ## Version vectors -/

/-- Counter value for `id`, 0 if absent. -/
def vecCounter (v : BepVector) (id : Nat) : Nat :=
  match v.counters.find? (fun c => c.id = id) with
  | some c => c.value
  | none => 0

def syncVersionHas (v : BepVector) (id : Nat) : Bool := vecCounter v id != 0

inductive SyncVerRel where
  | equal
  | ours
  | theirs
  | concurrent
  deriving DecidableEq, Repr

def verRelOfFlags (oursGt theirsGt : Bool) : SyncVerRel :=
  if oursGt && theirsGt then .concurrent
  else if oursGt then .ours
  else if theirsGt then .theirs
  else .equal

/-- The two passes of the C function, as the flags they leave behind. -/
def syncVersionCompare (ours theirs : BepVector) : SyncVerRel :=
  verRelOfFlags (ours.counters.any (fun c => vecCounter theirs c.id < c.value))
    (ours.counters.any (fun c => c.value < vecCounter theirs c.id) ||
      theirs.counters.any (fun c => vecCounter ours c.id < c.value))

/-- The in-place update of the counter loop: the first counter of `id` is set to
`value`, forced above what it held. -/
def bumpCounters (id value : Nat) : List BepCounter → List BepCounter
  | [] => []
  | c :: cs =>
    if c.id = id then
      { c with value := if value ≤ c.value then (c.value + 1) % 2 ^ 64 else value } :: cs
    else c :: bumpCounters id value cs

theorem length_bumpCounters (id value : Nat) (cs : List BepCounter) :
    (bumpCounters id value cs).length = cs.length := by
  induction cs with
  | nil => rfl
  | cons c cs ih =>
    by_cases h : c.id = id <;> simp [bumpCounters, h, ih]

/-- What the bump does to the copied vector. A full vector without our id stays as it is. -/
def bumpVector (out : BepVector) (shortId value : Nat) : BepVector :=
  if out.counters.any (fun c => c.id = shortId) then
    ⟨bumpCounters shortId value out.counters, by rw [length_bumpCounters]; exact out.bound⟩
  else if h : out.counters.length < bepMaxCounters then
    ⟨out.counters ++ [⟨shortId, value⟩], by simpa using Nat.succ_le_of_lt h⟩
  else out

/-- `sync_bump_version`: a copy of `prev`, or an empty vector where there is none. -/
def syncBumpVersion (prev : Option BepVector) (shortId value : Nat) : BepVector :=
  bumpVector (prev.getD BepVector.empty) shortId value

/-! ### The comparison is the pointwise order -/

theorem find_counter_of_mem {cs : List BepCounter} (hd : (cs.map BepCounter.id).Nodup)
    {c : BepCounter} (hc : c ∈ cs) : cs.find? (fun d => d.id = c.id) = some c := by
  induction cs with
  | nil => simp at hc
  | cons d cs ih =>
    simp only [List.map_cons, List.nodup_cons] at hd
    rcases List.mem_cons.mp hc with rfl | hc
    · simp
    · have hne : ¬ d.id = c.id := by
        intro e
        exact hd.1 (e ▸ List.mem_map_of_mem hc)
      simp [hne, ih hd.2 hc]

theorem vecCounter_of_mem {v : BepVector} (hd : v.Distinct) {c : BepCounter}
    (hc : c ∈ v.counters) : vecCounter v c.id = c.value := by
  simp [vecCounter, find_counter_of_mem hd hc]

theorem exists_counter_of_vecCounter_pos {v : BepVector} {i : Nat} (h : 0 < vecCounter v i) :
    ∃ c ∈ v.counters, c.id = i ∧ c.value = vecCounter v i := by
  unfold vecCounter at h ⊢
  cases hf : v.counters.find? (fun c => c.id = i) with
  | none => simp [hf] at h
  | some c =>
    have hm := List.mem_of_find?_eq_some hf
    have hi := List.find?_some hf
    exact ⟨c, hm, by simpa using hi, by simp⟩

/-- A counter of `v` exceeds `w` there exactly when the maps differ that way. -/
theorem any_counter_gt {v : BepVector} (hd : v.Distinct) (w : BepVector) :
    v.counters.any (fun c => vecCounter w c.id < c.value) = true ↔
      ∃ i, vecCounter w i < vecCounter v i := by
  simp only [List.any_eq_true, decide_eq_true_eq]
  constructor
  · rintro ⟨c, hc, hlt⟩
    exact ⟨c.id, by rw [vecCounter_of_mem hd hc]; exact hlt⟩
  · rintro ⟨i, hlt⟩
    obtain ⟨c, hc, hi, hv⟩ := exists_counter_of_vecCounter_pos (Nat.lt_of_le_of_lt (Nat.zero_le _) hlt)
    exact ⟨c, hc, by rw [hi, hv]; exact hlt⟩

theorem any_counter_lt {v : BepVector} (hd : v.Distinct) {w : BepVector}
    (h : v.counters.any (fun c => c.value < vecCounter w c.id) = true) :
    ∃ i, vecCounter v i < vecCounter w i := by
  simp only [List.any_eq_true, decide_eq_true_eq] at h
  obtain ⟨c, hc, hlt⟩ := h
  exact ⟨c.id, by rw [vecCounter_of_mem hd hc]; exact hlt⟩

/-- The second flag: both passes set it on the same condition. -/
theorem any_theirs_gt {v w : BepVector} (hv : v.Distinct) (hw : w.Distinct) :
    (v.counters.any (fun c => c.value < vecCounter w c.id) ||
      w.counters.any (fun c => vecCounter v c.id < c.value)) = true ↔
      ∃ i, vecCounter v i < vecCounter w i := by
  rw [Bool.or_eq_true, any_counter_gt hw v]
  constructor
  · rintro (h | h)
    · exact any_counter_lt hv h
    · exact h
  · exact Or.inr

theorem not_le_iff_exists_lt (f g : Nat → Nat) : ¬ f ≤ g ↔ ∃ i, g i < f i := by
  simp [Pi.le_def]

section Compare
variable {v w : BepVector} (hv : v.Distinct) (hw : w.Distinct)
include hv hw

/-- On distinct ids each flag says that one map is not below the other. -/
theorem syncVersionCompare_flags : ∃ a b : Bool, syncVersionCompare v w = verRelOfFlags a b ∧
    (a = true ↔ ¬ vecCounter v ≤ vecCounter w) ∧ (b = true ↔ ¬ vecCounter w ≤ vecCounter v) :=
  ⟨_, _, rfl, by rw [any_counter_gt hv w, not_le_iff_exists_lt],
    by rw [any_theirs_gt hv hw, not_le_iff_exists_lt]⟩

theorem syncVersionCompare_concurrent : syncVersionCompare v w = .concurrent ↔
    ¬ vecCounter v ≤ vecCounter w ∧ ¬ vecCounter w ≤ vecCounter v := by
  obtain ⟨a, b, h, ha, hb⟩ := syncVersionCompare_flags hv hw
  rw [h, ← ha, ← hb]
  cases a <;> cases b <;> decide

theorem syncVersionCompare_ours :
    syncVersionCompare v w = .ours ↔ vecCounter w < vecCounter v := by
  obtain ⟨a, b, h, ha, hb⟩ := syncVersionCompare_flags hv hw
  rw [h, lt_iff_le_not_ge, ← ha, ← not_not (a := vecCounter w ≤ vecCounter v), ← hb]
  cases a <;> cases b <;> decide

theorem syncVersionCompare_theirs :
    syncVersionCompare v w = .theirs ↔ vecCounter v < vecCounter w := by
  obtain ⟨a, b, h, ha, hb⟩ := syncVersionCompare_flags hv hw
  rw [h, lt_iff_le_not_ge, ← hb, ← not_not (a := vecCounter v ≤ vecCounter w), ← ha]
  cases a <;> cases b <;> decide

theorem syncVersionCompare_equal :
    syncVersionCompare v w = .equal ↔ vecCounter v = vecCounter w := by
  obtain ⟨a, b, h, ha, hb⟩ := syncVersionCompare_flags hv hw
  rw [h, le_antisymm_iff (a := vecCounter v), ← not_not (a := vecCounter v ≤ vecCounter w), ← ha,
    ← not_not (a := vecCounter w ≤ vecCounter v), ← hb]
  cases a <;> cases b <;> decide

end Compare

/-- The relation as the other side sees it. -/
def SyncVerRel.flip : SyncVerRel → SyncVerRel
  | .equal => .equal
  | .ours => .theirs
  | .theirs => .ours
  | .concurrent => .concurrent

theorem syncVersionCompare_flip {v w : BepVector} (hv : v.Distinct) (hw : w.Distinct) :
    syncVersionCompare w v = (syncVersionCompare v w).flip := by
  cases h : syncVersionCompare v w with
  | equal =>
    rw [syncVersionCompare_equal hv hw] at h
    exact (syncVersionCompare_equal hw hv).mpr h.symm
  | ours =>
    rw [syncVersionCompare_ours hv hw] at h
    exact (syncVersionCompare_theirs hw hv).mpr h
  | theirs =>
    rw [syncVersionCompare_theirs hv hw] at h
    exact (syncVersionCompare_ours hw hv).mpr h
  | concurrent =>
    rw [syncVersionCompare_concurrent hv hw] at h
    exact (syncVersionCompare_concurrent hw hv).mpr ⟨h.2, h.1⟩

/-! ### A bump touches one counter and raises it -/

/-- The value our counter takes: the clock's, unless that would not be an increase. -/
def bumpValue (old value : Nat) : Nat := if value ≤ old then (old + 1) % 2 ^ 64 else value

theorem bumpValue_gt {old value : Nat} (h : old + 1 < 2 ^ 64) : old < bumpValue old value := by
  unfold bumpValue
  split
  · rw [Nat.mod_eq_of_lt h]; omega
  · omega

theorem bumpValue_le {old value b : Nat} (ho : old + 1 ≤ b) (hv : value ≤ b) :
    bumpValue old value ≤ b := by
  unfold bumpValue
  split
  · exact Nat.le_trans (Nat.mod_le _ _) ho
  · exact hv

theorem find_bumpCounters (id value i : Nat) (cs : List BepCounter) :
    (bumpCounters id value cs).find? (fun c => c.id = i) =
      if i = id then (cs.find? (fun c => c.id = i)).map
        (fun c => { c with value := bumpValue c.value value })
      else cs.find? (fun c => c.id = i) := by
  induction cs with
  | nil => simp [bumpCounters]
  | cons c cs ih =>
    by_cases hc : c.id = id
    · by_cases hi : i = id
      · simp [bumpCounters, hc, hi, bumpValue]
      · have hne : ¬ id = i := fun e => hi e.symm
        simp [bumpCounters, hc, hi, hne]
    · by_cases hci : c.id = i
      · have hi : ¬ i = id := fun e => hc (hci.trans e)
        simp [bumpCounters, hci, hi]
      · simp only [bumpCounters, hc, ↓reduceIte, List.find?_cons, hci, decide_false, ih]

/-- There is a counter of ours to raise, or a free slot for one. -/
def HasRoom (v : BepVector) (id : Nat) : Prop :=
  v.counters.any (fun c => c.id = id) = true ∨ v.counters.length < bepMaxCounters

theorem find_none_of_not_any {cs : List BepCounter} {id : Nat}
    (h : ¬ cs.any (fun c => c.id = id) = true) : cs.find? (fun c => c.id = id) = none := by
  rw [List.find?_eq_none]
  intro c hc hid
  exact h (List.any_eq_true.mpr ⟨c, hc, hid⟩)

/-- **Bump lemma.** With a clock value of at least 1 and room in the vector, only our own
counter changes. -/
theorem vecCounter_bumpVector (out : BepVector) (id value i : Nat)
    (hroom : HasRoom out id) (hval : 1 ≤ value) :
    vecCounter (bumpVector out id value) i =
      if i = id then bumpValue (vecCounter out id) value else vecCounter out i := by
  unfold bumpVector
  by_cases hany : out.counters.any (fun c => c.id = id) = true
  · simp only [hany, ↓reduceIte, vecCounter, find_bumpCounters]
    by_cases hi : i = id
    · subst hi
      cases hf : out.counters.find? (fun c => c.id = i) with
      | none =>
        obtain ⟨c, hc, hid⟩ := List.any_eq_true.mp hany
        exact absurd hid (List.find?_eq_none.mp hf c hc)
      | some c => simp
    · simp only [hi, ↓reduceIte]
  · have hlen : out.counters.length < bepMaxCounters := hroom.resolve_left hany
    have hnone := find_none_of_not_any hany
    simp only [hany, hlen, ↓reduceDIte, vecCounter, Bool.false_eq_true, ↓reduceIte,
      List.find?_append]
    by_cases hi : i = id
    · subst hi
      have hz : ¬ value ≤ 0 := by omega
      simp [hnone, bumpValue, hz]
    · have hne : ¬ id = i := fun e => hi e.symm
      simp [hi, hne]

theorem ids_bumpCounters (id value : Nat) (cs : List BepCounter) :
    (bumpCounters id value cs).map BepCounter.id = cs.map BepCounter.id := by
  induction cs with
  | nil => rfl
  | cons c cs ih =>
    by_cases h : c.id = id <;> simp [bumpCounters, h, ih]

theorem distinct_bumpVector (out : BepVector) (id value : Nat) (hd : out.Distinct) :
    (bumpVector out id value).Distinct := by
  unfold bumpVector
  by_cases hany : out.counters.any (fun c => c.id = id) = true
  · simpa [hany, BepVector.Distinct, ids_bumpCounters] using hd
  · by_cases hlen : out.counters.length < bepMaxCounters
    · have hnot : id ∉ out.counters.map BepCounter.id := by
        intro hm
        obtain ⟨c, hc, hid⟩ := List.mem_map.mp hm
        exact hany (List.any_eq_true.mpr ⟨c, hc, by simpa using hid⟩)
      simp only [hany, hlen, ↓reduceDIte, Bool.false_eq_true, ↓reduceIte, BepVector.Distinct,
        List.map_append, List.map_cons, List.map_nil]
      exact List.Nodup.append hd (by simp) (by simpa using hnot)
    · simpa [hany, hlen] using hd

/-- A bump brings in no id but ours. -/
theorem mem_ids_bumpVector {out : BepVector} {id value : Nat} {c : BepCounter}
    (hc : c ∈ (bumpVector out id value).counters) :
    c.id ∈ out.counters.map BepCounter.id ∨ c.id = id := by
  unfold bumpVector at hc
  by_cases hany : out.counters.any (fun c => c.id = id) = true
  · rw [if_pos hany] at hc
    rw [← ids_bumpCounters id value]
    exact Or.inl (List.mem_map_of_mem hc)
  · rw [if_neg hany] at hc
    by_cases hlen : out.counters.length < bepMaxCounters
    · rw [dif_pos hlen] at hc
      rcases List.mem_append.mp hc with hc | hc
      · exact Or.inl (List.mem_map_of_mem hc)
      · rw [List.mem_singleton] at hc
        exact Or.inr (by rw [hc])
    · rw [dif_neg hlen] at hc
      exact Or.inl (List.mem_map_of_mem hc)

/-! ## Deciding what to do with a peer's record -/

inductive SyncAction where
  | ignore
  | fetch
  | delete
  | adopt
  | conflict
  deriving DecidableEq, Repr

/-- Same size and same content hash; without both hashes identity cannot be proved. -/
def syncContentSame (held peer : SyncMeta) : Bool :=
  if held.size ≠ peer.size then false
  else match held.contentHash, peer.contentHash with
    | some a, some b => a = b
    | _, _ => false

/-- Between two live concurrent copies: newer time, then nanoseconds, then larger hash. -/
def resolveConflict (held peer : SyncMeta) : SyncAction :=
  if peer.modifiedS ≠ held.modifiedS then
    if peer.modifiedS > held.modifiedS then .conflict else .ignore
  else if peer.modifiedNs ≠ held.modifiedNs then
    if peer.modifiedNs > held.modifiedNs then .conflict else .ignore
  else match held.contentHash, peer.contentHash with
    | some a, some b => if memcmp b.1 a.1 > 0 then .conflict else .ignore
    | _, _ => .ignore

def haveVectors (held peer : SyncMeta) : Bool :=
  !held.version.counters.isEmpty && !peer.version.counters.isEmpty

/-- The rows of the table for a live peer record and two vectors. -/
def classifyLive (held peer : SyncMeta) : SyncVerRel → SyncAction
  | .theirs => if !held.deleted && syncContentSame held peer then .adopt else .fetch
  | .ours => .ignore
  | .equal =>
    if (!held.deleted && syncContentSame held peer) &&
        (held.modifiedS != peer.modifiedS || held.modifiedNs != peer.modifiedNs ||
          held.permissions != peer.permissions) then .adopt
    else .ignore
  | .concurrent =>
    if !held.deleted && syncContentSame held peer then
      if held.modifiedS = peer.modifiedS ∧ held.modifiedNs = peer.modifiedNs then .adopt
      else if resolveConflict held peer = .conflict then .adopt else .ignore
    else if held.deleted then .fetch
    else resolveConflict held peer

def syncClassifyIncoming (held : Option SyncMeta) (mode : FolderMode) (peer : SyncMeta) :
    SyncAction :=
  if mode = .sendOnly then .ignore
  else match held with
    | none => if peer.deleted then .ignore else .fetch
    | some h =>
      if peer.deleted then
        if h.deleted then .ignore
        else if haveVectors h peer then
          if syncVersionCompare h.version peer.version = .theirs then .delete else .ignore
        else if peer.modifiedS < h.modifiedS then .ignore
        else .delete
      else if haveVectors h peer then
        classifyLive h peer (syncVersionCompare h.version peer.version)
      else if !h.deleted && syncContentSame h peer then .ignore
      else if peer.modifiedS < h.modifiedS then .ignore
      else .fetch

/-! ### Facts about the table -/

theorem syncContentSame_iff (r s : SyncMeta) : syncContentSame r s = true ↔
    r.size = s.size ∧ ∃ h, r.contentHash = some h ∧ s.contentHash = some h := by
  unfold syncContentSame
  by_cases hs : r.size = s.size
  · cases hr : r.contentHash with
    | none => simp
    | some a =>
      cases hp : s.contentHash with
      | none => simp
      | some b =>
        simp only [hs, ne_eq, not_true_eq_false, ↓reduceIte, decide_eq_true_eq, true_and,
          Option.some.injEq]
        constructor
        · intro e
          exact ⟨b, e, rfl⟩
        · rintro ⟨h, ha, hb⟩
          exact ha.trans hb.symm
  · simp [hs]

theorem syncContentSame_comm (r s : SyncMeta) : syncContentSame r s = syncContentSame s r := by
  rw [Bool.eq_iff_iff, syncContentSame_iff, syncContentSame_iff]
  constructor
  · rintro ⟨hs, h, hr, hp⟩
    exact ⟨hs.symm, h, hp, hr⟩
  · rintro ⟨hs, h, hr, hp⟩
    exact ⟨hs.symm, h, hp, hr⟩

/-- The rows for a deletion, where both records carry a vector. -/
theorem syncClassifyIncoming_deleted {h peer : SyncMeta} {mode : FolderMode}
    (hm : mode ≠ .sendOnly) (hv : haveVectors h peer = true) (hp : peer.deleted = true) :
    syncClassifyIncoming (some h) mode peer =
      if h.deleted = false ∧ syncVersionCompare h.version peer.version = .theirs then .delete
      else .ignore := by
  cases hd : h.deleted <;> simp [syncClassifyIncoming, hm, hv, hp, hd]

/-- The rows for a live record, where both records carry a vector. -/
theorem syncClassifyIncoming_live {h peer : SyncMeta} {mode : FolderMode}
    (hm : mode ≠ .sendOnly) (hv : haveVectors h peer = true) (hp : peer.deleted = false) :
    syncClassifyIncoming (some h) mode peer =
      classifyLive h peer (syncVersionCompare h.version peer.version) := by
  simp [syncClassifyIncoming, hm, hv, hp]

theorem resolveConflict_cases (held peer : SyncMeta) :
    resolveConflict held peer = .conflict ∨ resolveConflict held peer = .ignore := by
  unfold resolveConflict
  repeat' split
  all_goals simp

/-- Between two copies with the same content and different times, the newer one wins. -/
theorem resolveConflict_swap_time {r s : SyncMeta}
    (hne : ¬ (r.modifiedS = s.modifiedS ∧ r.modifiedNs = s.modifiedNs)) :
    resolveConflict r s = .conflict ↔ resolveConflict s r = .ignore := by
  unfold resolveConflict
  by_cases hs : s.modifiedS = r.modifiedS
  · have hn : ¬ s.modifiedNs = r.modifiedNs := fun e => hne ⟨hs.symm, e.symm⟩
    have hn' : ¬ r.modifiedNs = s.modifiedNs := fun e => hn e.symm
    rcases Int.lt_or_gt_of_ne hn with h | h
    · have : ¬ s.modifiedNs > r.modifiedNs := by omega
      simp [hs, hn, hn', h, this]
    · have : ¬ r.modifiedNs > s.modifiedNs := by omega
      simp [hs, hn, hn', h, this]
  · have hs' : ¬ r.modifiedS = s.modifiedS := fun e => hs e.symm
    rcases Int.lt_or_gt_of_ne hs with h | h
    · have : ¬ s.modifiedS > r.modifiedS := by omega
      simp [hs, hs', h, this]
    · have : ¬ r.modifiedS > s.modifiedS := by omega
      simp [hs, hs', h, this]

/-- Two copies with different hashes: exactly one of the two devices yields. -/
theorem resolveConflict_swap {r s : SyncMeta} {a b : Hash} (ha : r.contentHash = some a)
    (hb : s.contentHash = some b) (hne : a ≠ b) :
    resolveConflict r s = .conflict ↔ resolveConflict s r = .ignore := by
  by_cases ht : r.modifiedS = s.modifiedS ∧ r.modifiedNs = s.modifiedNs
  · obtain ⟨hs, hn⟩ := ht
    unfold resolveConflict
    simp only [hs, hn, ha, hb, ne_eq, not_true_eq_false, ↓reduceIte]
    rcases memcmp_hash_ne a b hne with ⟨h1, h2⟩ | ⟨h1, h2⟩
    · have : ¬ memcmp b.1 a.1 > 0 := by omega
      simp [h1, this]
    · have : ¬ memcmp a.1 b.1 > 0 := by omega
      simp [h2, this]
  · exact resolveConflict_swap_time ht

end Amisync

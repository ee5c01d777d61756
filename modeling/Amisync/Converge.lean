import Amisync.Replica

/-!
# Two devices converge

* `pairInv_bump`, `pairInv_mirror`, `pairInv_copy`: what a local change and an
  exchange keep between the two records of a name. Each device's own counter is
  ahead at home, unless the other side holds a conflict copy it has not sent.
* `sysInv_step`, `sysInv_run`: the invariant holds after every run.
* `offered_exchange`, `exchange_back`, `exchange_last`: the three exchanges of
  the settling phase, one lemma each.
* `two_device_convergence`: after any run, three alternating exchanges make the
  devices agree on every name, no further exchange changes anything, and a name
  only one device ever touched ends as that device left it.
-/

namespace Amisync

/-! ## The invariant between the two records of a name -/

/-- The counter of device `i` in a record that may be absent. -/
def cnt (x : Option SyncMeta) (i : Nat) : Nat := (x.elim 0 fun r => vecCounter r.version i)

@[simp] theorem cnt_none (i : Nat) : cnt none i = 0 := rfl

@[simp] theorem cnt_some (r : SyncMeta) (i : Nat) : cnt (some r) i = vecCounter r.version i := rfl

/-- `x` is the record on device `i`, `y` the one on device `j`. Each device's own counter
is ahead at home, unless the other side holds a copy this side has never seen. -/
structure PairInv (i j : Nat) (x y : Option SyncMeta) : Prop where
  homeI : cnt y i ≤ cnt x i ∨ (cnt x j = 0 ∧ 0 < cnt y j)
  homeJ : cnt x j ≤ cnt y j ∨ (cnt y i = 0 ∧ 0 < cnt x i)
  same : ∀ r s, x = some r → y = some s →
    vecCounter r.version = vecCounter s.version → SameRecord r s

theorem SameRecord.symm {r s : SyncMeta} (h : SameRecord r s) : SameRecord s r :=
  ⟨h.deleted.symm, h.hash.symm, h.size.symm, h.modifiedS.symm, h.modifiedNs.symm,
    h.permissions.symm⟩

theorem PairInv.symm {i j : Nat} {x y : Option SyncMeta} (h : PairInv i j x y) :
    PairInv j i y x :=
  ⟨h.homeJ, h.homeI, fun r s hr hs e => (h.same s r hs hr e.symm).symm⟩

/-- A local change on device `i`. The new vector can equal no vector of the other side. -/
theorem pairInv_bump {i j : Nat} {x y : Option SyncMeta} {r : SyncMeta} (h : PairInv i j x y)
    (hi : cnt x i < vecCounter r.version i) (hj : vecCounter r.version j = cnt x j) :
    PairInv i j (some r) y where
  homeI := by
    rcases h.homeI with h' | h'
    · exact Or.inl (by rw [cnt_some]; omega)
    · exact Or.inr ⟨by rw [cnt_some, hj]; exact h'.1, h'.2⟩
  homeJ := by
    rcases h.homeJ with h' | h'
    · exact Or.inl (by rw [cnt_some, hj]; exact h')
    · exact Or.inr ⟨h'.1, by rw [cnt_some]; omega⟩
  same := by
    intro r' s hr hs e
    rw [Option.some.injEq] at hr
    subst hr hs
    have hei := congrFun e i
    have hej := congrFun e j
    rcases h.homeI with h' | h'
    · rw [cnt_some] at h'; omega
    · rw [cnt_some] at h'; omega

/-- The receiver mirrors the sender's record. -/
theorem pairInv_mirror {i j : Nat} {r m : SyncMeta} (hm : Mirrors m r) :
    PairInv i j (some r) (some m) where
  homeI := Or.inl (by rw [cnt_some, cnt_some, hm.version])
  homeJ := Or.inl (by rw [cnt_some, cnt_some, hm.version])
  same := by
    intro r' s hr hs _
    rw [Option.some.injEq] at hr hs
    subst hr hs
    exact hm.same.symm

/-- A new copy on device `j`, under a name device `i` does not have. -/
theorem pairInv_copy {i j : Nat} {c : SyncMeta} (hc : 0 < vecCounter c.version j) :
    PairInv i j none (some c) :=
  ⟨Or.inr ⟨rfl, hc⟩, Or.inl (Nat.zero_le _), fun _ _ hr => by simp at hr⟩

/-! ## Well-formed records -/

/-- A record of the run: only the two devices' counters, none above `b`, and a size that
goes with its hash. -/
structure RecOk (sz : Hash → Int) (i j b : Nat) (r : SyncMeta) : Prop where
  vector : ProperVector r.version
  ids : ∀ k, k ≠ i → k ≠ j → vecCounter r.version k = 0
  bound : ∀ k, vecCounter r.version k ≤ b
  live : r.deleted = false → r.contentHash.isSome = true
  size : ∀ h, r.contentHash = some h → r.size = sz h

variable {sz : Hash → Int} {i j b : Nat}

theorem RecOk.mono {b' : Nat} {r : SyncMeta} (h : RecOk sz i j b r) (hb : b ≤ b') :
    RecOk sz i j b' r :=
  ⟨h.vector, h.ids, fun k => Nat.le_trans (h.bound k) hb, h.live, h.size⟩

theorem RecOk.swap {r : SyncMeta} (h : RecOk sz i j b r) : RecOk sz j i b r :=
  ⟨h.vector, fun k hj hi => h.ids k hi hj, h.bound, h.live, h.size⟩

theorem RecOk.mirror {r m : SyncMeta} (h : RecOk sz i j b r) (hm : Mirrors m r) :
    RecOk sz i j b m where
  vector := hm.version ▸ h.vector
  ids := hm.version ▸ h.ids
  bound := hm.version ▸ h.bound
  live := fun hd => hm.same.hash ▸ h.live (hm.same.deleted ▸ hd)
  size := fun x hx => hm.same.size ▸ h.size x (hm.same.hash ▸ hx)

theorem crossPair_of_recOk {r s : SyncMeta} (hr : RecOk sz i j b r) (hs : RecOk sz i j b s)
    (hp : PairInv i j (some r) (some s)) : CrossPair r s where
  vectorR := hr.vector
  vectorS := hs.vector
  hashR := hr.live
  hashS := hs.live
  size := fun h h1 h2 => (hr.size h h1).trans (hs.size h h2).symm
  equal := fun e => ⟨(hp.same r s rfl rfl e).deleted, (hp.same r s rfl rfl e).hash⟩

/-- Two devices leave room for a bump in any vector. -/
theorem hasRoom_of_ids {v : BepVector} (hv : ProperVector v)
    (hids : ∀ k, k ≠ i → k ≠ j → vecCounter v k = 0) (id : Nat) : HasRoom v id := by
  right
  have hsub : v.counters.map BepCounter.id ⊆ [i, j] := by
    intro k hk
    obtain ⟨c, hc, rfl⟩ := List.mem_map.mp hk
    by_contra hne
    simp only [List.mem_cons, List.not_mem_nil, or_false, not_or] at hne
    have hz := hids c.id hne.1 hne.2
    rw [vecCounter_of_mem hv.distinct hc] at hz
    exact hv.nonzero c hc hz
  have hlen : (v.counters.map BepCounter.id).length ≤ [i, j].length :=
    List.Nodup.length_le_of_subset hv.distinct hsub
  rw [List.length_map] at hlen
  have hsmall : [i, j].length < bepMaxCounters := by simp [bepMaxCounters]
  omega

/-- The vector a local change starts from. -/
structure Bumpable (i j b : Nat) (prev : Option BepVector) : Prop where
  proper : ∀ v, prev = some v → ProperVector v
  ids : ∀ k, k ≠ i → k ≠ j → vecCounter (prev.getD BepVector.empty) k = 0
  bound : ∀ k, vecCounter (prev.getD BepVector.empty) k ≤ b

theorem Bumpable.hasRoom {prev : Option BepVector} (h : Bumpable i j b prev) (id : Nat) :
    HasRoom (prev.getD BepVector.empty) id := by
  cases prev with
  | none => exact Or.inr (by decide)
  | some v => exact hasRoom_of_ids (h.proper v rfl) h.ids id

section Bump
variable {prev : Option BepVector} (h : Bumpable i j b prev) {clock : Nat} (h1 : 1 ≤ clock)
include h h1

theorem vecCounter_bump (k : Nat) : vecCounter (syncBumpVersion prev i clock) k =
    if k = i then bumpValue (vecCounter (prev.getD BepVector.empty) i) clock
    else vecCounter (prev.getD BepVector.empty) k :=
  vecCounter_bumpVector _ i clock k (h.hasRoom i) h1

theorem vecCounter_bump_gt (hb : b + 1 < 2 ^ 64) :
    vecCounter (prev.getD BepVector.empty) i < vecCounter (syncBumpVersion prev i clock) i := by
  rw [vecCounter_bump h h1, if_pos rfl]
  exact bumpValue_gt (Nat.lt_of_le_of_lt (Nat.succ_le_succ (h.bound i)) hb)

theorem vecCounter_bump_le (hc : clock ≤ b + 1) (k : Nat) :
    vecCounter (syncBumpVersion prev i clock) k ≤ b + 1 := by
  rw [vecCounter_bump h h1]
  split
  · exact bumpValue_le (Nat.succ_le_succ (h.bound i)) hc
  · exact Nat.le_succ_of_le (h.bound k)

theorem proper_bump (hb : b + 1 < 2 ^ 64) : ProperVector (syncBumpVersion prev i clock) := by
  have hdist : (prev.getD BepVector.empty).Distinct := by
    cases prev with
    | none => exact List.nodup_nil
    | some v => exact (h.proper v rfl).distinct
  have hd : (syncBumpVersion prev i clock).Distinct := distinct_bumpVector _ i clock hdist
  have hpos := vecCounter_bump_gt h h1 hb
  refine ⟨?_, hd, ?_⟩
  · intro hnil
    simp [vecCounter, hnil] at hpos
  · intro c hc hz
    have hv := vecCounter_of_mem hd hc
    rw [hz] at hv
    by_cases hi : c.id = i
    · rw [hi] at hv
      omega
    · rw [vecCounter_bump h h1, if_neg hi] at hv
      rcases mem_ids_bumpVector hc with hm | hm
      · obtain ⟨c', hc', hid⟩ := List.mem_map.mp hm
        cases prev with
        | none => simp [BepVector.empty] at hc'
        | some v =>
          rw [Option.getD_some] at hv hc'
          rw [← hid, vecCounter_of_mem (h.proper v rfl).distinct hc'] at hv
          exact (h.proper v rfl).nonzero c' hc' hv
      · exact hi hm

/-- Any record whose vector is such a bump is well formed. -/
theorem recOk_bump {r : SyncMeta} (hv : r.version = syncBumpVersion prev i clock)
    (hc : clock ≤ b + 1) (hb : b + 1 < 2 ^ 64)
    (hlive : r.deleted = false → r.contentHash.isSome = true)
    (hsize : ∀ x, r.contentHash = some x → r.size = sz x) : RecOk sz i j (b + 1) r where
  vector := hv ▸ proper_bump h h1 hb
  ids := by
    intro k hki hkj
    rw [hv, vecCounter_bump h h1, if_neg hki]
    exact h.ids k hki hkj
  bound := fun k => hv ▸ vecCounter_bump_le h h1 hc k
  live := hlive
  size := hsize

end Bump

theorem RecOk.bumpable {r : SyncMeta} (h : RecOk sz i j b r) :
    Bumpable i j b (some r.version) where
  proper := fun v hv => by
    rw [Option.some.injEq] at hv
    exact hv ▸ h.vector
  ids := h.ids
  bound := h.bound

theorem bumpable_none : Bumpable i j b none :=
  ⟨fun v hv => by simp at hv, fun _ _ _ => rfl, fun _ => Nat.zero_le _⟩

/-! ## The invariant of the system -/

def Op.IsExchange : Op → Prop
  | .exchange _ _ _ => True
  | _ => False

/-- Did device `s` itself write the name, delete it or choose it for a conflict copy? -/
def Op.Touches (s : Side) (n : Name) : Op → Prop
  | .write t m _ _ _ => t = s ∧ m = n
  | .delete t m _ => t = s ∧ m = n
  | .exchange src cn _ => src.other = s ∧ ∃ m, cn m = n

structure SysInv (sz : Hash → Int) (b : Nat) (st : DevicePair) : Prop where
  ids : ∀ s, (st s).id ≠ (st s.other).id
  nodup : ∀ s, Keyed.NodupKeys SyncMeta.name (st s).files
  recs : ∀ s n r, (st s).find n = some r → RecOk sz (st s).id (st s.other).id b r
  pair : ∀ s n, PairInv (st s).id (st s.other).id ((st s).find n) ((st s.other).find n)

/-- Replacing the device of one side. -/
theorem SysInv.update {st : DevicePair} {b' : Nat} (h : SysInv sz b st) (hb : b ≤ b') (s : Side)
    {d : Device} (hid : d.id = (st s).id) (hn : Keyed.NodupKeys SyncMeta.name d.files)
    (hrec : ∀ n r, d.find n = some r → RecOk sz (st s).id (st s.other).id b' r)
    (hpair : ∀ n, PairInv (st s).id (st s.other).id (d.find n) ((st s.other).find n)) :
    SysInv sz b' (Function.update st s d) := by
  have hs : Function.update st s d s = d := Function.update_self s d st
  have ho : Function.update st s d s.other = st s.other :=
    Function.update_of_ne s.other_ne d st
  constructor
  · intro t
    rcases s.eq_or_eq_other t with rfl | rfl
    · rw [hs, ho, hid]
      exact h.ids _
    · rw [Side.other_other, hs, ho, hid]
      exact (h.ids s).symm
  · intro t
    rcases s.eq_or_eq_other t with rfl | rfl
    · rw [hs]
      exact hn
    · rw [ho]
      exact h.nodup _
  · intro t n r hr
    rcases s.eq_or_eq_other t with rfl | rfl
    · rw [hs] at hr
      rw [hs, ho, hid]
      exact hrec n r hr
    · rw [ho] at hr
      rw [Side.other_other, hs, ho, hid]
      have hm := (h.recs s.other n r hr).mono hb
      rwa [Side.other_other] at hm
  · intro t n
    rcases s.eq_or_eq_other t with rfl | rfl
    · rw [hs, ho, hid]
      exact hpair n
    · rw [Side.other_other, hs, ho, hid]
      exact (hpair n).symm

theorem SysInv.mono {st : DevicePair} {b' : Nat} (h : SysInv sz b st) (hb : b ≤ b') :
    SysInv sz b' st :=
  ⟨h.ids, h.nodup, fun s n r hr => (h.recs s n r hr).mono hb, h.pair⟩

theorem SysInv.bumpable {st : DevicePair} (h : SysInv sz b st) (s : Side) (n : Name) :
    Bumpable (st s).id (st s.other).id b (((st s).find n).map SyncMeta.version) := by
  cases hf : (st s).find n with
  | none => exact bumpable_none
  | some r => exact (h.recs s n r hf).bumpable

theorem getD_version (x : Option SyncMeta) (k : Nat) :
    vecCounter ((x.map SyncMeta.version).getD BepVector.empty) k = cnt x k := by
  cases x <;> rfl

/-- **Local step.** A device stores a record of its own, one bump above what it held. -/
theorem sysInv_put {st : DevicePair} (h : SysInv sz b st) (hb : b + 1 < 2 ^ 64) (s : Side)
    {r : SyncMeta} {clock : Nat} (h1 : 1 ≤ clock) (hc : clock ≤ b + 1)
    (hv : r.version = syncBumpVersion (((st s).find r.name).map SyncMeta.version) (st s).id clock)
    (hlive : r.deleted = false → r.contentHash.isSome = true)
    (hsize : ∀ x, r.contentHash = some x → r.size = sz x) :
    SysInv sz (b + 1) (Function.update st s ((st s).put r)) := by
  have hbump := h.bumpable s r.name
  apply h.update (Nat.le_succ b) s (Device.put_id (st s) r) (Device.nodup_put r (h.nodup s))
  · intro n r' hr'
    rw [Device.find_put] at hr'
    split at hr'
    · rw [Option.some.injEq] at hr'
      subst hr'
      exact recOk_bump hbump h1 hv hc hb hlive hsize
    · exact (h.recs s n r' hr').mono (Nat.le_succ b)
  · intro n
    rw [Device.find_put]
    split
    · rename_i hn
      subst hn
      apply pairInv_bump (h.pair s r.name)
      · rw [hv, ← getD_version]
        exact vecCounter_bump_gt hbump h1 hb
      · rw [hv, vecCounter_bump hbump h1, if_neg (h.ids s).symm, getD_version]
    · exact h.pair s n

/-- **Exchange step.** -/
theorem sysInv_exchange {st : DevicePair} (h : SysInv sz b st) (hb : b + 1 < 2 ^ 64) (s : Side)
    {cn : Name → Name} {clock : Name → Nat} (hf : FreshNames cn (st s) (st s.other))
    (hc : ∀ n ∈ (st s).names, 1 ≤ clock n ∧ clock n ≤ b + 1) :
    SysInv sz (b + 1) (Function.update st s.other
      (Device.exchange cn clock (st s) (st s.other))) := by
  have hout := fun k => Device.exchange_outcome clock (h.nodup s) hf k
  apply h.update (Nat.le_succ b) s.other (Device.exchange_id cn clock (st s) (st s.other))
    (Device.nodup_exchange (h.nodup s.other))
  · intro n r' hr'
    rcases hout n with ⟨-, hk⟩ | ⟨r, m, hs, -, hm, hk⟩ | ⟨n', r, held, seq, hs, hkn, hheld, -, hk⟩
    · rw [hk] at hr'
      exact (h.recs s.other n r' hr').mono (Nat.le_succ b)
    · rw [hk, Option.some.injEq] at hr'
      subst hr'
      rw [Side.other_other]
      exact (((h.recs s n r hs).mirror hm).swap).mono (Nat.le_succ b)
    · rw [hk, Option.some.injEq] at hr'
      subst hr'
      have hok := h.recs s.other n' held hheld
      have hmem : n' ∈ (st s).names := Device.mem_names_iff.mpr (by rw [hs]; simp)
      exact recOk_bump hok.bumpable (hc n' hmem).1 rfl (hc n' hmem).2 hb hok.live hok.size
  · intro n
    rw [Side.other_other]
    apply PairInv.symm
    rcases hout n with ⟨-, hk⟩ | ⟨r, m, hs, -, hm, hk⟩ | ⟨n', r, held, seq, hs, hkn, hheld, -, hk⟩
    · rw [hk]
      exact h.pair s n
    · rw [hk, hs]
      exact pairInv_mirror hm
    · have hmem : n' ∈ (st s).names := Device.mem_names_iff.mpr (by rw [hs]; simp)
      have hnone : (st s).find n = none :=
        Device.find_none_of_not_mem (hkn ▸ (hf n' hmem).1)
      have hbump := (h.recs s.other n' held hheld).bumpable
      rw [hk, hnone]
      apply pairInv_copy
      have hgt := vecCounter_bump_gt hbump (hc n' hmem).1 hb
      exact Nat.lt_of_le_of_lt (Nat.zero_le _) hgt

/-- What a local change does: nothing, or one record of our own is stored, one bump above
what we held. -/
theorem local_cases {K : Nat} {st u : DevicePair} {op : Op} (hop : ¬ op.IsExchange)
    (h : pairStep sz K st op = some u) : u = st ∨ ∃ t r clock, op.Touches t r.name ∧
      1 ≤ clock ∧ clock ≤ K ∧
      r.version = syncBumpVersion (((st t).find r.name).map SyncMeta.version) (st t).id clock ∧
      (r.deleted = false → r.contentHash.isSome = true) ∧
      (∀ x, r.contentHash = some x → r.size = sz x) ∧
      u = Function.update st t ((st t).put r) := by
  unfold pairStep at h
  split at h
  · rename_i hok
    rw [Option.some.injEq] at h
    subst h
    cases op with
    | exchange src cn clock => exact absurd trivial hop
    | write t n hash modifiedS clock =>
      refine Or.inr ⟨t, _, clock, ⟨rfl, rfl⟩, hok.1, hok.2, rfl, fun _ => rfl, fun x hx => ?_, rfl⟩
      have hx' : some hash = some x := hx
      rw [Option.some.injEq] at hx'
      exact congrArg sz hx'
    | delete t n clock =>
      simp only [Op.apply, Device.localDelete]
      cases hf : (st t).find n with
      | none => exact Or.inl (Function.update_eq_self t st)
      | some r =>
        have hname : r.name = n := Device.name_of_find hf
        dsimp only
        split
        · exact Or.inl (Function.update_eq_self t st)
        · refine Or.inr ⟨t, localTombstone r (st t).id clock ((st t).seq + 1), clock,
            ⟨rfl, hname.symm⟩, hok.1, hok.2, ?_, fun hd => ?_, fun x hx => ?_, rfl⟩
          · change syncBumpVersion (some r.version) _ _ =
              syncBumpVersion (((st t).find r.name).map SyncMeta.version) _ _
            rw [hname, hf]
            rfl
          · simp [localTombstone] at hd
          · simp [localTombstone, SyncMeta.zero] at hx
  · simp at h

/-- One exchange as a step of the run. -/
theorem exchange_step {K : Nat} {st u : DevicePair} {s : Side} {cn : Name → Name}
    {clock : Name → Nat} (h : pairStep sz K st (.exchange s cn clock) = some u) :
    (Op.exchange s cn clock).Ok K st ∧ u s = st s ∧
      u s.other = Device.exchange cn clock (st s) (st s.other) ∧
      u = Function.update st s.other (Device.exchange cn clock (st s) (st s.other)) := by
  unfold pairStep at h
  split at h
  · rename_i hok
    rw [Option.some.injEq] at h
    subst h
    exact ⟨hok, Function.update_of_ne s.other_ne.symm _ st, Function.update_self s.other _ st, rfl⟩
  · simp at h

/-- **Step lemma.** -/
theorem sysInv_step {K : Nat} {st u : DevicePair} {op : Op} (hK : K ≤ b) (hb : b + 1 < 2 ^ 64)
    (h : SysInv sz b st) (hstep : pairStep sz K st op = some u) : SysInv sz (b + 1) u := by
  by_cases hop : op.IsExchange
  · cases op with
    | write | delete => exact absurd hop id
    | exchange s cn clock =>
      obtain ⟨⟨hf, hc⟩, -, -, rfl⟩ := exchange_step hstep
      refine sysInv_exchange h hb s hf (fun n hn => ⟨(hc n hn).1, ?_⟩)
      have := (hc n hn).2
      omega
  · rcases local_cases hop hstep with rfl | ⟨t, r, clock, -, h1, h2, hv, hlive, hsize, rfl⟩
    · exact h.mono (Nat.le_succ b)
    · exact sysInv_put h hb t h1 (by omega) hv hlive hsize

theorem sysInv_empty {idA idB : Nat} (hne : idA ≠ idB) (b : Nat) :
    SysInv sz b (emptyPair idA idB) where
  ids := by
    intro s
    cases s
    · exact hne
    · exact hne.symm
  nodup := by
    intro s
    cases s <;> exact List.nodup_nil
  recs := by
    intro s n r hr
    cases s <;> simp [emptyPair, Device.find] at hr
  pair := by
    intro s n
    cases s <;> exact ⟨Or.inl (Nat.le_refl _), Or.inl (Nat.le_refl _), fun r _ hr => by
      simp [emptyPair, Device.find] at hr⟩

/-- **Run lemma.** After `t` more steps no counter exceeds `b + t`. -/
theorem sysInv_run {K : Nat} {st st' : DevicePair} {ops : List Op} (hK : K ≤ b)
    (hb : b + ops.length < 2 ^ 64) (h : SysInv sz b st)
    (hrun : Machine.run (pairStep sz K) st ops = some st') : SysInv sz (b + ops.length) st' := by
  have hcount := Machine.run_inv_count
    (I := fun t st => b + t < 2 ^ 64 → SysInv sz (b + t) st) (n := 0)
    (fun t u op v hu hstep (hlt : b + t + 1 < 2 ^ 64) =>
      sysInv_step (Nat.le_trans hK (Nat.le_add_right b t)) hlt
        (hu (Nat.lt_of_succ_lt hlt)) hstep) hrun (fun _ => h)
  rw [Nat.zero_add] at hcount
  exact hcount hb

/-! ## Settling -/

/-- Both sides say the same about a name: neither has it live, or they agree. -/
def Settled : Option SyncMeta → Option SyncMeta → Prop
  | none, none => True
  | some r, none => r.deleted = true
  | none, some s => s.deleted = true
  | some r, some s => Agree r s

theorem Settled.symm {x y : Option SyncMeta} (h : Settled x y) : Settled y x := by
  cases x with
  | none => cases y <;> exact h
  | some r =>
    cases y with
    | none => exact h
    | some s => exact Agree.symm h

theorem agree_of_mirrors {m r : SyncMeta} (hr : ProperVector r.version) (hm : Mirrors m r) :
    Agree m r :=
  Agree.of_fields (hm.version ▸ hr) hr hm.same.deleted (fun _ => ⟨hm.same.hash, hm.same.size⟩)
    (fun _ => by rw [hm.version])
    (fun _ => ⟨hm.same.modifiedS, hm.same.modifiedNs, hm.same.permissions⟩)

/-- Only a tombstone is ignored by a device that has no record of the name. -/
theorem deleted_of_ignore_none {r : SyncMeta}
    (hc : syncClassifyIncoming none .sendReceive r = .ignore) : r.deleted = true := by
  cases hd : r.deleted with
  | true => rfl
  | false => simp [syncClassifyIncoming, hd] at hc

/-- A settled record is ignored. -/
theorem ignore_of_settled {r : SyncMeta} {y : Option SyncMeta} (h : Settled (some r) y) :
    syncClassifyIncoming y .sendReceive r = .ignore := by
  cases y with
  | none =>
    have hd : r.deleted = true := h
    simp [syncClassifyIncoming, hd]
  | some s => exact Agree.quiet h |>.2

/-- Every record of `src` is settled, or `dst` has kept its own over it. -/
def Offered (src dst : Device) : Prop :=
  ∀ n r, src.find n = some r → Settled (some r) (dst.find n) ∨
    ∃ s, dst.find n = some s ∧ syncClassifyIncoming (some s) .sendReceive r = .ignore

section Settle
variable {cn : Name → Name} {clock : Name → Nat} {src dst : Device}
  (hn : Keyed.NodupKeys SyncMeta.name src.files) (hf : FreshNames cn src dst)
  (hv : ∀ n r, src.find n = some r → ProperVector r.version)
include hn hf hv

/-- **First exchange.** -/
theorem offered_exchange : Offered src (Device.exchange cn clock src dst) := by
  intro n r hr
  rcases Device.exchange_outcome clock hn hf n with
    ⟨hs, hk⟩ | ⟨r', m, hs, -, hm, hk⟩ | ⟨n', r', held, seq, hs, hkn, -, -, hk⟩
  · have hig := hs r hr
    rw [hk]
    cases hd : dst.find n with
    | none =>
      rw [hd] at hig
      exact Or.inl (deleted_of_ignore_none hig)
    | some s =>
      rw [hd] at hig
      exact Or.inr ⟨s, rfl, hig⟩
  · rw [hr, Option.some.injEq] at hs
    subst hs
    rw [hk]
    exact Or.inl (agree_of_mirrors (hv n r hr) hm).symm
  · have hmem : n' ∈ src.names := Device.mem_names_iff.mpr (by rw [hs]; simp)
    have hnone := Device.find_none_of_not_mem (hf n' hmem).1
    rw [← hkn, hr] at hnone
    simp at hnone

/-- **Exchange back.** What is left are copies the sender has not seen. -/
theorem exchange_back (hoff : Offered dst src)
    (hcross : ∀ n r s, dst.find n = some r → src.find n = some s → CrossPair r s) (n : Name) :
    Settled ((Device.exchange cn clock src dst).find n) (src.find n) ∨ src.find n = none := by
  rcases Device.exchange_outcome clock hn hf n with
    ⟨hs, hk⟩ | ⟨r', m, hs, -, hm, hk⟩ | ⟨n', r', held, seq, hs, hkn, -, -, hk⟩
  · rw [hk]
    cases hsn : src.find n with
    | none => exact Or.inr rfl
    | some s =>
      left
      have hig := hs s hsn
      cases hd : dst.find n with
      | none =>
        rw [hd] at hig
        exact deleted_of_ignore_none hig
      | some r =>
        rw [hd] at hig
        rcases hoff n r hd with h | ⟨s', hs', hig'⟩
        · rwa [hsn] at h
        · rw [hsn, Option.some.injEq] at hs'
          subst hs'
          exact agree_of_ignore (hcross n r s hd hsn) hig hig'
  · rw [hk, hs]
    exact Or.inl (agree_of_mirrors (hv n r' hs) hm)
  · have hmem : n' ∈ src.names := Device.mem_names_iff.mpr (by rw [hs]; simp)
    exact Or.inr (hkn ▸ Device.find_none_of_not_mem (hf n' hmem).1)

/-- **Last exchange.** -/
theorem exchange_last (hback : ∀ n, Settled (src.find n) (dst.find n) ∨ dst.find n = none)
    (n : Name) : Settled (src.find n) ((Device.exchange cn clock src dst).find n) := by
  rcases Device.exchange_outcome clock hn hf n with
    ⟨hs, hk⟩ | ⟨r', m, hs, -, hm, hk⟩ | ⟨n', r', held, seq, hs, hkn, hheld, hc, hk⟩
  · rw [hk]
    rcases hback n with h | h
    · exact h
    · rw [h]
      cases hsn : src.find n with
      | none => trivial
      | some r =>
        have hig := hs r hsn
        rw [h] at hig
        exact deleted_of_ignore_none hig
  · rw [hk, hs]
    exact (agree_of_mirrors (hv n r' hs) hm).symm
  · rcases hback n' with h | h
    · rw [hs, hheld] at h
      have hq := (Agree.quiet h).2
      rw [hc] at hq
      simp at hq
    · rw [hheld] at h
      simp at h

end Settle

theorem foldl_applyOne_ignored (cn : Name → Name) (clock : Name → Nat) {d : Device}
    {rs : List SyncMeta}
    (h : ∀ r ∈ rs, syncClassifyIncoming (d.find r.name) .sendReceive r = .ignore) :
    rs.foldl (Device.applyOne cn clock) d = d := by
  induction rs with
  | nil => rfl
  | cons r rs ih =>
    have h1 : Device.applyOne cn clock d r = d := by
      unfold Device.applyOne
      rw [h r List.mem_cons_self]
    rw [List.foldl_cons, h1]
    exact ih fun x hx => h x (List.mem_cons_of_mem _ hx)

/-- **Fixed point.** Between settled devices an exchange changes nothing. -/
theorem exchange_settled (cn : Name → Name) (clock : Name → Nat) {src dst : Device}
    (hn : Keyed.NodupKeys SyncMeta.name src.files)
    (h : ∀ n, Settled (src.find n) (dst.find n)) : Device.exchange cn clock src dst = dst := by
  apply foldl_applyOne_ignored
  intro r hr
  have hr' : src.find r.name = some r := Keyed.lookup_of_mem hn hr
  exact ignore_of_settled (hr' ▸ h r.name)

def AllSettled (st : DevicePair) : Prop := ∀ s n, Settled ((st s).find n) ((st s.other).find n)

theorem AllSettled.of_side {st : DevicePair} (s : Side)
    (h : ∀ n, Settled ((st s).find n) ((st s.other).find n)) : AllSettled st := by
  intro t n
  rcases s.eq_or_eq_other t with rfl | rfl
  · exact h n
  · rw [Side.other_other]
    exact (h n).symm

/-- Once settled, exchanges change nothing, however many there are. -/
theorem run_settled {K : Nat} {st st' : DevicePair} {more : List Op} (hinv : SysInv sz b st)
    (h : AllSettled st) (hmore : ∀ op ∈ more, op.IsExchange)
    (hrun : Machine.run (pairStep sz K) st more = some st') : st' = st := by
  induction more with
  | nil => simpa using hrun.symm
  | cons op more ih =>
    obtain ⟨u, hu, hrest⟩ := Machine.run_cons_eq_some.mp hrun
    have hop : op.IsExchange := hmore op List.mem_cons_self
    cases op with
    | write | delete => exact absurd hop id
    | exchange s cn clock =>
      obtain ⟨-, hs, ho, -⟩ := exchange_step hu
      rw [exchange_settled cn clock (hinv.nodup s) (h s)] at ho
      have hust : u = st := by
        funext t
        rcases s.eq_or_eq_other t with rfl | rfl
        · exact hs
        · exact ho
      subst hust
      exact ih (fun x hx => hmore x (List.mem_cons_of_mem _ hx)) hrest

/-- **Settling lemma.** Three alternating exchanges settle every name. -/
theorem settle_three {K : Nat} {st u v w : DevicePair} {s : Side} {cn₁ cn₂ cn₃ : Name → Name}
    {clock₁ clock₂ clock₃ : Name → Nat} (hK : K ≤ b) (hb : b + 3 < 2 ^ 64) (h : SysInv sz b st)
    (h₁ : pairStep sz K st (.exchange s cn₁ clock₁) = some u)
    (h₂ : pairStep sz K u (.exchange s.other cn₂ clock₂) = some v)
    (h₃ : pairStep sz K v (.exchange s cn₃ clock₃) = some w) : AllSettled w := by
  have hu : SysInv sz (b + 1) u := sysInv_step hK (by omega) h h₁
  have hv : SysInv sz (b + 1 + 1) v := sysInv_step (by omega) (by omega) hu h₂
  obtain ⟨⟨hf₁, -⟩, hs₁, ho₁, -⟩ := exchange_step h₁
  obtain ⟨⟨hf₂, -⟩, hs₂, ho₂, -⟩ := exchange_step h₂
  obtain ⟨⟨hf₃, -⟩, hs₃, ho₃, -⟩ := exchange_step h₃
  rw [Side.other_other] at hf₂ ho₂
  have hoff : Offered (u s) (u s.other) := by
    rw [hs₁, ho₁]
    exact offered_exchange (h.nodup s) hf₁ fun n r hr => (h.recs s n r hr).vector
  have hback : ∀ n, Settled ((v s).find n) ((v s.other).find n) ∨ (v s.other).find n = none := by
    intro n
    rw [hs₂, ho₂]
    refine exchange_back (hu.nodup s.other) hf₂
      (fun n r hr => (hu.recs s.other n r hr).vector) hoff (fun n r t hr ht => ?_) n
    have hp := hu.pair s n
    rw [hr, ht] at hp
    have ht' := hu.recs s.other n t ht
    rw [Side.other_other] at ht'
    exact crossPair_of_recOk (hu.recs s n r hr) ht'.swap hp
  apply AllSettled.of_side s
  intro n
  rw [hs₃, ho₃]
  exact exchange_last (hv.nodup s) hf₃ (fun n r hr => (hv.recs s n r hr).vector) hback n

/-! ## A name only one device touches -/

/-- What the other side has of the name is an older version, or nothing. -/
def Owned (st : DevicePair) (s : Side) (n : Name) : Prop :=
  ∀ y, (st s.other).find n = some y → ∃ x, (st s).find n = some x ∧
    vecCounter y.version ≤ vecCounter x.version

theorem classify_ignore_of_le {x y : SyncMeta} (hx : ProperVector x.version)
    (hy : ProperVector y.version) (hle : vecCounter y.version ≤ vecCounter x.version)
    (hsame : vecCounter x.version = vecCounter y.version → SameRecord x y) :
    syncClassifyIncoming (some x) .sendReceive y = .ignore := by
  rcases eq_or_lt_of_le hle with he | hlt
  · have hs := hsame he.symm
    exact classify_ignore_of_same hx hy hs.deleted (fun _ => he.symm)
      (fun _ => ⟨hs.modifiedS, hs.modifiedNs, hs.permissions⟩)
  · have hc := (syncVersionCompare_ours hx.distinct hy.distinct).mpr hlt
    have hhv := haveVectors_of_proper hx hy
    cases hd : y.deleted with
    | true =>
      rw [syncClassifyIncoming_deleted (by decide) hhv hd, hc]
      simp
    | false =>
      rw [syncClassifyIncoming_live (by decide) hhv hd, hc]
      rfl

theorem SysInv.ignore_of_owned {st : DevicePair} (h : SysInv sz b st) {s : Side} {n : Name}
    {x y : SyncMeta} (hx : (st s).find n = some x) (hy : (st s.other).find n = some y)
    (hle : vecCounter y.version ≤ vecCounter x.version) :
    syncClassifyIncoming (some x) .sendReceive y = .ignore :=
  classify_ignore_of_le (h.recs s n x hx).vector (h.recs s.other n y hy).vector hle
    (fun e => (h.pair s n).same x y hx hy e)

/-- An exchange from the owner. -/
theorem owned_exchange_out {st u : DevicePair} {s : Side} {n : Name} {K : Nat} {cn : Name → Name}
    {clock : Name → Nat} (h : SysInv sz b st) (hown : Owned st s n)
    (hcn : ∀ m ∈ (st s).names, cn m ≠ n)
    (hu : pairStep sz K st (.exchange s cn clock) = some u) : Owned u s n := by
  obtain ⟨⟨hf, -⟩, hs, ho, -⟩ := exchange_step hu
  intro y hy
  rw [ho] at hy
  rw [hs]
  rcases Device.exchange_outcome clock (h.nodup s) hf n with
    ⟨-, hk⟩ | ⟨r, m, hr, -, hm, hk⟩ | ⟨n', r, held, seq, hr, hkn, -, -, hk⟩
  · rw [hk] at hy
    exact hown y hy
  · rw [hk, Option.some.injEq] at hy
    subst hy
    exact ⟨r, hr, by rw [hm.version]⟩
  · exact absurd hkn.symm (hcn n' (Device.mem_names_iff.mpr (by rw [hr]; simp)))

/-- An exchange to the owner leaves its record alone. -/
theorem owned_exchange_in {st u : DevicePair} {s : Side} {n : Name} {K : Nat} {cn : Name → Name}
    {clock : Name → Nat} (h : SysInv sz b st) (hown : Owned st s n)
    (hu : pairStep sz K st (.exchange s.other cn clock) = some u) :
    Owned u s n ∧ ((st s).find n ≠ none → (u s).find n = (st s).find n) := by
  obtain ⟨⟨hf, -⟩, hs, ho, -⟩ := exchange_step hu
  rw [Side.other_other] at hf ho
  rcases Device.exchange_outcome clock (h.nodup s.other) hf n with
    ⟨-, hk⟩ | ⟨r, m, hr, hc, hm, hk⟩ | ⟨n', r, held, seq, hr, hkn, -, -, hk⟩
  · rw [← ho] at hk
    refine ⟨fun y hy => ?_, fun _ => hk⟩
    rw [hs] at hy
    rw [hk]
    exact hown y hy
  · obtain ⟨x, hx, hle⟩ := hown r hr
    rw [hx] at hc
    exact absurd (h.ignore_of_owned hx hr hle) hc
  · have hmem : n' ∈ (st s.other).names := Device.mem_names_iff.mpr (by rw [hr]; simp)
    have hno : (st s.other).find n = none :=
      Device.find_none_of_not_mem (hkn ▸ (hf n' hmem).1)
    have hns : (st s).find n = none := Device.find_none_of_not_mem (hkn ▸ (hf n' hmem).2.1)
    refine ⟨fun y hy => ?_, fun hne => absurd hns hne⟩
    rw [hs, hno] at hy
    simp at hy

/-- A local change on the owner's side raises its vector; one on the other side is about
another name. -/
theorem owned_put {st : DevicePair} {s t : Side} {n : Name} {r : SyncMeta} {clock : Nat}
    (h : SysInv sz b st) (hb : b + 1 < 2 ^ 64) (hown : Owned st s n) (h1 : 1 ≤ clock)
    (hv : r.version = syncBumpVersion (((st t).find r.name).map SyncMeta.version) (st t).id clock)
    (hne : t = s.other → r.name ≠ n) : Owned (Function.update st t ((st t).put r)) s n := by
  intro y hy
  rcases s.eq_or_eq_other t with rfl | rfl
  · rw [Function.update_of_ne t.other_ne] at hy
    rw [Function.update_self, Device.find_put]
    obtain ⟨x, hx, hle⟩ := hown y hy
    split
    · rename_i hn
      subst hn
      refine ⟨r, rfl, Pi.le_def.mpr fun k => Nat.le_trans (hle k) ?_⟩
      have hbump := h.bumpable t r.name
      have hcnt : vecCounter x.version k =
          vecCounter ((((st t).find r.name).map SyncMeta.version).getD BepVector.empty) k := by
        rw [hx]
        rfl
      by_cases hk : k = (st t).id
      · have hgt := vecCounter_bump_gt hbump h1 hb
        rw [← hv, ← hk, ← hcnt] at hgt
        exact Nat.le_of_lt hgt
      · rw [hv, vecCounter_bump hbump h1, if_neg hk, hcnt]
    · exact ⟨x, hx, hle⟩
  · rw [Function.update_self, Device.find_put, if_neg (hne rfl).symm] at hy
    rw [Function.update_of_ne s.other_ne.symm]
    exact hown y hy

/-- **Step lemma.** A step in which the other side does not touch the name. -/
theorem owned_step {K : Nat} {st u : DevicePair} {s : Side} {n : Name} {op : Op}
    (h : SysInv sz b st) (hb : b + 1 < 2 ^ 64) (hown : Owned st s n)
    (htouch : ¬ op.Touches s.other n) (hstep : pairStep sz K st op = some u) : Owned u s n := by
  by_cases hop : op.IsExchange
  · cases op with
    | write | delete => exact absurd hop id
    | exchange t cn clock =>
      rcases s.eq_or_eq_other t with rfl | rfl
      · exact owned_exchange_out h hown (fun m _ hm => htouch ⟨rfl, m, hm⟩) hstep
      · exact (owned_exchange_in h hown hstep).1
  · rcases local_cases hop hstep with rfl | ⟨t, r, clock, ht, h1, -, hv, -, -, rfl⟩
    · exact hown
    · exact owned_put h hb hown h1 hv (fun e hr => htouch (e ▸ hr ▸ ht))

/-- **Run lemma.** -/
theorem owned_run {K : Nat} {st st' : DevicePair} {s : Side} {n : Name} {ops : List Op}
    (hK : K ≤ b) (hb : b + ops.length < 2 ^ 64) (h : SysInv sz b st) (hown : Owned st s n)
    (htouch : ∀ op ∈ ops, ¬ op.Touches s.other n)
    (hrun : Machine.run (pairStep sz K) st ops = some st') : Owned st' s n := by
  induction ops generalizing st b with
  | nil =>
    simp only [Machine.run_nil, Option.some.injEq] at hrun
    exact hrun ▸ hown
  | cons op ops ih =>
    obtain ⟨u, hu, hrest⟩ := Machine.run_cons_eq_some.mp hrun
    rw [List.length_cons] at hb
    have hinv := sysInv_step hK (by omega) h hu
    have howned := owned_step h (by omega) hown (htouch op List.mem_cons_self) hu
    exact ih (by omega) (by omega) hinv howned
      (fun x hx => htouch x (List.mem_cons_of_mem _ hx)) hrest

/-- Any exchange leaves the owner's record alone. -/
theorem find_owner_exchange {K : Nat} {st u : DevicePair} {s t : Side} {n : Name}
    {cn : Name → Name} {clock : Name → Nat} (h : SysInv sz b st) (hown : Owned st s n)
    (hne : (st s).find n ≠ none) (hu : pairStep sz K st (.exchange t cn clock) = some u) :
    Owned u s n ∧ (u s).find n = (st s).find n := by
  rcases s.eq_or_eq_other t with rfl | rfl
  · obtain ⟨⟨hf, -⟩, hs, -, -⟩ := exchange_step hu
    refine ⟨owned_exchange_out h hown (fun m hm e => ?_) hu, by rw [hs]⟩
    exact hne (Device.find_none_of_not_mem (e ▸ (hf m hm).1))
  · obtain ⟨h1, h2⟩ := owned_exchange_in h hown hu
    exact ⟨h1, h2 hne⟩

/-! ## Convergence -/

/-- **Two-device convergence.** From empty devices, after any run: three alternating
exchanges settle every name; no exchange after them changes anything; and a name the other
side never touched is on both sides what its one writer left. -/
theorem two_device_convergence (sz : Hash → Int) (K idA idB : Nat) (hid : idA ≠ idB)
    (ops : List Op) (st st' : DevicePair) (s : Side) (cn₁ cn₂ cn₃ : Name → Name)
    (clock₁ clock₂ clock₃ : Name → Nat) (hclock : K + ops.length + 3 < 2 ^ 64)
    (hrun : Machine.run (pairStep sz K) (emptyPair idA idB) ops = some st)
    (hset : Machine.run (pairStep sz K) st [.exchange s cn₁ clock₁,
      .exchange s.other cn₂ clock₂, .exchange s cn₃ clock₃] = some st') :
    AllSettled st' ∧
    (∀ more st'', (∀ op ∈ more, op.IsExchange) →
      Machine.run (pairStep sz K) st' more = some st'' → st'' = st') ∧
    (∀ t n, (∀ op ∈ ops, ¬ op.Touches t.other n) → (st t).find n ≠ none →
      (st' t).find n = (st t).find n) := by
  have hinv : SysInv sz (K + ops.length) st :=
    sysInv_run (Nat.le_refl K) (by omega) (sysInv_empty hid K) hrun
  obtain ⟨u, hu, hset⟩ := Machine.run_cons_eq_some.mp hset
  obtain ⟨v, hv, hset⟩ := Machine.run_cons_eq_some.mp hset
  obtain ⟨w, hw, hset⟩ := Machine.run_cons_eq_some.mp hset
  simp only [Machine.run_nil, Option.some.injEq] at hset
  subst hset
  have hinvU := sysInv_step (Nat.le_add_right K _) (by omega) hinv hu
  have hinvV := sysInv_step (by omega) (by omega) hinvU hv
  have hinvW := sysInv_step (by omega) (by omega) hinvV hw
  have hall := settle_three (Nat.le_add_right K _) hclock hinv hu hv hw
  refine ⟨hall, fun more st'' hmore hr => run_settled hinvW hall hmore hr, ?_⟩
  intro t n htouch hne
  have h0 : Owned (emptyPair idA idB) t n := by
    intro y hy
    cases t <;> simp [emptyPair, Device.find, Side.other] at hy
  have hown := owned_run (Nat.le_refl K) (by omega) (sysInv_empty hid K) h0 htouch hrun
  obtain ⟨hownU, hfU⟩ := find_owner_exchange hinv hown hne hu
  obtain ⟨hownV, hfV⟩ := find_owner_exchange hinvU hownU (hfU ▸ hne) hv
  obtain ⟨-, hfW⟩ := find_owner_exchange hinvV hownV (hfV ▸ hfU ▸ hne) hw
  rw [hfW, hfV, hfU]

/-- Both devices write the same name before they first meet; `b` wins by time, and the copy
of `a` is kept. -/
theorem two_device_convergence_conflict : ∃ st st',
    Machine.run (pairStep (fun _ => 3) 9) (emptyPair 1 2)
      [.write .a [102] (sampleHash 1) 5 5, .write .b [102] (sampleHash 2) 6 9] = some st ∧
    Machine.run (pairStep (fun _ => 3) 9) st [.exchange .a (99 :: ·) (fun _ => 7),
      .exchange .b (98 :: ·) (fun _ => 7), .exchange .a (97 :: ·) (fun _ => 7)] = some st' ∧
    AllSettled st' ∧ (st' .a).names = [[102], [98, 102]] := by
  refine ⟨_, _, rfl, rfl, ?_, rfl⟩
  exact (two_device_convergence (fun _ => 3) 9 1 2 (by decide)
    [.write .a [102] (sampleHash 1) 5 5, .write .b [102] (sampleHash 2) 6 9] _ _ .a
    (99 :: ·) (98 :: ·) (97 :: ·) (fun _ => 7) (fun _ => 7) (fun _ => 7) (by decide) rfl rfl).1

end Amisync

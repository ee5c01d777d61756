import Amisync.SyncModel

/-!
# Applying a peer's record, and two devices that do so at the same time

What the worker stores for each action of the decision table, and what happens
when two devices announce their records of one name to each other and both
apply the answer before they hear again.

* `crossing_agree_iff`: the two devices agree afterwards exactly when they did
  not both adopt. They both adopt when the content is the same and either the
  vectors are equal but the metadata are not, or the vectors are concurrent and
  the times are equal; then the two records are swapped.
* `crossing_rebuilt_disagree`: one such pair, traced through both decisions.
-/

namespace Amisync

/-! ## The record after an action -/

/-- `SYNC_ADOPT`: the peer's version and metadata over our content. -/
def adoptRecord (held peer : SyncMeta) (seq : Int) : SyncMeta :=
  { held with
    version := peer.version
    modifiedS := peer.modifiedS
    modifiedNs := peer.modifiedNs
    modifiedBy := peer.modifiedBy
    permissions := peer.permissions
    sequence := seq }

/-- What a finished fetch and an applied deletion store: the peer's record
under a sequence of ours. -/
def storePeer (peer : SyncMeta) (seq : Int) : SyncMeta := { peer with sequence := seq }

/-- The doubling loop of `folder_block_size`; seven rounds reach its maximum of 16 MiB. -/
def growBlockSize (size : Int) : Nat → Int → Int
  | 0, bs => bs
  | n + 1, bs =>
    if bs < 16 * 1024 * 1024 ∧ size ≥ 2000 * bs then growBlockSize size n (2 * bs) else bs

def folderBlockSize (size : Int) : Int := growBlockSize size 7 folderBlockSizeBase

/-- The record `commit_file` builds for a file that changed on disk. -/
def localFileRecord (prev : Option BepVector) (shortId stamp : Nat) (seq : Int) (name : Name)
    (size modifiedS : Int) (hash : Hash) : SyncMeta :=
  { SyncMeta.zero name with
    size := size
    permissions := 420
    modifiedS := modifiedS
    modifiedBy := shortId
    blockSize := folderBlockSize size
    contentHash := some hash
    version := syncBumpVersion prev shortId stamp
    sequence := seq }

/-- The record `sweep_deletions` puts in the place of one whose file is gone. -/
def localTombstone (t : SyncMeta) (shortId now : Nat) (seq : Int) : SyncMeta :=
  { SyncMeta.zero t.name with
    type := t.type
    deleted := true
    permissions := t.permissions
    modifiedS := now
    modifiedBy := shortId
    version := syncBumpVersion (some t.version) shortId now
    sequence := seq }

/-- The record `conflict_preserve_local` registers for the losing copy. -/
def conflictCopy (held : SyncMeta) (cn : Name) (shortId stamp : Nat) (seq : Int) : SyncMeta :=
  { held with
    name := cn
    version := syncBumpVersion (some held.version) shortId stamp
    modifiedBy := shortId
    sequence := seq }

/-- The record of the name once the action has been carried out. -/
def applyAction (held peer : SyncMeta) (seq : Int) : SyncAction → SyncMeta
  | .ignore => held
  | .adopt => if held.deleted then held else adoptRecord held peer seq
  | .fetch | .delete | .conflict => storePeer peer seq

/-- One incoming record, decided and applied. -/
def receive (held peer : SyncMeta) (seq : Int) : SyncMeta :=
  applyAction held peer seq (syncClassifyIncoming (some held) .sendReceive peer)

/-- Both sides announce, both decide on what they held, both apply. -/
def crossing (r s : SyncMeta) (seqR seqS : Int) : SyncMeta × SyncMeta :=
  (receive r s seqR, receive s r seqS)

/-! ## The records of a pair -/

/-- A vector as a device stores it once the file has been changed: no id twice,
no counter at 0, not empty. -/
structure ProperVector (v : BepVector) : Prop where
  nonempty : v.counters ≠ []
  distinct : v.Distinct
  nonzero : ∀ c ∈ v.counters, c.value ≠ 0

instance (v : BepVector) : Decidable (ProperVector v) :=
  decidable_of_iff (v.counters ≠ [] ∧ v.Distinct ∧ ∀ c ∈ v.counters, c.value ≠ 0)
    ⟨fun ⟨h1, h2, h3⟩ => ⟨h1, h2, h3⟩, fun ⟨h1, h2, h3⟩ => ⟨h1, h2, h3⟩⟩

/-- The two records of one name. Times and permissions are arbitrary. -/
structure CrossPair (r s : SyncMeta) : Prop where
  vectorR : ProperVector r.version
  vectorS : ProperVector s.version
  hashR : r.deleted = false → r.contentHash.isSome = true
  hashS : s.deleted = false → s.contentHash.isSome = true
  size : ∀ h, r.contentHash = some h → s.contentHash = some h → r.size = s.size
  equal : vecCounter r.version = vecCounter s.version →
    r.deleted = s.deleted ∧ r.contentHash = s.contentHash

/-- What the two devices should have reached. -/
structure Agree (x y : SyncMeta) : Prop where
  deleted : x.deleted = y.deleted
  content : x.deleted = false → x.contentHash = y.contentHash ∧ x.size = y.size
  version : x.deleted = false → vecCounter x.version = vecCounter y.version
  metadata : x.deleted = false → x.modifiedS = y.modifiedS ∧ x.modifiedNs = y.modifiedNs ∧
    x.permissions = y.permissions
  quiet : syncClassifyIncoming (some x) .sendReceive y = .ignore ∧
    syncClassifyIncoming (some y) .sendReceive x = .ignore

/-- Same content, and a tie that makes both devices adopt. -/
def BothAdopt (r s : SyncMeta) : Prop :=
  r.deleted = false ∧ s.deleted = false ∧ syncContentSame r s = true ∧
    ((syncVersionCompare r.version s.version = .equal ∧
        ¬ (r.modifiedS = s.modifiedS ∧ r.modifiedNs = s.modifiedNs ∧
          r.permissions = s.permissions)) ∨
      (syncVersionCompare r.version s.version = .concurrent ∧
        r.modifiedS = s.modifiedS ∧ r.modifiedNs = s.modifiedNs))

instance (r s : SyncMeta) : Decidable (BothAdopt r s) :=
  inferInstanceAs (Decidable (_ ∧ _))

theorem CrossPair.symm {r s : SyncMeta} (h : CrossPair r s) : CrossPair s r where
  vectorR := h.vectorS
  vectorS := h.vectorR
  hashR := h.hashS
  hashS := h.hashR
  size := fun x hs hr => (h.size x hr hs).symm
  equal := fun e => ⟨(h.equal e.symm).1.symm, (h.equal e.symm).2.symm⟩

theorem Agree.symm {x y : SyncMeta} (h : Agree x y) : Agree y x where
  deleted := h.deleted.symm
  content := fun hy => ⟨(h.content (h.deleted.trans hy)).1.symm, (h.content (h.deleted.trans hy)).2.symm⟩
  version := fun hy => (h.version (h.deleted.trans hy)).symm
  metadata := fun hy =>
    have hm := h.metadata (h.deleted.trans hy)
    ⟨hm.1.symm, hm.2.1.symm, hm.2.2.symm⟩
  quiet := ⟨h.quiet.2, h.quiet.1⟩

theorem haveVectors_of_proper {r s : SyncMeta} (hr : ProperVector r.version)
    (hs : ProperVector s.version) : haveVectors r s = true := by
  simp [haveVectors, hr.nonempty, hs.nonempty]

/-- Live records of one content are the same content to the classifier. -/
theorem CrossPair.same_iff {r s : SyncMeta} (h : CrossPair r s) (hr : r.deleted = false) :
    syncContentSame r s = true ↔ r.contentHash = s.contentHash := by
  rw [syncContentSame_iff]
  constructor
  · rintro ⟨-, x, hx, hy⟩
    rw [hx, hy]
  · intro e
    obtain ⟨x, hx⟩ := Option.isSome_iff_exists.mp (h.hashR hr)
    exact ⟨h.size x hx (e ▸ hx), x, hx, e ▸ hx⟩

/-! ## Agreement is quiet -/

/-- Records that agree in everything the table reads are left alone. -/
theorem classify_ignore_of_same {x y : SyncMeta} (hx : ProperVector x.version)
    (hy : ProperVector y.version) (hd : x.deleted = y.deleted)
    (hv : y.deleted = false → vecCounter x.version = vecCounter y.version)
    (hm : y.deleted = false → x.modifiedS = y.modifiedS ∧ x.modifiedNs = y.modifiedNs ∧
      x.permissions = y.permissions) :
    syncClassifyIncoming (some x) .sendReceive y = .ignore := by
  have hhv := haveVectors_of_proper hx hy
  cases hy' : y.deleted with
  | true =>
    rw [syncClassifyIncoming_deleted (by decide) hhv hy']
    simp [hd, hy']
  | false =>
    have hc := (syncVersionCompare_equal hx.distinct hy.distinct).mpr (hv hy')
    obtain ⟨h1, h2, h3⟩ := hm hy'
    rw [syncClassifyIncoming_live (by decide) hhv hy', hc]
    simp [classifyLive, h1, h2, h3]

/-- `Agree` without its last field, which follows. -/
theorem Agree.of_fields {x y : SyncMeta} (hx : ProperVector x.version)
    (hy : ProperVector y.version) (hd : x.deleted = y.deleted)
    (hc : x.deleted = false → x.contentHash = y.contentHash ∧ x.size = y.size)
    (hv : x.deleted = false → vecCounter x.version = vecCounter y.version)
    (hm : x.deleted = false → x.modifiedS = y.modifiedS ∧ x.modifiedNs = y.modifiedNs ∧
      x.permissions = y.permissions) : Agree x y where
  deleted := hd
  content := hc
  version := hv
  metadata := hm
  quiet := by
    constructor
    · exact classify_ignore_of_same hx hy hd (fun e => hv (hd.trans e)) (fun e => hm (hd.trans e))
    · refine classify_ignore_of_same hy hx hd.symm (fun e => (hv e).symm) (fun e => ?_)
      obtain ⟨h1, h2, h3⟩ := hm e
      exact ⟨h1.symm, h2.symm, h3.symm⟩

/-- Storing the peer's record whole. -/
theorem agree_storePeer {s : SyncMeta} (hs : ProperVector s.version) (seq : Int) :
    Agree (storePeer s seq) s :=
  Agree.of_fields hs hs rfl (fun _ => ⟨rfl, rfl⟩) (fun _ => rfl) (fun _ => ⟨rfl, rfl, rfl⟩)

/-- Adopting the peer's metadata over the same content. -/
theorem agree_adoptRecord {r s : SyncMeta} (hs : ProperVector s.version)
    (hr : r.deleted = false) (hsd : s.deleted = false) (hc : syncContentSame r s = true)
    (seq : Int) : Agree (adoptRecord r s seq) s := by
  obtain ⟨hsz, x, hx, hy⟩ := (syncContentSame_iff r s).mp hc
  exact Agree.of_fields hs hs (hr.trans hsd.symm) (fun _ => ⟨hx.trans hy.symm, hsz⟩)
    (fun _ => rfl) (fun _ => ⟨rfl, rfl, rfl⟩)

/-! ## One side takes, the other keeps -/

section Pair
variable {r s : SyncMeta} (h : CrossPair r s) (seqR seqS : Int)
include h

theorem receive_live (hs : s.deleted = false) : receive r s seqR =
    applyAction r s seqR (classifyLive r s (syncVersionCompare r.version s.version)) := by
  unfold receive
  rw [syncClassifyIncoming_live (by decide) (haveVectors_of_proper h.vectorR h.vectorS) hs]

theorem receive_deleted (hs : s.deleted = true) : receive r s seqR =
    applyAction r s seqR (if r.deleted = false ∧
      syncVersionCompare r.version s.version = .theirs then .delete else .ignore) := by
  unfold receive
  rw [syncClassifyIncoming_deleted (by decide) (haveVectors_of_proper h.vectorR h.vectorS) hs]

theorem CrossPair.flip : syncVersionCompare s.version r.version =
    (syncVersionCompare r.version s.version).flip :=
  syncVersionCompare_flip h.vectorR.distinct h.vectorS.distinct

/-- A live record against a tombstone: the deletion wins only if it dominates. -/
theorem crossing_live_deleted (hr : r.deleted = false) (hs : s.deleted = true) :
    Agree (receive r s seqR) (receive s r seqS) := by
  have hf := h.flip
  rw [receive_deleted h seqR hs, receive_live h.symm seqS hr, hf]
  cases hc : syncVersionCompare r.version s.version with
  | theirs => simpa [hr, SyncVerRel.flip, classifyLive, applyAction] using agree_storePeer h.vectorS seqR
  | equal =>
    have he := h.equal ((syncVersionCompare_equal h.vectorR.distinct h.vectorS.distinct).mp hc)
    rw [hr, hs] at he
    simp at he
  | ours =>
    simpa [hs, SyncVerRel.flip, classifyLive, applyAction] using
      (agree_storePeer h.vectorR seqS).symm
  | concurrent =>
    simpa [hs, SyncVerRel.flip, classifyLive, applyAction] using
      (agree_storePeer h.vectorR seqS).symm

/-- Two live records in the order: the lower side takes the upper one. -/
theorem crossing_live_theirs (hr : r.deleted = false) (hs : s.deleted = false)
    (hc : syncVersionCompare r.version s.version = .theirs) :
    Agree (receive r s seqR) (receive s r seqS) := by
  rw [receive_live h seqR hs, receive_live h.symm seqS hr, h.flip, hc]
  by_cases hsame : syncContentSame r s = true
  · simpa [classifyLive, SyncVerRel.flip, applyAction, hr, hsame] using
      agree_adoptRecord h.vectorS hr hs hsame seqR
  · simpa [classifyLive, SyncVerRel.flip, applyAction, hr, hsame] using
      agree_storePeer h.vectorS seqR

/-- Two concurrent live records where the rule picks the peer's on our side. -/
theorem crossing_live_concurrent (hr : r.deleted = false) (hs : s.deleted = false)
    (hc : syncVersionCompare r.version s.version = .concurrent)
    (hne : syncContentSame r s = true → ¬ (r.modifiedS = s.modifiedS ∧ r.modifiedNs = s.modifiedNs))
    (htake : resolveConflict r s = .conflict) (hkeep : resolveConflict s r = .ignore) :
    Agree (receive r s seqR) (receive s r seqS) := by
  rw [receive_live h seqR hs, receive_live h.symm seqS hr, h.flip, hc]
  by_cases hsame : syncContentSame r s = true
  · have hsame' : syncContentSame s r = true := by rw [syncContentSame_comm, hsame]
    have hne' : ¬ (s.modifiedS = r.modifiedS ∧ s.modifiedNs = r.modifiedNs) :=
      fun e => hne hsame ⟨e.1.symm, e.2.symm⟩
    simp only [classifyLive, SyncVerRel.flip, applyAction, hr, hs, hsame, hsame', hne hsame, hne',
      htake, hkeep]
    simpa using agree_adoptRecord h.vectorS hr hs hsame seqR
  · have hsame' : ¬ syncContentSame s r = true := by rwa [syncContentSame_comm]
    simp only [classifyLive, SyncVerRel.flip, applyAction, hr, hs, hsame, hsame', htake, hkeep]
    simpa using agree_storePeer h.vectorS seqR

/-- Where the two are concurrent and there is no tie, exactly one side yields. -/
theorem resolveConflict_splits (hr : r.deleted = false) (hs : s.deleted = false)
    (hne : syncContentSame r s = true → ¬ (r.modifiedS = s.modifiedS ∧ r.modifiedNs = s.modifiedNs)) :
    resolveConflict r s = .conflict ↔ resolveConflict s r = .ignore := by
  by_cases hsame : syncContentSame r s = true
  · exact resolveConflict_swap_time (hne hsame)
  · obtain ⟨a, ha⟩ := Option.isSome_iff_exists.mp (h.hashR hr)
    obtain ⟨b, hb⟩ := Option.isSome_iff_exists.mp (h.hashS hs)
    refine resolveConflict_swap ha hb fun e => hsame ((h.same_iff hr).mpr ?_)
    rw [ha, hb, e]

theorem crossing_live_live (hr : r.deleted = false) (hs : s.deleted = false)
    (hn : ¬ BothAdopt r s) : Agree (receive r s seqR) (receive s r seqS) := by
  cases hc : syncVersionCompare r.version s.version with
  | theirs => exact crossing_live_theirs h seqR seqS hr hs hc
  | ours =>
    have hc' : syncVersionCompare s.version r.version = .theirs := by rw [h.flip, hc]; rfl
    exact (crossing_live_theirs h.symm seqS seqR hs hr hc').symm
  | equal =>
    have hv := (syncVersionCompare_equal h.vectorR.distinct h.vectorS.distinct).mp hc
    have hsame := (h.same_iff hr).mpr (h.equal hv).2
    have hm : r.modifiedS = s.modifiedS ∧ r.modifiedNs = s.modifiedNs ∧
        r.permissions = s.permissions := by
      by_contra hne
      exact hn ⟨hr, hs, hsame, Or.inl ⟨hc, hne⟩⟩
    obtain ⟨hsz, -⟩ := (syncContentSame_iff r s).mp hsame
    have hag : Agree r s := Agree.of_fields h.vectorR h.vectorS (hr.trans hs.symm)
      (fun _ => ⟨(h.equal hv).2, hsz⟩) (fun _ => hv) (fun _ => hm)
    have hr' : receive r s seqR = r := by
      unfold receive
      rw [hag.quiet.1]
      rfl
    have hs' : receive s r seqS = s := by
      unfold receive
      rw [hag.quiet.2]
      rfl
    rw [hr', hs']
    exact hag
  | concurrent =>
    have hne : syncContentSame r s = true →
        ¬ (r.modifiedS = s.modifiedS ∧ r.modifiedNs = s.modifiedNs) :=
      fun hsame e => hn ⟨hr, hs, hsame, Or.inr ⟨hc, e⟩⟩
    have hsplit := resolveConflict_splits h hr hs hne
    rcases resolveConflict_cases r s with ht | ht
    · exact crossing_live_concurrent h seqR seqS hr hs hc hne ht (hsplit.mp ht)
    · have hc' : syncVersionCompare s.version r.version = .concurrent := by rw [h.flip, hc]; rfl
      have ht' : resolveConflict s r = .conflict := by
        rcases resolveConflict_cases s r with h' | h'
        · exact h'
        · rw [hsplit.mpr h'] at ht
          simp at ht
      refine (crossing_live_concurrent h.symm seqS seqR hs hr hc' (fun hsame e => ?_) ht' ht).symm
      rw [syncContentSame_comm] at hsame
      exact hne hsame ⟨e.1.symm, e.2.symm⟩

theorem crossing_agree (hn : ¬ BothAdopt r s) :
    Agree (crossing r s seqR seqS).1 (crossing r s seqR seqS).2 := by
  cases hr : r.deleted with
  | false =>
    cases hs : s.deleted with
    | false => exact crossing_live_live h seqR seqS hr hs hn
    | true => exact crossing_live_deleted h seqR seqS hr hs
  | true =>
    cases hs : s.deleted with
    | false => exact (crossing_live_deleted h.symm seqS seqR hs hr).symm
    | true =>
      have hr' : receive r s seqR = r := by
        rw [receive_deleted h seqR hs]
        simp [hr, applyAction]
      have hs' : receive s r seqS = s := by
        rw [receive_deleted h.symm seqS hr]
        simp [hs, applyAction]
      unfold crossing
      rw [hr', hs']
      exact Agree.of_fields h.vectorR h.vectorS (hr.trans hs.symm) (by simp [hr]) (by simp [hr])
        (by simp [hr])

/-- The tie is the same from both sides. -/
theorem BothAdopt.symm (hb : BothAdopt r s) : BothAdopt s r := by
  obtain ⟨hr, hs, hsame, hcase⟩ := hb
  refine ⟨hs, hr, by rw [syncContentSame_comm, hsame], ?_⟩
  rw [h.flip]
  rcases hcase with ⟨hc, hm⟩ | ⟨hc, h1, h2⟩
  · exact Or.inl ⟨by rw [hc]; rfl, fun e => hm ⟨e.1.symm, e.2.1.symm, e.2.2.symm⟩⟩
  · exact Or.inr ⟨by rw [hc]; rfl, h1.symm, h2.symm⟩

theorem classify_of_bothAdopt (hb : BothAdopt r s) :
    syncClassifyIncoming (some r) .sendReceive s = .adopt := by
  obtain ⟨hr, hs, hsame, hcase⟩ := hb
  rw [syncClassifyIncoming_live (by decide) (haveVectors_of_proper h.vectorR h.vectorS) hs]
  rcases hcase with ⟨hc, hm⟩ | ⟨hc, h1, h2⟩
  · have hm' : (r.modifiedS != s.modifiedS || r.modifiedNs != s.modifiedNs ||
        r.permissions != s.permissions) = true := by
      simp only [Bool.or_eq_true, bne_iff_ne, ne_eq]
      tauto
    simp [hc, classifyLive, hr, hsame, hm']
  · simp [hc, classifyLive, hr, hsame, h1, h2]

/-- In a tie both sides adopt, and so trade places. -/
theorem crossing_swap (hb : BothAdopt r s) :
    crossing r s seqR seqS = (adoptRecord r s seqR, adoptRecord s r seqS) := by
  have hr : r.deleted = false := hb.1
  have hs : s.deleted = false := hb.2.1
  simp [crossing, receive, classify_of_bothAdopt h hb,
    classify_of_bothAdopt h.symm (BothAdopt.symm h hb), applyAction, hr, hs]

/-- Two records that leave each other alone agree. -/
theorem agree_of_ignore (hr : syncClassifyIncoming (some r) .sendReceive s = .ignore)
    (hs : syncClassifyIncoming (some s) .sendReceive r = .ignore) : Agree r s := by
  have hn : ¬ BothAdopt r s := by
    intro hb
    rw [classify_of_bothAdopt h hb] at hr
    simp at hr
  simpa [crossing, receive, hr, hs, applyAction] using crossing_agree h 0 0 hn

/-- **Crossing exchange.** The two devices agree afterwards unless they were in a tie. -/
theorem crossing_agree_iff :
    Agree (crossing r s seqR seqS).1 (crossing r s seqR seqS).2 ↔ ¬ BothAdopt r s := by
  constructor
  · intro hag hb
    rw [crossing_swap h seqR seqS hb] at hag
    obtain ⟨hr, hs, hsame, ⟨hc, hm⟩ | ⟨hc, -⟩⟩ := hb
    · obtain ⟨h1, h2, h3⟩ := hag.metadata hr
      exact hm ⟨h1.symm, h2.symm, h3.symm⟩
    · have hv : vecCounter s.version = vecCounter r.version := hag.version hr
      have he := (syncVersionCompare_equal h.vectorR.distinct h.vectorS.distinct).mpr hv.symm
      rw [hc] at he
      simp at he
  · exact crossing_agree h seqR seqS

end Pair

/-- The record a device writes when it rebuilds its index from disk: one fresh counter. -/
def rebuiltRecord (id value : Nat) : SyncMeta :=
  { SyncMeta.zero [102] with
    size := 3
    modifiedS := 1000
    permissions := 420
    version := BepVector.single id value
    contentHash := some (sampleHash 7) }

theorem crossPair_rebuilt : CrossPair (rebuiltRecord 1 5) (rebuiltRecord 2 7) where
  vectorR := by decide
  vectorS := by decide
  hashR := fun _ => rfl
  hashS := fun _ => rfl
  size := fun _ _ _ => rfl
  equal := fun _ => ⟨rfl, rfl⟩

/-- Two rebuilt indexes over one file: the devices trade versions and still differ. -/
theorem crossing_rebuilt_disagree : CrossPair (rebuiltRecord 1 5) (rebuiltRecord 2 7) ∧
    ¬ Agree (crossing (rebuiltRecord 1 5) (rebuiltRecord 2 7) 1 1).1
      (crossing (rebuiltRecord 1 5) (rebuiltRecord 2 7) 1 1).2 := by
  refine ⟨crossPair_rebuilt, fun hag => ?_⟩
  have hv := congrFun (hag.version (by decide)) 1
  revert hv
  decide

/-- The same file where the second device has also seen the first one's version. -/
def seenRecord : SyncMeta :=
  { rebuiltRecord 2 7 with
    version := ⟨[⟨1, 5⟩, ⟨2, 7⟩], by decide⟩
    modifiedS := 2000
    contentHash := some (sampleHash 8) }

theorem crossPair_seen : CrossPair (rebuiltRecord 1 5) seenRecord where
  vectorR := by decide
  vectorS := by decide
  hashR := fun _ => rfl
  hashS := fun _ => rfl
  size := fun _ _ _ => rfl
  equal := by
    intro e
    have h2 := congrFun e 2
    revert h2
    decide

theorem crossing_seen_agree : CrossPair (rebuiltRecord 1 5) seenRecord ∧
    Agree (crossing (rebuiltRecord 1 5) seenRecord 1 1).1
      (crossing (rebuiltRecord 1 5) seenRecord 1 1).2 :=
  ⟨crossPair_seen, (crossing_agree_iff crossPair_seen 1 1).mpr (by decide)⟩

end Amisync

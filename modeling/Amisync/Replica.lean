import Amisync.Exchange
import Amisync.Lib.KeyedList
import Amisync.Lib.Machine

/-!
# Two devices that edit and exchange

Two devices edit, delete and exchange whole indexes one way at a time, in any
order. The model is the one the repository's own randomised test drives, with
the decisions of `syncmodel.c` and the records the daemon builds.

* `applyOne_cases`: one received record is ignored, taken over, or taken over
  after our copy was kept under its conflict name.
* `exchange_outcome`: what a whole exchange does to one name, decided on what
  the receiver held before it.
-/

namespace Amisync

/-! ## Devices -/

inductive Side where
  | a
  | b
  deriving DecidableEq, Repr

def Side.other : Side → Side
  | .a => .b
  | .b => .a

@[simp] theorem Side.other_other (s : Side) : s.other.other = s := by cases s <;> rfl

theorem Side.other_ne (s : Side) : s.other ≠ s := by cases s <;> decide

theorem Side.eq_or_eq_other (s t : Side) : t = s ∨ t = s.other := by
  cases s <;> cases t <;> decide

structure Device where
  id : Nat
  seq : Int
  files : List SyncMeta
  deriving DecidableEq

namespace Device

def find (d : Device) (n : Name) : Option SyncMeta := Keyed.lookup SyncMeta.name n d.files

def names (d : Device) : List Name := d.files.map SyncMeta.name

/-- Store a record that took the next sequence. -/
def put (d : Device) (m : SyncMeta) : Device :=
  { d with seq := d.seq + 1, files := Keyed.upsert SyncMeta.name m d.files }

/-- A local create or edit, found by the scanner. -/
def localWrite (d : Device) (n : Name) (size modifiedS : Int) (hash : Hash) (clock : Nat) : Device :=
  d.put (localFileRecord ((d.find n).map SyncMeta.version) d.id clock (d.seq + 1) n size
    modifiedS hash)

/-- A local deletion; nothing happens where nothing is live. -/
def localDelete (d : Device) (n : Name) (clock : Nat) : Device :=
  match d.find n with
  | some r => if r.deleted then d else d.put (localTombstone r d.id clock (d.seq + 1))
  | none => d

/-- Keep the losing copy under its conflict name. -/
def preserveLocal (d : Device) (n cn : Name) (clock : Nat) : Device :=
  match d.find n with
  | some h => if h.deleted then d else d.put (conflictCopy h cn d.id clock (d.seq + 1))
  | none => d

def adopt (d : Device) (peer : SyncMeta) : Device :=
  match d.find peer.name with
  | some h => if h.deleted then d else d.put (adoptRecord h peer (d.seq + 1))
  | none => d

/-- One record of the peer, classified and applied. -/
def applyOne (cn : Name → Name) (clock : Name → Nat) (d : Device) (peer : SyncMeta) : Device :=
  match syncClassifyIncoming (d.find peer.name) .sendReceive peer with
  | .ignore => d
  | .adopt => d.adopt peer
  | .fetch | .delete => d.put (storePeer peer (d.seq + 1))
  | .conflict =>
    let d' := d.preserveLocal peer.name (cn peer.name) (clock peer.name)
    d'.put (storePeer peer (d'.seq + 1))

/-- The sender's whole index, record by record. -/
def exchange (cn : Name → Name) (clock : Name → Nat) (src dst : Device) : Device :=
  src.files.foldl (applyOne cn clock) dst

end Device

/-! ## Runs -/

abbrev DevicePair := Side → Device

inductive Op where
  | write (s : Side) (n : Name) (hash : Hash) (modifiedS : Int) (clock : Nat)
  | delete (s : Side) (n : Name) (clock : Nat)
  | exchange (src : Side) (cn : Name → Name) (clock : Name → Nat)

/-- Conflict names are fresh: on neither device, and no two alike. -/
def FreshNames (cn : Name → Name) (src dst : Device) : Prop :=
  ∀ n ∈ src.names, cn n ∉ src.names ∧ cn n ∉ dst.names ∧
    ∀ m ∈ src.names, cn m = cn n → m = n

instance (cn : Name → Name) (src dst : Device) : Decidable (FreshNames cn src dst) :=
  inferInstanceAs (Decidable (∀ n ∈ src.names, _ ∧ _ ∧ ∀ m ∈ src.names, _ → _))

/-- Clock values lie between 1 and `K`. -/
def Op.Ok (K : Nat) (st : DevicePair) : Op → Prop
  | .write _ _ _ _ clock => 1 ≤ clock ∧ clock ≤ K
  | .delete _ _ clock => 1 ≤ clock ∧ clock ≤ K
  | .exchange src cn clock => FreshNames cn (st src) (st src.other) ∧
      ∀ n ∈ (st src).names, 1 ≤ clock n ∧ clock n ≤ K

instance (K : Nat) (st : DevicePair) : (op : Op) → Decidable (op.Ok K st)
  | .write _ _ _ _ _ => inferInstanceAs (Decidable (_ ∧ _))
  | .delete _ _ _ => inferInstanceAs (Decidable (_ ∧ _))
  | .exchange src _ _ => inferInstanceAs (Decidable (_ ∧ ∀ n ∈ (st src).names, _ ∧ _))

/-- `sz` is the size of the content a hash stands for. -/
def Op.apply (sz : Hash → Int) (st : DevicePair) : Op → DevicePair
  | .write s n hash modifiedS clock =>
    Function.update st s ((st s).localWrite n (sz hash) modifiedS hash clock)
  | .delete s n clock => Function.update st s ((st s).localDelete n clock)
  | .exchange src cn clock =>
    Function.update st src.other (Device.exchange cn clock (st src) (st src.other))

def pairStep (sz : Hash → Int) (K : Nat) (st : DevicePair) (op : Op) : Option DevicePair :=
  if op.Ok K st then some (op.apply sz st) else none

def emptyPair (idA idB : Nat) : DevicePair
  | .a => ⟨idA, 0, []⟩
  | .b => ⟨idB, 0, []⟩

/-- Two records that say the same, whatever their vectors are. -/
structure SameRecord (r s : SyncMeta) : Prop where
  deleted : r.deleted = s.deleted
  hash : r.contentHash = s.contentHash
  size : r.size = s.size
  modifiedS : r.modifiedS = s.modifiedS
  modifiedNs : r.modifiedNs = s.modifiedNs
  permissions : r.permissions = s.permissions

/-- `m` is `r` taken over, under a sequence of our own. -/
structure Mirrors (m r : SyncMeta) : Prop where
  name : m.name = r.name
  version : m.version = r.version
  same : SameRecord m r

/-! ## What one received record does -/

namespace Device

@[simp] theorem find_put (d : Device) (m : SyncMeta) (k : Name) :
    (d.put m).find k = if k = m.name then some m else d.find k :=
  Keyed.lookup_upsert k m d.files

@[simp] theorem put_id (d : Device) (m : SyncMeta) : (d.put m).id = d.id := rfl

theorem name_of_find {d : Device} {n : Name} {r : SyncMeta} (h : d.find n = some r) :
    r.name = n := Keyed.key_of_lookup h

theorem mem_names_iff {d : Device} {n : Name} : n ∈ d.names ↔ d.find n ≠ none := by
  unfold names find
  rw [ne_eq, Keyed.lookup_eq_none_iff, not_not]

theorem find_none_of_not_mem {d : Device} {n : Name} (h : n ∉ d.names) : d.find n = none :=
  Keyed.lookup_eq_none_iff.mpr h

theorem mirrors_storePeer (peer : SyncMeta) (seq : Int) : Mirrors (storePeer peer seq) peer :=
  ⟨rfl, rfl, ⟨rfl, rfl, rfl, rfl, rfl, rfl⟩⟩

/-- The table says adopt only for a live record of the same content. -/
theorem classify_adopt {h peer : SyncMeta}
    (hc : syncClassifyIncoming (some h) .sendReceive peer = .adopt) :
    h.deleted = false ∧ peer.deleted = false ∧ syncContentSame h peer = true := by
  unfold syncClassifyIncoming at hc
  cases hp : peer.deleted with
  | true =>
    simp only [hp, reduceCtorEq, ↓reduceIte] at hc
    repeat' split at hc
    all_goals simp at hc
  | false =>
    cases hd : h.deleted with
    | true =>
      simp only [hp, hd, reduceCtorEq, ↓reduceIte, Bool.not_true, Bool.false_and,
        Bool.false_eq_true] at hc
      split at hc
      · cases hr : syncVersionCompare h.version peer.version <;>
          simp [hr, classifyLive, hd] at hc
      · split at hc <;> simp at hc
    | false =>
      refine ⟨rfl, rfl, ?_⟩
      by_contra hs
      simp only [hp, hd, hs, reduceCtorEq, ↓reduceIte, Bool.not_false, Bool.true_and,
        Bool.false_eq_true] at hc
      split at hc
      · cases hr : syncVersionCompare h.version peer.version with
        | concurrent =>
          rcases resolveConflict_cases h peer with h' | h' <;>
            simp [hr, classifyLive, hd, hs, h'] at hc
        | _ => simp [hr, classifyLive, hs] at hc
      · split at hc <;> simp at hc

/-- The table says conflict only between two live records. -/
theorem classify_conflict {x : Option SyncMeta} {peer : SyncMeta}
    (hc : syncClassifyIncoming x .sendReceive peer = .conflict) :
    ∃ h, x = some h ∧ h.deleted = false := by
  cases x with
  | none =>
    unfold syncClassifyIncoming at hc
    simp only [reduceCtorEq, ↓reduceIte] at hc
    split at hc <;> simp at hc
  | some h =>
    refine ⟨h, rfl, ?_⟩
    cases hd : h.deleted with
    | false => rfl
    | true =>
      unfold syncClassifyIncoming at hc
      simp only [hd, reduceCtorEq, ↓reduceIte, Bool.not_true, Bool.false_and] at hc
      split at hc
      · simp at hc
      · split at hc
        · cases hr : syncVersionCompare h.version peer.version <;>
            simp [hr, classifyLive, hd] at hc
        · split at hc <;> simp at hc

/-- **One record.** It is ignored, or taken over, or taken over after our copy was put
under its conflict name. -/
theorem applyOne_cases (cn : Name → Name) (clock : Name → Nat) (d : Device) (peer : SyncMeta) :
    (syncClassifyIncoming (d.find peer.name) .sendReceive peer = .ignore ∧
        applyOne cn clock d peer = d) ∨
    (syncClassifyIncoming (d.find peer.name) .sendReceive peer ≠ .ignore ∧
        ∃ m, Mirrors m peer ∧ applyOne cn clock d peer = d.put m) ∨
    (syncClassifyIncoming (d.find peer.name) .sendReceive peer = .conflict ∧
        ∃ h m seq, d.find peer.name = some h ∧ Mirrors m peer ∧ applyOne cn clock d peer =
          (d.put (conflictCopy h (cn peer.name) d.id (clock peer.name) seq)).put m) := by
  unfold applyOne
  cases hc : syncClassifyIncoming (d.find peer.name) .sendReceive peer with
  | ignore => exact Or.inl ⟨rfl, rfl⟩
  | fetch => exact Or.inr (Or.inl ⟨by simp, _, mirrors_storePeer peer _, rfl⟩)
  | delete => exact Or.inr (Or.inl ⟨by simp, _, mirrors_storePeer peer _, rfl⟩)
  | adopt =>
    refine Or.inr (Or.inl ⟨by simp, ?_⟩)
    cases hf : d.find peer.name with
    | none =>
      rw [hf] at hc
      cases hp : peer.deleted <;> simp [syncClassifyIncoming, hp] at hc
    | some h =>
      rw [hf] at hc
      obtain ⟨hd, hp, hs⟩ := classify_adopt hc
      obtain ⟨hsz, x, hx, hy⟩ := (syncContentSame_iff h peer).mp hs
      have hname : h.name = peer.name := name_of_find hf
      refine ⟨adoptRecord h peer (d.seq + 1), ⟨hname, rfl, ?_⟩, by simp [adopt, hf, hd]⟩
      exact ⟨hd.trans hp.symm, hx.trans hy.symm, hsz, rfl, rfl, rfl⟩
  | conflict =>
    obtain ⟨h, hf, hd⟩ := classify_conflict hc
    refine Or.inr (Or.inr ⟨rfl, h, storePeer peer (d.seq + 1 + 1), d.seq + 1, hf,
      mirrors_storePeer peer _, ?_⟩)
    simp only [preserveLocal, hf, hd, Bool.false_eq_true, ↓reduceIte]
    rfl

/-- Away from the record's own name and its conflict name nothing changes. -/
theorem find_applyOne_other {cn : Name → Name} {clock : Name → Nat} {d : Device}
    {peer : SyncMeta} {k : Name} (hk : k ≠ peer.name) (hcn : k ≠ cn peer.name) :
    (applyOne cn clock d peer).find k = d.find k := by
  rcases applyOne_cases cn clock d peer with ⟨-, h⟩ | ⟨-, m, hm, h⟩ | ⟨-, x, m, seq, -, hm, h⟩
  · rw [h]
  · rw [h, find_put, hm.name, if_neg hk]
  · rw [h, find_put, hm.name, if_neg hk, find_put, if_neg (by exact hcn)]

@[simp] theorem applyOne_id (cn : Name → Name) (clock : Name → Nat) (d : Device)
    (peer : SyncMeta) : (applyOne cn clock d peer).id = d.id := by
  rcases applyOne_cases cn clock d peer with ⟨-, h⟩ | ⟨-, m, hm, h⟩ | ⟨-, x, m, seq, -, hm, h⟩ <;>
    simp [h]

theorem nodup_put {d : Device} (m : SyncMeta) (h : Keyed.NodupKeys SyncMeta.name d.files) :
    Keyed.NodupKeys SyncMeta.name (d.put m).files := Keyed.nodupKeys_upsert m h

theorem nodup_applyOne {cn : Name → Name} {clock : Name → Nat} {d : Device} {peer : SyncMeta}
    (hn : Keyed.NodupKeys SyncMeta.name d.files) :
    Keyed.NodupKeys SyncMeta.name (applyOne cn clock d peer).files := by
  rcases applyOne_cases cn clock d peer with ⟨-, h⟩ | ⟨-, m, hm, h⟩ | ⟨-, x, m, seq, -, hm, h⟩
  · rwa [h]
  · rw [h]
    exact nodup_put m hn
  · rw [h]
    exact nodup_put m (nodup_put _ hn)

theorem foldl_applyOne_id (cn : Name → Name) (clock : Name → Nat) (rs : List SyncMeta) (d : Device) :
    (rs.foldl (applyOne cn clock) d).id = d.id := by
  induction rs generalizing d with
  | nil => rfl
  | cons r rs ih => rw [List.foldl_cons, ih, applyOne_id]

theorem nodup_foldl_applyOne {cn : Name → Name} {clock : Name → Nat} (rs : List SyncMeta)
    {d : Device} (hn : Keyed.NodupKeys SyncMeta.name d.files) :
    Keyed.NodupKeys SyncMeta.name (rs.foldl (applyOne cn clock) d).files := by
  induction rs generalizing d with
  | nil => exact hn
  | cons r rs ih => exact ih (nodup_applyOne hn)

theorem exchange_id (cn : Name → Name) (clock : Name → Nat) (src dst : Device) :
    (exchange cn clock src dst).id = dst.id := foldl_applyOne_id cn clock src.files dst

theorem nodup_exchange {cn : Name → Name} {clock : Name → Nat} {src dst : Device}
    (hn : Keyed.NodupKeys SyncMeta.name dst.files) :
    Keyed.NodupKeys SyncMeta.name (exchange cn clock src dst).files :=
  nodup_foldl_applyOne src.files hn

/-! ## What a whole exchange does to one name -/

/-- The three things that can happen to a name: nothing, the sender's record, a new copy. -/
inductive NameOutcome (cn : Name → Name) (clock : Name → Nat) (src : Name → Option SyncMeta)
    (dst : Device) (k : Name) (after : Option SyncMeta) : Prop
  | kept (hs : ∀ r, src k = some r →
      syncClassifyIncoming (dst.find k) .sendReceive r = .ignore) (h : after = dst.find k)
  | taken (r m : SyncMeta) (hs : src k = some r)
      (hc : syncClassifyIncoming (dst.find k) .sendReceive r ≠ .ignore) (hm : Mirrors m r)
      (h : after = some m)
  | copied (n : Name) (r held : SyncMeta) (seq : Int) (hs : src n = some r) (hk : k = cn n)
      (hheld : dst.find n = some held)
      (hc : syncClassifyIncoming (some held) .sendReceive r = .conflict)
      (h : after = some (conflictCopy held k dst.id (clock n) seq))

/-- Folding over records whose names avoid `k` leaves `k` alone. -/
theorem find_foldl_other {cn : Name → Name} {clock : Name → Nat} {rs : List SyncMeta}
    {d : Device} {k : Name} (hk : ∀ r ∈ rs, k ≠ r.name ∧ k ≠ cn r.name) :
    (rs.foldl (applyOne cn clock) d).find k = d.find k := by
  induction rs generalizing d with
  | nil => rfl
  | cons r rs ih =>
    rw [List.foldl_cons, ih (fun x hx => hk x (List.mem_cons_of_mem _ hx))]
    obtain ⟨h1, h2⟩ := hk r List.mem_cons_self
    exact find_applyOne_other h1 h2

/-- The outcome at the name of the record being applied. -/
theorem find_applyOne_self (cn : Name → Name) (clock : Name → Nat) (d : Device)
    (peer : SyncMeta) :
    (syncClassifyIncoming (d.find peer.name) .sendReceive peer = .ignore ∧
      (applyOne cn clock d peer).find peer.name = d.find peer.name) ∨
    (syncClassifyIncoming (d.find peer.name) .sendReceive peer ≠ .ignore ∧
      ∃ m, Mirrors m peer ∧ (applyOne cn clock d peer).find peer.name = some m) := by
  rcases applyOne_cases cn clock d peer with ⟨hc, h⟩ | ⟨hc, m, hm, h⟩ | ⟨hc, x, m, seq, -, hm, h⟩
  · exact Or.inl ⟨hc, by rw [h]⟩
  · exact Or.inr ⟨hc, m, hm, by rw [h, find_put, hm.name, if_pos rfl]⟩
  · exact Or.inr ⟨by rw [hc]; simp, m, hm, by rw [h, find_put, hm.name, if_pos rfl]⟩

/-- The outcome at the conflict name of the record being applied. -/
theorem find_applyOne_copy {cn : Name → Name} (clock : Name → Nat) (d : Device)
    {peer : SyncMeta} (hne : cn peer.name ≠ peer.name) :
    (applyOne cn clock d peer).find (cn peer.name) = d.find (cn peer.name) ∨
    ∃ held seq, d.find peer.name = some held ∧
      syncClassifyIncoming (some held) .sendReceive peer = .conflict ∧
      (applyOne cn clock d peer).find (cn peer.name) =
        some (conflictCopy held (cn peer.name) d.id (clock peer.name) seq) := by
  rcases applyOne_cases cn clock d peer with ⟨hc, h⟩ | ⟨hc, m, hm, h⟩ | ⟨hc, x, m, seq, hx, hm, h⟩
  · exact Or.inl (by rw [h])
  · exact Or.inl (by rw [h, find_put, hm.name, if_neg hne])
  · refine Or.inr ⟨x, seq, hx, by rw [← hx]; exact hc, ?_⟩
    rw [h, find_put, hm.name, if_neg hne, find_put, if_pos]
    rfl

section Outcome
variable {cn : Name → Name} (clock : Name → Nat) {src dst : Device}
  (hn : Keyed.NodupKeys SyncMeta.name src.files) (hf : FreshNames cn src dst)
include hn hf

/-- A name of the sender: its record is decided on what we held before the exchange. -/
theorem outcome_of_src {k : Name} {r : SyncMeta} (hr : src.find k = some r) :
    NameOutcome cn clock src.find dst k ((exchange cn clock src dst).find k) := by
  have hk : r.name = k := name_of_find hr
  subst hk
  obtain ⟨pre, post, hsplit⟩ := List.append_of_mem (Keyed.mem_of_lookup hr)
  have hmem : ∀ x ∈ src.files, x.name ∈ src.names := fun x hx => List.mem_map_of_mem hx
  have hkn : r.name ∈ src.names := hmem r (Keyed.mem_of_lookup hr)
  have hnd : (src.files.map SyncMeta.name).Nodup := hn
  rw [hsplit, List.map_append, List.map_cons, List.nodup_append] at hnd
  obtain ⟨-, hpost, hdis⟩ := hnd
  have hcn : ∀ x ∈ src.files, r.name ≠ cn x.name := fun x hx e =>
    (hf x.name (hmem x hx)).1 (e ▸ hkn)
  have hpre' : ∀ x ∈ pre, r.name ≠ x.name ∧ r.name ≠ cn x.name := by
    intro x hx
    refine ⟨fun e => hdis x.name (List.mem_map_of_mem hx) r.name (by simp) e.symm, ?_⟩
    exact hcn x (by rw [hsplit]; exact List.mem_append_left _ hx)
  have hpost' : ∀ x ∈ post, r.name ≠ x.name ∧ r.name ≠ cn x.name := by
    intro x hx
    refine ⟨fun e => (List.nodup_cons.mp hpost).1 (e ▸ List.mem_map_of_mem hx), ?_⟩
    exact hcn x (by rw [hsplit]; exact List.mem_append_right _ (List.mem_cons_of_mem _ hx))
  have hbefore : (pre.foldl (applyOne cn clock) dst).find r.name = dst.find r.name :=
    find_foldl_other hpre'
  unfold exchange
  rw [hsplit, List.foldl_append, List.foldl_cons, find_foldl_other hpost']
  rcases find_applyOne_self cn clock (pre.foldl (applyOne cn clock) dst) r with
    ⟨hc, h⟩ | ⟨hc, m, hm, h⟩
  · rw [hbefore] at hc h
    refine .kept (fun x hx => ?_) h
    rw [hr, Option.some.injEq] at hx
    exact hx ▸ hc
  · rw [hbefore] at hc
    exact .taken r m hr hc hm h

/-- A name the sender does not have: untouched, or the conflict name of one record. -/
theorem outcome_of_not_src {k : Name} (hr : src.find k = none) :
    NameOutcome cn clock src.find dst k ((exchange cn clock src dst).find k) := by
  have hmem : ∀ x ∈ src.files, x.name ∈ src.names := fun x hx => List.mem_map_of_mem hx
  have hks : ∀ x ∈ src.files, k ≠ x.name := by
    intro x hx e
    exact Keyed.lookup_eq_none_iff.mp hr (e ▸ hmem x hx)
  by_cases hex : ∃ x ∈ src.files, k = cn x.name
  · obtain ⟨r, hr', rfl⟩ := hex
    obtain ⟨hfs, hfd, hinj⟩ := hf r.name (hmem r hr')
    obtain ⟨pre, post, hsplit⟩ := List.append_of_mem hr'
    have hnd : (src.files.map SyncMeta.name).Nodup := hn
    rw [hsplit, List.map_append, List.map_cons, List.nodup_append] at hnd
    obtain ⟨-, hpost, hdis⟩ := hnd
    have hpre' : ∀ x ∈ pre, cn r.name ≠ x.name ∧ cn r.name ≠ cn x.name := by
      intro x hx
      have hxs : x ∈ src.files := by rw [hsplit]; exact List.mem_append_left _ hx
      refine ⟨hks x hxs, fun e => ?_⟩
      exact hdis x.name (List.mem_map_of_mem hx) r.name (by simp) (hinj x.name (hmem x hxs) e.symm)
    have hpost' : ∀ x ∈ post, cn r.name ≠ x.name ∧ cn r.name ≠ cn x.name := by
      intro x hx
      have hxs : x ∈ src.files := by
        rw [hsplit]; exact List.mem_append_right _ (List.mem_cons_of_mem _ hx)
      refine ⟨hks x hxs, fun e => ?_⟩
      have he := hinj x.name (hmem x hxs) e.symm
      exact (List.nodup_cons.mp hpost).1 (he ▸ List.mem_map_of_mem hx)
    have hself : ∀ x ∈ pre, r.name ≠ x.name ∧ r.name ≠ cn x.name := by
      intro x hx
      have hxs : x ∈ src.files := by rw [hsplit]; exact List.mem_append_left _ hx
      refine ⟨fun e => hdis x.name (List.mem_map_of_mem hx) r.name (by simp) e.symm, fun e => ?_⟩
      exact (hf x.name (hmem x hxs)).1 (e ▸ hmem r hr')
    unfold exchange
    rw [hsplit, List.foldl_append, List.foldl_cons, find_foldl_other hpost']
    rcases find_applyOne_copy clock (pre.foldl (applyOne cn clock) dst) (hks r hr') with h | ⟨held, seq, hheld, hc, h⟩
    · rw [h, find_foldl_other hpre']
      refine .kept (fun x hx => ?_) rfl
      rw [hr] at hx
      simp at hx
    · rw [find_foldl_other hself] at hheld
      rw [foldl_applyOne_id] at h
      exact .copied r.name r held seq (Keyed.lookup_of_mem hn hr') rfl hheld hc h
  · have hk : ∀ x ∈ src.files, k ≠ x.name ∧ k ≠ cn x.name :=
      fun x hx => ⟨hks x hx, fun e => hex ⟨x, hx, e⟩⟩
    refine .kept (fun x hx => ?_) (find_foldl_other hk)
    rw [hr] at hx
    simp at hx

/-- **Exchange lemma.** Every name has one of the three outcomes. -/
theorem exchange_outcome (k : Name) :
    NameOutcome cn clock src.find dst k ((exchange cn clock src dst).find k) := by
  cases hr : src.find k with
  | none => exact outcome_of_not_src clock hn hf hr
  | some r => exact outcome_of_src clock hn hf hr

end Outcome

end Device

end Amisync

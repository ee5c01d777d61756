import Mathlib.Data.Nat.ModEq
import Amisync.Listener
import Amisync.PeerCalls

/-!
# What holds of the inbound connections

* `Placed`: each slot has one worker at most, with a block of its own.
* `Sockets`: each accepted socket is in the table, with a worker or closed.
* `Published`: what a peer's entry points to is the block of a worker that has not replied.
* `Ledger`: the bytes of all sessions with a peer are in its entry or in a block.
* `Handle`: what the daemon knows of the listener's process.
* `inv_reapOne`, `inv_drainInboundLocked`, `inv_handoff`: the listener keeps them.
* `inv_advance`: so does each step of a worker.
-/

namespace Amisync.Listener

open Ctype ConfigFile Peer

/-! ## What holds -/

namespace State

/-- All that have a block. -/
def workers (s : State) : List InboundWorker := s.running ++ s.port

end State

def placed (w : InboundWorker) : Nat × Nat := (w.slot, w.block)

structure Placed (s : State) : Prop where
  length : s.slots.length = listenMaxInbound
  pool : Pool s.slots (s.workers.map placed)
  blocks : (s.workers.map InboundWorker.block).Nodup
  below : ∀ w ∈ s.workers, w.block < s.nextBlock

/-- `lost` is what is left in the table for good. -/
structure Sockets (s : State) : Prop where
  each : (s.table ++ s.running.filterMap InboundWorker.sock ++ s.closed).Perm (List.range s.accepted)
  table : s.table.Perm
    ((s.running.filter fun w => w.stage = .started).map InboundWorker.socketId ++ s.lost)
  started : ∀ w ∈ s.running, w.stage = .started → w.sock = none
  closed : ∀ w ∈ s.running, w.stage = .closed → w.sock = none

/-- The entry points to the worker from `publish` until `withdraw`. -/
def Holding (t : Stage) : Prop := t = .session ∨ t = .done ∨ t = .owed

structure Published (s : State) : Prop where
  live : ∀ (j b : Nat) (p : SharedPeer), s.peers[j]? = some p → p.inboundSt = some b →
    ∃ w ∈ s.running, w.block = b ∧ w.peerCfg = some j ∧ Holding w.stage
  listed : ∀ w ∈ s.workers, ∀ j, w.peerCfg = some j →
    ∃ p, s.peers[j]? = some p ∧ deviceIdEqual w.peerActualId p.id = true

/-- What the blocks of the sessions with peer `j` hold. -/
def owing (f : InboundWorker → UInt64) (j : Nat) (l : List InboundWorker) : Nat :=
  (l.map fun w => if w.peerCfg = some j then (f w).toNat else 0).sum

/-- What was moved is in the entry or in a block; the counters have 64 bits. -/
def Accounted (moved : SharedPeer → Nat) (total : SharedPeer → UInt64) (bytes : InboundWorker → UInt64)
    (s : State) : Prop :=
  ∀ (j : Nat) (p : SharedPeer), s.peers[j]? = some p →
    moved p ≡ (total p).toNat + owing bytes j s.workers [MOD 2 ^ 64]

structure Ledger (s : State) : Prop where
  bytesIn : Accounted SharedPeer.movedIn SharedPeer.inBytesIn InboundWorker.bytesIn s
  bytesOut : Accounted SharedPeer.movedOut SharedPeer.inBytesOut InboundWorker.bytesOut s
  unknown : ∀ w ∈ s.running, w.peerCfg = none → w.bytesIn = 0 ∧ w.bytesOut = 0
  early : ∀ w ∈ s.running, w.stage = .started ∨ w.stage = .adopted ∨ w.stage = .greeted → w.peerCfg = none
  known : ∀ w ∈ s.running, w.stage = .authenticated ∨ w.stage = .connected ∨ w.stage = .session →
    w.peerCfg ≠ none

structure Handle (s : State) : Prop where
  proc : s.proc = !s.exited
  gone : s.task = .gone ↔ s.reply = true ∨ s.exited = true ∨ s.daemon = .joined
  once : s.reply = true → s.exited = false ∧ s.daemon ≠ .joined
  empty : s.task = .starting ∨ s.task = .gone → s.workers = []

structure Inv (s : State) : Prop where
  placed : Placed s
  sockets : Sockets s
  published : Published s
  ledger : Ledger s
  handle : Handle s

/-! ## The start -/

theorem inv_listenerStart (peers : List ConfigPeer) : Inv (listenerStart peers) where
  placed := ⟨rfl, Pool.init _, List.nodup_nil, fun _ h => absurd h List.not_mem_nil⟩
  sockets := ⟨List.Perm.refl _, List.Perm.refl _, fun _ h => absurd h List.not_mem_nil,
    fun _ h => absurd h List.not_mem_nil⟩
  published := by
    refine ⟨fun j b p hp hb => ?_, fun _ h => absurd h List.not_mem_nil⟩
    obtain ⟨q, -, rfl⟩ := List.mem_map.mp (List.mem_of_getElem? hp)
    exact absurd hb (by simp [sharedPeer])
  ledger := by
    refine ⟨fun j p hp => ?_, fun j p hp => ?_, fun _ h => absurd h List.not_mem_nil,
      fun _ h => absurd h List.not_mem_nil, fun _ h => absurd h List.not_mem_nil⟩
    all_goals
      obtain ⟨q, -, rfl⟩ := List.mem_map.mp (List.mem_of_getElem? hp)
      rfl
  handle := ⟨rfl, by simp [listenerStart], by simp [listenerStart], fun _ => rfl⟩

/-! ## Entries and sums -/

/-- The peers after something is written at the entry of `w`. -/
def updated (w : InboundWorker) (f : SharedPeer → SharedPeer) (l : List SharedPeer) : List SharedPeer :=
  match w.peerCfg with
  | none => l
  | some j => l.modify j f

theorem atPeer_eq (s : State) (w : InboundWorker) (f : SharedPeer → SharedPeer) :
    s.atPeer w f = { s with peers := updated w f s.peers } := by
  unfold State.atPeer updated
  cases w.peerCfg <;> rfl

theorem setWorker_atPeer (s : State) (k : Nat) (f : InboundWorker → InboundWorker) (w : InboundWorker)
    (g : SharedPeer → SharedPeer) : (s.setWorker k f).atPeer w g =
      { s with running := s.running.modify k f, peers := updated w g s.peers } := atPeer_eq _ w g

theorem foldInbound_eq (s : State) (w : InboundWorker) :
    s.foldInbound w = { s with peers := updated w (State.foldBytes w) s.peers } :=
  atPeer_eq s w (State.foldBytes w)

theorem getElem?_updated (w : InboundWorker) (f : SharedPeer → SharedPeer) (l : List SharedPeer) (j : Nat) :
    (updated w f l)[j]? = (l[j]?).map fun p => if w.peerCfg = some j then f p else p := by
  unfold updated
  cases h : w.peerCfg with
  | none => simp
  | some i =>
    rw [List.getElem?_modify]
    by_cases hij : i = j
    · simp [hij]
    · simp [hij]

/-- An entry afterwards, with what it was before. -/
theorem of_getElem?_updated {w : InboundWorker} {f : SharedPeer → SharedPeer} {l : List SharedPeer} {j : Nat}
    {q : SharedPeer} (h : (updated w f l)[j]? = some q) :
    ∃ p, l[j]? = some p ∧ q = if w.peerCfg = some j then f p else p := by
  rw [getElem?_updated] at h
  obtain ⟨p, hp, rfl⟩ := Option.map_eq_some_iff.mp h
  exact ⟨p, hp, rfl⟩

theorem getElem?_updated_some {l : List SharedPeer} {j : Nat} {p : SharedPeer} (h : l[j]? = some p)
    (w : InboundWorker) (f : SharedPeer → SharedPeer) :
    (updated w f l)[j]? = some (if w.peerCfg = some j then f p else p) := by
  rw [getElem?_updated, h]
  rfl

section Owing
variable (f : InboundWorker → UInt64) (j : Nat)

theorem owing_perm {l l' : List InboundWorker} (h : l.Perm l') : owing f j l = owing f j l' :=
  (h.map _).sum_nat

theorem owing_cons (w : InboundWorker) (l : List InboundWorker) :
    owing f j (w :: l) = (if w.peerCfg = some j then (f w).toNat else 0) + owing f j l := List.sum_cons

end Owing

theorem toNat_add_modEq (a b : UInt64) : (a + b).toNat ≡ a.toNat + b.toNat [MOD 2 ^ 64] := by
  rw [UInt64.toNat_add]
  exact Nat.mod_modEq _ _

/-! ## A reply is taken -/

section Reap
variable {s : State} {w : InboundWorker} {rest : List InboundWorker}

theorem workers_of_port (hport : s.port = w :: rest) :
    s.workers.Perm (w :: State.workers { s with port := rest }) := by
  unfold State.workers
  rw [hport]
  exact List.perm_middle

/-- The bytes go from the block to the entry. -/
theorem accounted_reap {moved : SharedPeer → Nat} {total : SharedPeer → UInt64}
    {bytes : InboundWorker → UInt64} {t : State} (h : Accounted moved total bytes s)
    (hperm : s.workers.Perm (w :: t.workers)) (hpeers : t.peers = updated w (State.foldBytes w) s.peers)
    (hmoved : ∀ p, moved (State.foldBytes w p) = moved p)
    (htotal : ∀ p, total (State.foldBytes w p) = total p + bytes w) : Accounted moved total bytes t := by
  intro j q hq
  rw [hpeers] at hq
  obtain ⟨p, hp, rfl⟩ := of_getElem?_updated hq
  have hold := h j p hp
  rw [owing_perm bytes j hperm, owing_cons] at hold
  split
  · rename_i hj
    rw [if_pos hj, ← Nat.add_assoc] at hold
    rw [hmoved, htotal]
    exact hold.trans ((toNat_add_modEq _ _).add_right _).symm
  · rename_i hj
    rw [if_neg hj, Nat.zero_add] at hold
    exact hold

/-- **Reap.** The slot is free, the block is no more, and its bytes are in the peer's entry. -/
theorem inv_reapOne (h : Inv s) (hport : s.port = w :: rest) :
    Inv (State.reapOne { s with port := rest } w) := by
  have hperm := workers_of_port hport
  unfold State.reapOne
  rw [foldInbound_eq]
  dsimp only
  constructor
  case placed =>
    refine ⟨(List.length_set ..).trans h.placed.length, ?_, ?_, ?_⟩
    · exact (h.placed.pool.perm (hperm.map placed)).finish
    · exact (List.nodup_cons.mp ((hperm.map _).nodup_iff.mp h.placed.blocks)).2
    · exact fun v hv => h.placed.below v (hperm.mem_iff.mpr (List.mem_cons_of_mem w hv))
  case sockets => exact ⟨h.sockets.each, h.sockets.table, h.sockets.started, h.sockets.closed⟩
  case published =>
    constructor
    · intro j b q hq hb
      obtain ⟨p, hp, rfl⟩ := of_getElem?_updated hq
      refine h.published.live j b p hp ?_
      rw [← hb]
      split <;> rfl
    · intro v hv j hj
      obtain ⟨p, hp, hid⟩ := h.published.listed v (hperm.mem_iff.mpr (List.mem_cons_of_mem w hv)) j hj
      refine ⟨_, getElem?_updated_some hp _ _, ?_⟩
      split <;> exact hid
  case ledger =>
    exact ⟨accounted_reap h.ledger.bytesIn hperm rfl (fun _ => rfl) (fun _ => rfl),
      accounted_reap h.ledger.bytesOut hperm rfl (fun _ => rfl) (fun _ => rfl), h.ledger.unknown,
      h.ledger.early, h.ledger.known⟩
  case handle =>
    refine ⟨h.handle.proc, h.handle.gone, h.handle.once, fun hgone => ?_⟩
    have hnil := h.handle.empty hgone
    rw [hnil] at hperm
    exact absurd hperm.nil_eq (by simp)

theorem reapOne_port (s : State) (w : InboundWorker) (l : List InboundWorker) :
    State.reapOne { s with port := l } w = { State.reapOne s w with port := l } := by
  unfold State.reapOne
  rw [foldInbound_eq, foldInbound_eq]

/-- **Drain.** -/
theorem inv_drainInboundLocked (h : Inv s) : Inv s.drainInboundLocked := by
  have hrun : ∀ (l : List InboundWorker) (t : State), t.port = [] → Inv { t with port := l } →
      Inv (l.foldl State.reapOne t) := by
    intro l
    induction l with
    | nil =>
      intro t ht hi
      rw [← ht] at hi
      exact hi
    | cons w l ih =>
      intro t ht hi
      have hreap := inv_reapOne hi rfl
      refine ih (t.reapOne w) ?_ ?_
      · unfold State.reapOne
        rw [foldInbound_eq]
        exact ht
      · rw [← reapOne_port]
        exact hreap
  exact hrun s.port { s with port := [] } rfl h

/-- The drain has nothing to do with the tasks, the running workers and the sockets. -/
theorem drainInboundLocked_same (s : State) : s.drainInboundLocked.port = [] ∧
    s.drainInboundLocked.running = s.running ∧ s.drainInboundLocked.task = s.task := by
  have hrun : ∀ (l : List InboundWorker) (t : State), (l.foldl State.reapOne t).port = t.port ∧
      (l.foldl State.reapOne t).running = t.running ∧ (l.foldl State.reapOne t).task = t.task := by
    intro l
    induction l with
    | nil => exact fun t => ⟨rfl, rfl, rfl⟩
    | cons w l ih =>
      intro t
      have hone : (t.reapOne w).port = t.port ∧ (t.reapOne w).running = t.running ∧
          (t.reapOne w).task = t.task := by
        unfold State.reapOne
        rw [foldInbound_eq]
        exact ⟨rfl, rfl, rfl⟩
      obtain ⟨h1, h2, h3⟩ := ih (t.reapOne w)
      exact ⟨h1.trans hone.1, h2.trans hone.2.1, h3.trans hone.2.2⟩
  exact hrun s.port { s with port := [] }

end Reap

/-! ## A connection is accepted -/

section Handoff
variable {s t : State}

/-- The pool depends only on who has which slot and block. -/
theorem placed_of_perm (h : Placed s) (hslots : t.slots = s.slots) (hnext : t.nextBlock = s.nextBlock)
    (hperm : (t.workers.map placed).Perm (s.workers.map placed)) : Placed t := by
  have hblock : ∀ l : List InboundWorker, l.map InboundWorker.block = (l.map placed).map Prod.snd := by
    intro l
    rw [List.map_map]
    rfl
  refine ⟨hslots ▸ h.length, hslots ▸ h.pool.perm hperm.symm, ?_, ?_⟩
  · rw [hblock]
    have hnodup := h.blocks
    rw [hblock] at hnodup
    exact (hperm.map Prod.snd).nodup_iff.mpr hnodup
  · intro w hw
    obtain ⟨v, hv, he⟩ := List.mem_map.mp (hperm.mem_iff.mp (List.mem_map_of_mem hw))
    have hblock : v.block = w.block := congrArg Prod.snd he
    rw [hnext, ← hblock]
    exact h.below v hv

theorem accounted_same {moved : SharedPeer → Nat} {total : SharedPeer → UInt64}
    {bytes : InboundWorker → UInt64} (h : Accounted moved total bytes s) (hpeers : t.peers = s.peers)
    (hworkers : ∀ j, owing bytes j t.workers = owing bytes j s.workers) : Accounted moved total bytes t := by
  intro j p hp
  rw [hpeers] at hp
  rw [hworkers]
  exact h j p hp

theorem inv_drop (h : Inv s) : Inv { s with accepted := s.accepted + 1, closed := s.closed ++ [s.accepted] } where
  placed := placed_of_perm h.placed rfl rfl (List.Perm.refl _)
  sockets := by
    refine ⟨?_, h.sockets.table, h.sockets.started, h.sockets.closed⟩
    dsimp only
    rw [← List.append_assoc, List.range_succ]
    exact h.sockets.each.append_right _
  published := ⟨h.published.live, h.published.listed⟩
  ledger := ⟨accounted_same h.ledger.bytesIn rfl fun _ => rfl, accounted_same h.ledger.bytesOut rfl fun _ => rfl,
    h.ledger.unknown, h.ledger.early, h.ledger.known⟩
  handle := ⟨h.handle.proc, h.handle.gone, h.handle.once, h.handle.empty⟩

/-- One more in the table. -/
theorem each_release {table socks closed : List Nat} {n : Nat}
    (h : (table ++ socks ++ closed).Perm (List.range n)) :
    (table ++ [n] ++ socks ++ closed).Perm (List.range (n + 1)) := by
  rw [List.range_succ]
  refine List.Perm.trans ?_ (h.append_right [n])
  rw [List.append_assoc table, List.append_assoc, List.append_assoc, List.append_assoc, List.append_assoc]
  refine List.Perm.append_left table ?_
  rw [← List.append_assoc socks]
  exact List.perm_append_comm

theorem inv_lose (h : Inv s) : Inv { s with
    accepted := s.accepted + 1, table := s.table ++ [s.accepted], lost := s.lost ++ [s.accepted] } where
  placed := placed_of_perm h.placed rfl rfl (List.Perm.refl _)
  sockets := by
    refine ⟨each_release h.sockets.each, ?_, h.sockets.started, h.sockets.closed⟩
    dsimp only
    rw [← List.append_assoc]
    exact h.sockets.table.append_right _
  published := ⟨h.published.live, h.published.listed⟩
  ledger := ⟨accounted_same h.ledger.bytesIn rfl fun _ => rfl, accounted_same h.ledger.bytesOut rfl fun _ => rfl,
    h.ledger.unknown, h.ledger.early, h.ledger.known⟩
  handle := ⟨h.handle.proc, h.handle.gone, h.handle.once, h.handle.empty⟩

/-- A worker is started for a free slot. -/
theorem inv_started (h : Inv s) (htask : ¬ (s.task = .starting ∨ s.task = .gone)) {i : Nat}
    (hi : s.slots[i]? = some none) :
    Inv { s with
      accepted := s.accepted + 1
      table := s.table ++ [s.accepted]
      slots := s.slots.set i (some s.nextBlock)
      running := s.running ++ [State.freshWorker s.nextBlock i s.accepted]
      nextBlock := s.nextBlock + 1 } := by
  have hperm : (s.running ++ [State.freshWorker s.nextBlock i s.accepted] ++ s.port).Perm
      (s.workers ++ [State.freshWorker s.nextBlock i s.accepted]) := by
    unfold State.workers
    rw [List.append_assoc, List.append_assoc]
    exact List.perm_append_comm.append_left s.running
  have hmem : ∀ v, v ∈ s.running ++ [State.freshWorker s.nextBlock i s.accepted] →
      v ∈ s.running ∨ v = State.freshWorker s.nextBlock i s.accepted := by
    intro v hv
    rcases List.mem_append.mp hv with hv | hv
    · exact Or.inl hv
    · exact Or.inr (List.mem_singleton.mp hv)
  constructor
  case placed =>
    refine ⟨(List.length_set ..).trans h.placed.length, ?_, ?_, ?_⟩
    · refine (h.placed.pool.start hi s.nextBlock).perm ?_
      have hmap := (hperm.map placed).symm
      rw [List.map_append] at hmap
      exact hmap
    · refine ((hperm.map InboundWorker.block).nodup_iff).mpr ?_
      rw [List.map_append]
      refine h.placed.blocks.append (List.nodup_singleton _) ?_
      intro b hb hb'
      obtain ⟨v, hv, rfl⟩ := List.mem_map.mp hb
      have hlt := h.placed.below v hv
      rw [List.mem_singleton.mp hb'] at hlt
      exact Nat.lt_irrefl _ hlt
    · intro v hv
      rcases List.mem_append.mp (hperm.mem_iff.mp hv) with hv | hv
      · exact Nat.lt_succ_of_lt (h.placed.below v hv)
      · rw [List.mem_singleton.mp hv]
        exact Nat.lt_succ_self _
  case sockets =>
    refine ⟨?_, ?_, ?_, ?_⟩
    · dsimp only
      rw [List.filterMap_append]
      simp only [State.freshWorker, List.filterMap_cons_none, List.filterMap_nil, List.append_nil]
      exact each_release h.sockets.each
    · dsimp only
      rw [List.filter_append, List.map_append, List.append_assoc]
      refine (h.sockets.table.append_right _).trans ?_
      rw [List.append_assoc]
      exact List.perm_append_comm.append_left _
    · intro v hv hst
      rcases hmem v hv with hv | rfl
      · exact h.sockets.started v hv hst
      · rfl
    · intro v hv hst
      rcases hmem v hv with hv | rfl
      · exact h.sockets.closed v hv hst
      · rfl
  case published =>
    constructor
    · intro j b p hp hb
      obtain ⟨v, hv, hrest⟩ := h.published.live j b p hp hb
      exact ⟨v, List.mem_append_left _ hv, hrest⟩
    · intro v hv j hj
      rcases List.mem_append.mp (hperm.mem_iff.mp hv) with hv | hv
      · exact h.published.listed v hv j hj
      · rw [List.mem_singleton.mp hv] at hj
        exact absurd hj (by simp [State.freshWorker])
  case ledger =>
    have hsum : ∀ f j, owing f j (s.running ++ [State.freshWorker s.nextBlock i s.accepted] ++ s.port) =
        owing f j s.workers := by
      intro f j
      rw [owing_perm f j (hperm.trans List.perm_append_comm), List.singleton_append, owing_cons]
      simp [State.freshWorker]
    refine ⟨accounted_same h.ledger.bytesIn rfl (hsum _), accounted_same h.ledger.bytesOut rfl (hsum _),
      ?_, ?_, ?_⟩
    · intro v hv hnone
      rcases hmem v hv with hv | rfl
      · exact h.ledger.unknown v hv hnone
      · exact ⟨rfl, rfl⟩
    · intro v hv hst
      rcases hmem v hv with hv | rfl
      · exact h.ledger.early v hv hst
      · rfl
    · intro v hv hst
      rcases hmem v hv with hv | rfl
      · exact h.ledger.known v hv hst
      · simp [State.freshWorker] at hst
  case handle =>
    exact ⟨h.handle.proc, h.handle.gone, h.handle.once, fun hidle => absurd hidle htask⟩

/-- **Handoff.** -/
theorem inv_handoff (h : Inv s) (htask : ¬ (s.task = .starting ∨ s.task = .gone)) (o : HandoffOutcome) :
    Inv (s.handoff o) := by
  unfold State.handoff
  dsimp only
  cases hi : s.slots.findIdx? Option.isNone with
  | none => exact inv_drop h
  | some i =>
    obtain ⟨hlt, hnone, -⟩ := List.findIdx?_eq_some_iff_getElem.mp hi
    have hfree : s.slots[i]? = some none := by
      rw [List.getElem?_eq_getElem hlt, Option.isNone_iff_eq_none.mp hnone]
    cases o with
    | noMemory => exact inv_drop h
    | releaseFails => exact inv_drop h
    | noProcess adopt =>
      cases adopt with
      | true => exact inv_drop h
      | false => exact inv_lose h
    | started => exact inv_started h htask hfree

end Handoff

/-! ## A worker goes on -/

section Worker
variable {s t : State} {w w' : InboundWorker} {rest : List InboundWorker}

/-- Worker `w` has become `w'`, and the others are as before. -/
structure Becomes (s t : State) (w w' : InboundWorker) (rest : List InboundWorker) : Prop where
  before : s.running.Perm (w :: rest)
  after : t.running.Perm (w' :: rest)
  port : t.port = s.port

theorem becomes_setWorker {k : Nat} (hk : s.running[k]? = some w) (f : InboundWorker → InboundWorker) :
    Becomes s (s.setWorker k f) w (f w) (s.running.eraseIdx k) :=
  ⟨perm_eraseIdx hk, perm_modify hk f, rfl⟩

section Becomes
variable (hb : Becomes s t w w' rest)
include hb

theorem Becomes.workers_before : s.workers.Perm (w :: (rest ++ s.port)) := hb.before.append_right s.port

theorem Becomes.workers_after : t.workers.Perm (w' :: (rest ++ s.port)) := by
  unfold State.workers
  rw [hb.port]
  exact hb.after.append_right s.port

theorem Becomes.mem_after {v : InboundWorker} (hv : v ∈ t.running) : v = w' ∨ v ∈ s.running := by
  rcases List.mem_cons.mp (hb.after.mem_iff.mp hv) with rfl | hv
  · exact Or.inl rfl
  · exact Or.inr (hb.before.mem_iff.mpr (List.mem_cons_of_mem w hv))

theorem placed_becomes (h : Placed s) (hslots : t.slots = s.slots) (hnext : t.nextBlock = s.nextBlock)
    (hslot : w'.slot = w.slot) (hblock : w'.block = w.block) : Placed t := by
  refine placed_of_perm h hslots hnext ?_
  refine (hb.workers_after.map placed).trans ?_
  refine List.Perm.trans ?_ (hb.workers_before.map placed).symm
  rw [List.map_cons, List.map_cons]
  have hsame : placed w' = placed w := by rw [placed, placed, hslot, hblock]
  rw [hsame]

/-- The sockets of the others do not move. -/
theorem sockets_becomes (h : Sockets s) (htable : t.table = s.table) (hclosed : t.closed = s.closed)
    (hlost : t.lost = s.lost) (hacc : t.accepted = s.accepted) (hsock : w'.sock = w.sock)
    (hst : w.stage ≠ .started) (hst' : w'.stage ≠ .started) (hend : w'.stage ≠ .closed) : Sockets t := by
  have hsocks : (t.running.filterMap InboundWorker.sock).Perm (s.running.filterMap InboundWorker.sock) := by
    refine (hb.after.filterMap _).trans ?_
    refine List.Perm.trans ?_ (hb.before.filterMap _).symm
    rw [List.filterMap_cons, List.filterMap_cons, hsock]
  have hwaiting : ((t.running.filter fun v => v.stage = .started)).Perm
      (s.running.filter fun v => v.stage = .started) := by
    refine (hb.after.filter _).trans ?_
    refine List.Perm.trans ?_ (hb.before.filter _).symm
    rw [List.filter_cons, List.filter_cons, if_neg (by simpa using hst'), if_neg (by simpa using hst)]
  constructor
  · rw [htable, hclosed, hacc]
    exact ((hsocks.append_left _).append_right _).trans h.each
  · rw [htable, hlost]
    exact h.table.trans ((hwaiting.map _).symm.append_right _)
  · intro v hv hvs
    rcases hb.mem_after hv with rfl | hv
    · exact absurd hvs hst'
    · exact h.started v hv hvs
  · intro v hv hvs
    rcases hb.mem_after hv with rfl | hv
    · exact absurd hvs hend
    · exact h.closed v hv hvs

/-- Every pointer is old, or it is to `w'`; and where it was to `w`, it is to `w'` now. -/
theorem published_becomes (h : Published s)
    (hptr : ∀ j b q, t.peers[j]? = some q → q.inboundSt = some b →
      (b = w'.block ∧ w'.peerCfg = some j ∧ Holding w'.stage) ∨
      (∃ p, s.peers[j]? = some p ∧ p.inboundSt = some b) ∧
        (b = w.block → w.peerCfg = some j → Holding w.stage →
          w'.block = b ∧ w'.peerCfg = some j ∧ Holding w'.stage))
    (hids : ∀ (j : Nat) (p : SharedPeer), s.peers[j]? = some p → ∃ q : SharedPeer, t.peers[j]? = some q ∧ q.id = p.id)
    (hlisted : ∀ j, w'.peerCfg = some j →
      ∃ p : SharedPeer, s.peers[j]? = some p ∧ deviceIdEqual w'.peerActualId p.id = true) : Published t := by
  constructor
  · intro j b q hq hb'
    rcases hptr j b q hq hb' with ⟨rfl, hcfg, hst⟩ | ⟨⟨p, hp, hpb⟩, hself⟩
    · exact ⟨w', hb.after.mem_iff.mpr List.mem_cons_self, rfl, hcfg, hst⟩
    · obtain ⟨v, hv, hvb, hcfg, hst⟩ := h.live j b p hp hpb
      rcases List.mem_cons.mp (hb.before.mem_iff.mp hv) with rfl | hv
      · obtain ⟨h1, h2, h3⟩ := hself hvb.symm hcfg hst
        exact ⟨w', hb.after.mem_iff.mpr List.mem_cons_self, h1, h2, h3⟩
      · exact ⟨v, hb.after.mem_iff.mpr (List.mem_cons_of_mem w' hv), hvb, hcfg, hst⟩
  · have hold : ∀ (v : InboundWorker) (j : Nat), (∃ p, s.peers[j]? = some p ∧
        deviceIdEqual v.peerActualId p.id = true) →
        ∃ q, t.peers[j]? = some q ∧ deviceIdEqual v.peerActualId q.id = true := by
      rintro v j ⟨p, hp, hid⟩
      obtain ⟨q, hq, hqid⟩ := hids j p hp
      exact ⟨q, hq, hqid ▸ hid⟩
    intro v hv j hj
    rcases List.mem_cons.mp (hb.workers_after.mem_iff.mp hv) with rfl | hv
    · exact hold v j (hlisted j hj)
    · exact hold v j (h.listed v (hb.workers_before.mem_iff.mpr (List.mem_cons_of_mem w hv)) j hj)

/-- What one worker has moved more is in the entry of its peer. -/
theorem accounted_becomes {moved : SharedPeer → Nat} {total : SharedPeer → UInt64}
    {bytes : InboundWorker → UInt64} (h : Accounted moved total bytes s)
    (hpeers : ∀ j q, t.peers[j]? = some q → ∃ p d, s.peers[j]? = some p ∧ total q = total p ∧
      moved q = moved p + d ∧
      (if w'.peerCfg = some j then (bytes w').toNat else 0) ≡
        (if w.peerCfg = some j then (bytes w).toNat else 0) + d [MOD 2 ^ 64]) :
    Accounted moved total bytes t := by
  intro j q hq
  obtain ⟨p, d, hp, htotal, hmoved, hd⟩ := hpeers j q hq
  have hold := h j p hp
  rw [owing_perm bytes j hb.workers_before, owing_cons] at hold
  rw [owing_perm bytes j hb.workers_after, owing_cons, htotal, hmoved]
  refine (hold.add_right d).trans ?_
  have hshift : (total p).toNat + ((if w.peerCfg = some j then (bytes w).toNat else 0) +
      owing bytes j (rest ++ s.port)) + d = (total p).toNat +
      ((if w.peerCfg = some j then (bytes w).toNat else 0) + d + owing bytes j (rest ++ s.port)) := by
    omega
  rw [hshift]
  exact ((hd.symm).add_right _).add_left _

end Becomes

theorem handle_worker (h : Handle s) (hw : w ∈ s.running) (hproc : t.proc = s.proc)
    (hexited : t.exited = s.exited) (htask : t.task = s.task) (hreply : t.reply = s.reply)
    (hdaemon : t.daemon = s.daemon) : Handle t := by
  refine ⟨by rw [hproc, hexited]; exact h.proc, by rw [htask, hreply, hexited, hdaemon]; exact h.gone,
    by rw [hreply, hexited, hdaemon]; exact h.once, fun hgone => ?_⟩
  rw [htask] at hgone
  have hnil := h.empty hgone
  exact absurd (List.mem_append_left s.port hw) (by
    unfold State.workers at hnil
    rw [hnil]
    exact List.not_mem_nil)

/-- A step that has nothing to do with the socket, the pointer and the bytes. -/
structure Quiet (w w' : InboundWorker) : Prop where
  slot : w'.slot = w.slot
  block : w'.block = w.block
  sock : w'.sock = w.sock
  peerCfg : w'.peerCfg = w.peerCfg
  actual : w'.peerActualId = w.peerActualId
  bytesIn : w'.bytesIn = w.bytesIn
  bytesOut : w'.bytesOut = w.bytesOut
  before : w.stage ≠ .started
  after : w'.stage ≠ .started ∧ w'.stage ≠ .closed
  holding : Holding w.stage → Holding w'.stage
  early : w'.stage = .adopted ∨ w'.stage = .greeted → w.stage = .adopted ∨ w.stage = .greeted
  known : w'.stage = .authenticated ∨ w'.stage = .connected ∨ w'.stage = .session →
    w.stage = .authenticated ∨ w.stage = .connected ∨ w.stage = .session

/-- An entry with everything that matters here as before. -/
structure SameEntry (p q : SharedPeer) : Prop where
  id : q.id = p.id
  inboundSt : q.inboundSt = p.inboundSt
  inBytesIn : q.inBytesIn = p.inBytesIn
  inBytesOut : q.inBytesOut = p.inBytesOut
  movedIn : q.movedIn = p.movedIn
  movedOut : q.movedOut = p.movedOut

/-- The entries are those of before, one by one. -/
def SamePeers (l l' : List SharedPeer) : Prop :=
  (∀ (j : Nat) (q : SharedPeer), l'[j]? = some q → ∃ p : SharedPeer, l[j]? = some p ∧ SameEntry p q) ∧
    ∀ (j : Nat) (p : SharedPeer), l[j]? = some p → ∃ q : SharedPeer, l'[j]? = some q ∧ SameEntry p q

theorem samePeers_modify {g : SharedPeer → SharedPeer} (hg : ∀ p, SameEntry p (g p)) (l : List SharedPeer)
    (i : Nat) : SamePeers l (l.modify i g) := by
  have hentry : ∀ j p, SameEntry p (if i = j then g p else p) := by
    intro j p
    split
    · exact hg p
    · exact ⟨rfl, rfl, rfl, rfl, rfl, rfl⟩
  constructor
  · intro j q hq
    rw [List.getElem?_modify] at hq
    obtain ⟨p, hp, rfl⟩ := Option.map_eq_some_iff.mp hq
    exact ⟨p, hp, hentry j p⟩
  · intro j p hp
    refine ⟨_, ?_, hentry j p⟩
    rw [List.getElem?_modify, hp]
    rfl

theorem samePeers_refl (l : List SharedPeer) : SamePeers l l :=
  ⟨fun _ q hq => ⟨q, hq, rfl, rfl, rfl, rfl, rfl, rfl⟩, fun _ p hp => ⟨p, hp, rfl, rfl, rfl, rfl, rfl, rfl⟩⟩

theorem samePeers_updated {g : SharedPeer → SharedPeer} (hg : ∀ p, SameEntry p (g p)) (w : InboundWorker)
    (l : List SharedPeer) : SamePeers l (updated w g l) := by
  unfold updated
  cases w.peerCfg with
  | none => exact samePeers_refl l
  | some j => exact samePeers_modify hg l j

theorem ledger_quiet {r : List InboundWorker} {ps : List SharedPeer}
    (hb : Becomes s { s with running := r, peers := ps } w w' rest) (h : Ledger s)
    (hcfg : w'.peerCfg = w.peerCfg) (hin : w'.bytesIn = w.bytesIn) (hout : w'.bytesOut = w.bytesOut)
    (hearly : w'.stage = .started ∨ w'.stage = .adopted ∨ w'.stage = .greeted → w.peerCfg = none)
    (hknown : w'.stage = .authenticated ∨ w'.stage = .connected ∨ w'.stage = .session →
      w.stage = .authenticated ∨ w.stage = .connected ∨ w.stage = .session)
    (hps : ∀ (j : Nat) (q : SharedPeer), ps[j]? = some q → ∃ p : SharedPeer, s.peers[j]? = some p ∧
      q.inBytesIn = p.inBytesIn ∧ q.inBytesOut = p.inBytesOut ∧ q.movedIn = p.movedIn ∧
      q.movedOut = p.movedOut) :
    Ledger { s with running := r, peers := ps } := by
  refine ⟨accounted_becomes hb h.bytesIn fun j q hq => ?_, accounted_becomes hb h.bytesOut fun j q hq => ?_,
    fun v hv hnone => ?_, fun v hv hst => ?_, fun v hv hst => ?_⟩
  · obtain ⟨p, hp, h1, -, h3, -⟩ := hps j q hq
    exact ⟨p, 0, hp, h1, h3, by rw [hcfg, hin]; exact Nat.ModEq.refl _⟩
  · obtain ⟨p, hp, -, h2, -, h4⟩ := hps j q hq
    exact ⟨p, 0, hp, h2, h4, by rw [hcfg, hout]; exact Nat.ModEq.refl _⟩
  · rcases hb.mem_after hv with rfl | hv
    · rw [hin, hout]
      exact h.unknown w (hb.before.mem_iff.mpr List.mem_cons_self) (hcfg ▸ hnone)
    · exact h.unknown v hv hnone
  · rcases hb.mem_after hv with rfl | hv
    · rw [hcfg]
      exact hearly hst
    · exact h.early v hv hst
  · rcases hb.mem_after hv with rfl | hv
    · rw [hcfg]
      exact h.known w (hb.before.mem_iff.mpr List.mem_cons_self) (hknown hst)
    · exact h.known v hv hst

/-- **A quiet step.** -/
theorem inv_quiet (h : Inv s) {r : List InboundWorker} {ps : List SharedPeer}
    (hb : Becomes s { s with running := r, peers := ps } w w' rest) (hq : Quiet w w')
    (hps : SamePeers s.peers ps) : Inv { s with running := r, peers := ps } := by
  have hw : w ∈ s.running := hb.before.mem_iff.mpr List.mem_cons_self
  constructor
  case placed => exact placed_becomes hb h.placed rfl rfl hq.slot hq.block
  case sockets =>
    exact sockets_becomes hb h.sockets rfl rfl rfl rfl hq.sock hq.before hq.after.1 hq.after.2
  case published =>
    refine published_becomes hb h.published (fun j b q hj hbq => ?_) (fun j p hp => ?_) (fun j hj => ?_)
    · right
      obtain ⟨p, hp, hsame⟩ := hps.1 j q hj
      refine ⟨⟨p, hp, hsame.inboundSt ▸ hbq⟩, fun hbw hcfg hst => ?_⟩
      exact ⟨hq.block.trans hbw.symm, hq.peerCfg.trans hcfg, hq.holding hst⟩
    · obtain ⟨q, hq', hsame⟩ := hps.2 j p hp
      exact ⟨q, hq', hsame.id⟩
    · rw [hq.peerCfg] at hj
      rw [hq.actual]
      exact h.published.listed w (List.mem_append_left _ hw) j hj
  case ledger =>
    refine ledger_quiet hb h.ledger hq.peerCfg hq.bytesIn hq.bytesOut (fun hst => ?_) hq.known
      fun j q hj => ?_
    · refine h.ledger.early w hw ?_
      rcases hst with hst | hst
      · exact absurd hst hq.after.1
      · exact Or.inr (hq.early hst)
    · obtain ⟨p, hp, hsame⟩ := hps.1 j q hj
      exact ⟨p, hp, hsame.inBytesIn, hsame.inBytesOut, hsame.movedIn, hsame.movedOut⟩
  case handle => exact handle_worker h.handle hw rfl rfl rfl rfl rfl

/-! ## Steps with an entry -/

/-- **`publish`.** -/
theorem inv_publish (h : Inv s) {k : Nat} (hk : s.running[k]? = some w) (hst : w.stage = .connected) :
    Inv ((s.setWorker k (setStage .session)).atPeer w (setInboundSt (some w.block))) := by
  have hw : w ∈ s.running := List.mem_of_getElem? hk
  have hb : Becomes s { s with
      running := s.running.modify k (setStage .session)
      peers := updated w (setInboundSt (some w.block)) s.peers } w (setStage .session w)
      (s.running.eraseIdx k) := ⟨perm_eraseIdx hk, perm_modify hk _, rfl⟩
  have hcfg := h.ledger.known w hw (Or.inr (Or.inl hst))
  rw [setWorker_atPeer]
  constructor
  case placed => exact placed_becomes hb h.placed rfl rfl rfl rfl
  case sockets =>
    exact sockets_becomes hb h.sockets rfl rfl rfl rfl rfl (by rw [hst]; simp) (by simp [setStage])
      (by simp [setStage])
  case published =>
    refine published_becomes hb h.published (fun j b q hq hbq => ?_) (fun j p hp => ?_) (fun j hj => ?_)
    · obtain ⟨p, hp, rfl⟩ := of_getElem?_updated hq
      by_cases hj : w.peerCfg = some j
      · rw [if_pos hj] at hbq
        exact Or.inl ⟨(Option.some.inj hbq).symm, hj, Or.inl rfl⟩
      · rw [if_neg hj] at hbq
        exact Or.inr ⟨⟨p, hp, hbq⟩, fun _ hcfg => absurd hcfg hj⟩
    · refine ⟨_, getElem?_updated_some hp _ _, ?_⟩
      split <;> rfl
    · exact h.published.listed w (List.mem_append_left _ hw) j hj
  case ledger =>
    refine ledger_quiet hb h.ledger rfl rfl rfl (by simp [setStage]) (fun _ => Or.inr (Or.inl hst))
      fun j q hq => ?_
    obtain ⟨p, hp, rfl⟩ := of_getElem?_updated hq
    refine ⟨p, hp, ?_⟩
    split <;> exact ⟨rfl, rfl, rfl, rfl⟩
  case handle => exact handle_worker h.handle hw rfl rfl rfl rfl rfl

/-- **`withdraw`.** -/
theorem inv_withdraw (h : Inv s) {k : Nat} (hk : s.running[k]? = some w) (hst : w.stage = .owed) :
    Inv ((s.setWorker k (setStage .withdrawn)).atPeer w (clearInboundSt w.block)) := by
  have hw : w ∈ s.running := List.mem_of_getElem? hk
  have hb : Becomes s { s with
      running := s.running.modify k (setStage .withdrawn)
      peers := updated w (clearInboundSt w.block) s.peers } w (setStage .withdrawn w)
      (s.running.eraseIdx k) := ⟨perm_eraseIdx hk, perm_modify hk _, rfl⟩
  have hclear : ∀ p, (clearInboundSt w.block p).id = p.id ∧ (clearInboundSt w.block p).inBytesIn = p.inBytesIn ∧
      (clearInboundSt w.block p).inBytesOut = p.inBytesOut ∧ (clearInboundSt w.block p).movedIn = p.movedIn ∧
      (clearInboundSt w.block p).movedOut = p.movedOut := by
    intro p
    unfold clearInboundSt
    split <;> exact ⟨rfl, rfl, rfl, rfl, rfl⟩
  rw [setWorker_atPeer]
  constructor
  case placed => exact placed_becomes hb h.placed rfl rfl rfl rfl
  case sockets =>
    exact sockets_becomes hb h.sockets rfl rfl rfl rfl rfl (by rw [hst]; simp) (by simp [setStage])
      (by simp [setStage])
  case published =>
    refine published_becomes hb h.published (fun j b q hq hbq => ?_) (fun j p hp => ?_) (fun j hj => ?_)
    · obtain ⟨p, hp, rfl⟩ := of_getElem?_updated hq
      right
      by_cases hj : w.peerCfg = some j
      · rw [if_pos hj, clearInboundSt] at hbq
        split at hbq
        · exact absurd hbq (by simp)
        · rename_i hne
          exact ⟨⟨p, hp, hbq⟩, fun hbw => absurd (hbw ▸ hbq) hne⟩
      · rw [if_neg hj] at hbq
        exact ⟨⟨p, hp, hbq⟩, fun _ hcfg => absurd hcfg hj⟩
    · refine ⟨_, getElem?_updated_some hp _ _, ?_⟩
      split
      · exact (hclear p).1
      · rfl
    · exact h.published.listed w (List.mem_append_left _ hw) j hj
  case ledger =>
    refine ledger_quiet hb h.ledger rfl rfl rfl (by simp [setStage]) (by simp [setStage])
      fun j q hq => ?_
    obtain ⟨p, hp, rfl⟩ := of_getElem?_updated hq
    refine ⟨p, hp, ?_⟩
    split
    · exact (hclear p).2
    · exact ⟨rfl, rfl, rfl, rfl⟩
  case handle => exact handle_worker h.handle hw rfl rfl rfl rfl rfl

/-- Bytes are counted in the block, and what was moved with them. -/
theorem accounted_traffic {moved : SharedPeer → Nat} {total : SharedPeer → UInt64}
    {bytes : InboundWorker → UInt64} {n : Nat} {g : SharedPeer → SharedPeer}
    (hb : Becomes s t w w' rest) (h : Accounted moved total bytes s)
    (hpeers : t.peers = updated w g s.peers) (hcfg : w'.peerCfg = w.peerCfg)
    (hbytes : bytes w' = bytes w + UInt64.ofNat n) (hmoved : ∀ p, moved (g p) = moved p + n)
    (htotal : ∀ p, total (g p) = total p) : Accounted moved total bytes t := by
  refine accounted_becomes hb h fun j q hq => ?_
  rw [hpeers] at hq
  obtain ⟨p, hp, rfl⟩ := of_getElem?_updated hq
  by_cases hj : w.peerCfg = some j
  · rw [if_pos hj]
    refine ⟨p, n, hp, htotal p, hmoved p, ?_⟩
    rw [hcfg, if_pos hj, if_pos hj, hbytes]
    refine (toNat_add_modEq _ _).trans (Nat.ModEq.add_left _ ?_)
    rw [UInt64.toNat_ofNat']
    exact Nat.mod_modEq n _
  · rw [if_neg hj]
    refine ⟨p, 0, hp, rfl, rfl, ?_⟩
    rw [hcfg, if_neg hj, if_neg hj]

/-- **`traffic`.** -/
theorem inv_traffic (h : Inv s) {k : Nat} (hk : s.running[k]? = some w) (hst : w.stage = .session)
    (inn out : Nat) : Inv ((s.setWorker k (addTraffic inn out)).atPeer w (addMoved inn out)) := by
  have hw : w ∈ s.running := List.mem_of_getElem? hk
  have hb : Becomes s { s with
      running := s.running.modify k (addTraffic inn out)
      peers := updated w (addMoved inn out) s.peers } w (addTraffic inn out w)
      (s.running.eraseIdx k) := ⟨perm_eraseIdx hk, perm_modify hk _, rfl⟩
  have hcfg := h.ledger.known w hw (Or.inr (Or.inr hst))
  have hstage : (addTraffic inn out w).stage = .session := hst
  rw [setWorker_atPeer]
  constructor
  case placed => exact placed_becomes hb h.placed rfl rfl rfl rfl
  case sockets =>
    exact sockets_becomes hb h.sockets rfl rfl rfl rfl rfl (by rw [hst]; simp) (by rw [hstage]; simp)
      (by rw [hstage]; simp)
  case published =>
    refine published_becomes hb h.published (fun j b q hq hbq => ?_) (fun j p hp => ?_) (fun j hj => ?_)
    · obtain ⟨p, hp, rfl⟩ := of_getElem?_updated hq
      right
      refine ⟨⟨p, hp, ?_⟩, fun hbw hcfg hhold => ⟨hbw.symm, hcfg, hhold⟩⟩
      rw [← hbq]
      split <;> rfl
    · refine ⟨_, getElem?_updated_some hp _ _, ?_⟩
      split <;> rfl
    · exact h.published.listed w (List.mem_append_left _ hw) j hj
  case ledger =>
    refine ⟨accounted_traffic hb h.ledger.bytesIn rfl rfl rfl (fun _ => rfl) (fun _ => rfl),
      accounted_traffic hb h.ledger.bytesOut rfl rfl rfl (fun _ => rfl) (fun _ => rfl), ?_, ?_, ?_⟩
    · intro v hv hnone
      rcases hb.mem_after hv with rfl | hv
      · exact absurd hnone hcfg
      · exact h.ledger.unknown v hv hnone
    · intro v hv hearly
      rcases hb.mem_after hv with rfl | hv
      · rw [hstage] at hearly
        simp at hearly
      · exact h.ledger.early v hv hearly
    · intro v hv hknown
      rcases hb.mem_after hv with rfl | hv
      · exact hcfg
      · exact h.ledger.known v hv hknown
  case handle => exact handle_worker h.handle hw rfl rfl rfl rfl rfl

theorem peerFor_eq {peers : List SharedPeer} {id : Str} {j : Nat} (h : peerFor peers id = some j) :
    ∃ p, peers[j]? = some p ∧ deviceIdEqual id p.id = true := by
  obtain ⟨hlt, hid, -⟩ := List.findIdx?_eq_some_iff_getElem.mp h
  exact ⟨peers[j], List.getElem?_eq_getElem hlt, hid⟩

/-- What `verified` leaves alone, and which peer it finds. -/
structure Verified (peers : List SharedPeer) (w w' : InboundWorker) : Prop where
  slot : w'.slot = w.slot
  block : w'.block = w.block
  sock : w'.sock = w.sock
  bytesIn : w'.bytesIn = w.bytesIn
  bytesOut : w'.bytesOut = w.bytesOut
  stage : w'.stage = .done ∨ w'.stage = .authenticated
  peerCfg : ∀ j, w'.peerCfg = some j →
    w.peerCfg = some j ∨ ∃ p, peers[j]? = some p ∧ deviceIdEqual w'.peerActualId p.id = true
  known : w'.stage = .authenticated → w'.peerCfg ≠ none

theorem verified_ok (peers : List SharedPeer) (id : Option Str) (w : InboundWorker) :
    Verified peers w (verified peers id w) := by
  unfold verified
  cases id with
  | none => exact ⟨rfl, rfl, rfl, rfl, rfl, Or.inl rfl, fun j hj => Or.inl hj, fun h => absurd h (by simp)⟩
  | some id =>
    dsimp only
    cases hj : peerFor peers id with
    | none => exact ⟨rfl, rfl, rfl, rfl, rfl, Or.inl rfl, fun j hj => Or.inl hj, fun h => absurd h (by simp)⟩
    | some j =>
      have hfound : ∀ i, some j = some i →
          ∃ p, peers[i]? = some p ∧ deviceIdEqual id p.id = true := by
        rintro i he
        obtain rfl := Option.some.inj he
        exact peerFor_eq hj
      dsimp only
      split
      · exact ⟨rfl, rfl, rfl, rfl, rfl, Or.inl rfl, fun i hi => Or.inr (hfound i hi),
          fun h => absurd h (by simp)⟩
      · exact ⟨rfl, rfl, rfl, rfl, rfl, Or.inr rfl, fun i hi => Or.inr (hfound i hi), fun _ => by simp⟩

/-- **`verify_peer`.** -/
theorem inv_verify (h : Inv s) {k : Nat} (hk : s.running[k]? = some w) (hst : w.stage = .greeted)
    (id : Option Str) : Inv (s.setWorker k (verified s.peers id)) := by
  have hw : w ∈ s.running := List.mem_of_getElem? hk
  have hb := becomes_setWorker hk (verified s.peers id)
  have hv := verified_ok s.peers id w
  have hnone : w.peerCfg = none := h.ledger.early w hw (Or.inr (Or.inr hst))
  obtain ⟨hzin, hzout⟩ := h.ledger.unknown w hw hnone
  have hsum : ∀ bytes : InboundWorker → UInt64, bytes (verified s.peers id w) = 0 → ∀ j,
      (if (verified s.peers id w).peerCfg = some j then (bytes (verified s.peers id w)).toNat else 0) ≡
        (if w.peerCfg = some j then (bytes w).toNat else 0) + 0 [MOD 2 ^ 64] := by
    intro bytes hz j
    have hold : (if w.peerCfg = some j then (bytes w).toNat else 0) = 0 := if_neg (by rw [hnone]; simp)
    rw [hz, hold]
    split <;> rfl
  constructor
  case placed => exact placed_becomes hb h.placed rfl rfl hv.slot hv.block
  case sockets =>
    refine sockets_becomes hb h.sockets rfl rfl rfl rfl hv.sock (by rw [hst]; simp) ?_ ?_
    · rcases hv.stage with hs | hs <;> simp [hs]
    · rcases hv.stage with hs | hs <;> simp [hs]
  case published =>
    refine published_becomes hb h.published (fun j b q hq hbq => ?_) (fun j p hp => ⟨p, hp, rfl⟩)
      (fun j hj => ?_)
    · exact Or.inr ⟨⟨q, hq, hbq⟩, fun _ hcfg => absurd hcfg (by rw [hnone]; simp)⟩
    · rcases hv.peerCfg j hj with hcfg | hp
      · rw [hnone] at hcfg
        exact absurd hcfg (by simp)
      · exact hp
  case ledger =>
    refine ⟨accounted_becomes hb h.ledger.bytesIn fun j q hq => ⟨q, 0, hq, rfl, rfl, ?_⟩,
      accounted_becomes hb h.ledger.bytesOut fun j q hq => ⟨q, 0, hq, rfl, rfl, ?_⟩, ?_, ?_, ?_⟩
    · exact hsum _ (hv.bytesIn.trans hzin) j
    · exact hsum _ (hv.bytesOut.trans hzout) j
    · intro v hv' hn
      rcases hb.mem_after hv' with rfl | hv'
      · exact ⟨hv.bytesIn.trans hzin, hv.bytesOut.trans hzout⟩
      · exact h.ledger.unknown v hv' hn
    · intro v hv' he
      rcases hb.mem_after hv' with rfl | hv'
      · rcases hv.stage with hs | hs
        · rw [hs] at he
          simp at he
        · rw [hs] at he
          simp at he
      · exact h.ledger.early v hv' he
    · intro v hv' hkn
      rcases hb.mem_after hv' with rfl | hv'
      · rcases hv.stage with hs | hs
        · rw [hs] at hkn
          simp at hkn
        · exact hv.known hs
      · exact h.ledger.known v hv' hkn
  case handle => exact handle_worker h.handle hw rfl rfl rfl rfl rfl

/-! ## Steps with a socket -/

/-- The rest of the invariant, for a step that has only to do with the socket. -/
theorem inv_socket (h : Inv s) {r : List InboundWorker} {tab cl lo : List Nat}
    (hb : Becomes s { s with running := r, table := tab, closed := cl, lost := lo } w w' rest)
    (hslot : w'.slot = w.slot) (hblock : w'.block = w.block) (hcfg : w'.peerCfg = w.peerCfg)
    (hactual : w'.peerActualId = w.peerActualId) (hin : w'.bytesIn = w.bytesIn)
    (hout : w'.bytesOut = w.bytesOut) (hhold : ¬ Holding w.stage)
    (hearly : w'.stage = .started ∨ w'.stage = .adopted ∨ w'.stage = .greeted → w.peerCfg = none)
    (hknown : w'.stage ≠ .authenticated ∧ w'.stage ≠ .connected ∧ w'.stage ≠ .session)
    (hsockets : Sockets { s with running := r, table := tab, closed := cl, lost := lo }) :
    Inv { s with running := r, table := tab, closed := cl, lost := lo } := by
  have hw : w ∈ s.running := hb.before.mem_iff.mpr List.mem_cons_self
  have hsame : ∀ (bytes : InboundWorker → UInt64), bytes w' = bytes w → ∀ j,
      (if w'.peerCfg = some j then (bytes w').toNat else 0) ≡
        (if w.peerCfg = some j then (bytes w).toNat else 0) + 0 [MOD 2 ^ 64] := by
    intro bytes he j
    rw [hcfg, he]
    rfl
  constructor
  case placed => exact placed_becomes hb h.placed rfl rfl hslot hblock
  case sockets => exact hsockets
  case published =>
    refine published_becomes hb h.published (fun j b q hq hbq => ?_) (fun j p hp => ⟨p, hp, rfl⟩)
      (fun j hj => ?_)
    · exact Or.inr ⟨⟨q, hq, hbq⟩, fun _ _ hst => absurd hst hhold⟩
    · rw [hcfg] at hj
      rw [hactual]
      exact h.published.listed w (List.mem_append_left _ hw) j hj
  case ledger =>
    refine ⟨accounted_becomes hb h.ledger.bytesIn fun j q hq => ⟨q, 0, hq, rfl, rfl, hsame _ hin j⟩,
      accounted_becomes hb h.ledger.bytesOut fun j q hq => ⟨q, 0, hq, rfl, rfl, hsame _ hout j⟩, ?_, ?_, ?_⟩
    · intro v hv hn
      rcases hb.mem_after hv with rfl | hv
      · rw [hin, hout]
        exact h.ledger.unknown w hw (hcfg ▸ hn)
      · exact h.ledger.unknown v hv hn
    · intro v hv he
      rcases hb.mem_after hv with rfl | hv
      · rw [hcfg]
        exact hearly he
      · exact h.ledger.early v hv he
    · intro v hv hkn
      rcases hb.mem_after hv with rfl | hv
      · rcases hkn with hk | hk | hk
        · exact absurd hk hknown.1
        · exact absurd hk hknown.2.1
        · exact absurd hk hknown.2.2
      · exact h.ledger.known v hv hkn
  case handle => exact handle_worker h.handle hw rfl rfl rfl rfl rfl

/-- The socket of a worker that has just been started is in the table. -/
theorem waiting_socket (h : Sockets s) (hb : s.running.Perm (w :: rest)) (hst : w.stage = .started) :
    s.table.Perm (w.socketId :: s.table.erase w.socketId) ∧
      (s.table.erase w.socketId).Perm
        ((rest.filter fun v => v.stage = .started).map InboundWorker.socketId ++ s.lost) := by
  have hwait : s.table.Perm
      (w.socketId :: ((rest.filter fun v => v.stage = .started).map InboundWorker.socketId ++ s.lost)) := by
    refine h.table.trans ?_
    refine (((hb.filter _).map _).append_right s.lost).trans ?_
    rw [List.filter_cons, if_pos (by simpa using hst), List.map_cons, List.cons_append]
  have hmem : w.socketId ∈ s.table := hwait.mem_iff.mpr List.mem_cons_self
  have hcut := List.perm_cons_erase hmem
  exact ⟨hcut, (hcut.symm.trans hwait).cons_inv⟩

/-- The others are as they were. -/
theorem others_ok {P : InboundWorker → Prop} (hb : Becomes s t w w' rest) (h : ∀ v ∈ s.running, P v)
    (hw' : P w') : ∀ v ∈ t.running, P v := by
  intro v hv
  rcases hb.mem_after hv with rfl | hv
  · exact hw'
  · exact h v hv

theorem socks_cons_none (h : w.sock = none) : (w :: rest).filterMap InboundWorker.sock =
    rest.filterMap InboundWorker.sock := List.filterMap_cons_none h

/-- **`ObtainSocket`.** The socket goes from the table to the worker. -/
theorem inv_obtain (h : Inv s) {k : Nat} (hk : s.running[k]? = some w) (hst : w.stage = .started) :
    Inv { s.setWorker k (setSock (some w.socketId) .adopted) with table := s.table.erase w.socketId } := by
  have hw : w ∈ s.running := List.mem_of_getElem? hk
  have hb : Becomes s { s with
      running := s.running.modify k (setSock (some w.socketId) .adopted)
      table := s.table.erase w.socketId
      closed := s.closed
      lost := s.lost } w (setSock (some w.socketId) .adopted w) (s.running.eraseIdx k) :=
    ⟨perm_eraseIdx hk, perm_modify hk _, rfl⟩
  have hnone := h.sockets.started w hw hst
  obtain ⟨hcut, hwait⟩ := waiting_socket h.sockets hb.before hst
  refine inv_socket h hb rfl rfl rfl rfl rfl rfl (by rw [hst]; simp [Holding])
    (fun _ => h.ledger.early w hw (Or.inl hst)) (by simp [setSock]) ⟨?_, ?_, ?_, ?_⟩
  · refine List.Perm.trans ?_ h.sockets.each
    refine List.Perm.append_right _ ?_
    refine ((hb.after.filterMap _).append_left _).trans ?_
    refine List.Perm.trans ?_ (((hcut.append_right _).trans
      (((hb.before.filterMap _).append_left _))).symm)
    have hsock : (setSock (some w.socketId) .adopted w).sock = some w.socketId := rfl
    rw [socks_cons_none hnone, List.filterMap_cons_some hsock]
    exact List.perm_middle
  · refine hwait.trans (List.Perm.append_right _ ?_)
    refine List.Perm.trans ?_ ((hb.after.filter _).map _).symm
    rw [List.filter_cons, if_neg (by simp [setSock])]
  · refine others_ok hb (P := fun v => v.stage = .started → v.sock = none) h.sockets.started ?_
    exact fun hs => absurd hs (by simp [setSock])
  · refine others_ok hb (P := fun v => v.stage = .closed → v.sock = none) h.sockets.closed ?_
    exact fun hs => absurd hs (by simp [setSock])

/-- Neither the socket nor its stage is of interest to the table. -/
theorem waiting_after {lo : List Nat} {stage : Stage} (hb : Becomes s t w (setStage stage w) rest)
    (hstage : stage ≠ .started) :
    (((t.running.filter fun v => v.stage = .started).map InboundWorker.socketId) ++ lo).Perm
      (((rest.filter fun v => v.stage = .started).map InboundWorker.socketId) ++ lo) := by
  refine (((hb.after.filter _).map _).append_right lo).trans ?_
  rw [List.filter_cons, if_neg (by rw [decide_eq_true_eq]; exact hstage)]

/-- **`discard_handoff`.** The socket is closed. -/
theorem inv_discard (h : Inv s) {k : Nat} (hk : s.running[k]? = some w) (hst : w.stage = .started) :
    Inv { s.setWorker k (setStage .done) with
      table := s.table.erase w.socketId
      closed := s.closed ++ [w.socketId] } := by
  have hw : w ∈ s.running := List.mem_of_getElem? hk
  have hb : Becomes s { s with
      running := s.running.modify k (setStage .done)
      table := s.table.erase w.socketId
      closed := s.closed ++ [w.socketId]
      lost := s.lost } w (setStage .done w) (s.running.eraseIdx k) :=
    ⟨perm_eraseIdx hk, perm_modify hk _, rfl⟩
  have hnone := h.sockets.started w hw hst
  obtain ⟨hcut, hwait⟩ := waiting_socket h.sockets hb.before hst
  refine inv_socket h hb rfl rfl rfl rfl rfl rfl (by rw [hst]; simp [Holding])
    (fun _ => h.ledger.early w hw (Or.inl hst)) (by simp [setStage]) ⟨?_, ?_, ?_, ?_⟩
  · refine List.Perm.trans ?_ h.sockets.each
    have hsocks : ((setStage .done w :: s.running.eraseIdx k).filterMap InboundWorker.sock) =
        (w :: s.running.eraseIdx k).filterMap InboundWorker.sock := rfl
    refine (((hb.after.filterMap _).append_left _).append_right _).trans ?_
    refine List.Perm.trans ?_ ((((hcut.append_right _).trans
      ((hb.before.filterMap _).append_left _)).append_right _).symm)
    rw [hsocks, List.cons_append, List.cons_append, ← List.append_assoc]
    exact (List.perm_append_singleton _ _)
  · exact hwait.trans (waiting_after hb (by simp)).symm
  · refine others_ok hb (P := fun v => v.stage = .started → v.sock = none) h.sockets.started ?_
    exact fun hs => absurd hs (by simp [setStage])
  · refine others_ok hb (P := fun v => v.stage = .closed → v.sock = none) h.sockets.closed ?_
    exact fun hs => absurd hs (by simp [setStage])

/-- The socket stays in the table for good. -/
theorem inv_lost (h : Inv s) {k : Nat} (hk : s.running[k]? = some w) (hst : w.stage = .started) :
    Inv { s.setWorker k (setStage .done) with lost := s.lost ++ [w.socketId] } := by
  have hw : w ∈ s.running := List.mem_of_getElem? hk
  have hb : Becomes s { s with
      running := s.running.modify k (setStage .done)
      table := s.table
      closed := s.closed
      lost := s.lost ++ [w.socketId] } w (setStage .done w) (s.running.eraseIdx k) :=
    ⟨perm_eraseIdx hk, perm_modify hk _, rfl⟩
  obtain ⟨hcut, hwait⟩ := waiting_socket h.sockets hb.before hst
  refine inv_socket h hb rfl rfl rfl rfl rfl rfl (by rw [hst]; simp [Holding])
    (fun _ => h.ledger.early w hw (Or.inl hst)) (by simp [setStage]) ⟨?_, ?_, ?_, ?_⟩
  · refine List.Perm.trans ?_ h.sockets.each
    refine List.Perm.append_right _ (List.Perm.append_left _ ?_)
    have hsocks : ((setStage .done w :: s.running.eraseIdx k).filterMap InboundWorker.sock) =
        (w :: s.running.eraseIdx k).filterMap InboundWorker.sock := rfl
    have hafter := hb.after.filterMap InboundWorker.sock
    rw [hsocks] at hafter
    exact hafter.trans (hb.before.filterMap _).symm
  · refine (hcut.trans (hwait.cons _)).trans ?_
    refine List.Perm.trans ?_ (waiting_after hb (by simp)).symm
    rw [← List.append_assoc]
    exact (List.perm_append_singleton _ _).symm
  · refine others_ok hb (P := fun v => v.stage = .started → v.sock = none) h.sockets.started ?_
    exact fun hs => absurd hs (by simp [setStage])
  · refine others_ok hb (P := fun v => v.stage = .closed → v.sock = none) h.sockets.closed ?_
    exact fun hs => absurd hs (by simp [setStage])

/-- **`net_close`.** -/
theorem inv_close (h : Inv s) {k : Nat} (hk : s.running[k]? = some w) (hst : w.stage = .withdrawn) :
    Inv { s.setWorker k (setSock none .closed) with closed := s.closed ++ w.sock.toList } := by
  have hb : Becomes s { s with
      running := s.running.modify k (setSock none .closed)
      table := s.table
      closed := s.closed ++ w.sock.toList
      lost := s.lost } w (setSock none .closed w) (s.running.eraseIdx k) :=
    ⟨perm_eraseIdx hk, perm_modify hk _, rfl⟩
  refine inv_socket h hb rfl rfl rfl rfl rfl rfl (by rw [hst]; simp [Holding])
    (by simp [setSock]) (by simp [setSock]) ⟨?_, ?_, ?_, ?_⟩
  · refine List.Perm.trans ?_ h.sockets.each
    refine (((hb.after.filterMap _).append_left _).append_right _).trans ?_
    refine List.Perm.trans ?_ (((hb.before.filterMap _).append_left _).append_right _).symm
    rw [socks_cons_none rfl, List.append_assoc, List.append_assoc]
    refine List.Perm.append_left _ ?_
    cases hsock : w.sock with
    | none =>
      rw [socks_cons_none hsock, Option.toList_none, List.append_nil]
    | some x =>
      rw [List.filterMap_cons_some hsock, Option.toList_some, ← List.append_assoc]
      exact List.perm_append_singleton _ _
  · refine h.sockets.table.trans (List.Perm.append_right _ (List.Perm.map _ ?_))
    refine (hb.before.filter _).trans (List.Perm.trans ?_ (hb.after.filter _).symm)
    rw [List.filter_cons, List.filter_cons, if_neg (by simp [hst]), if_neg (by simp [setSock])]
  · refine others_ok hb (P := fun v => v.stage = .started → v.sock = none) h.sockets.started ?_
    exact fun hs => absurd hs (by simp [setSock])
  · refine others_ok hb (P := fun v => v.stage = .closed → v.sock = none) h.sockets.closed ?_
    exact fun _ => rfl

/-- **`ReplyMsg`.** -/
theorem inv_reply (h : Inv s) {k : Nat} (hk : s.running[k]? = some w) (hst : w.stage = .closed) :
    Inv { s with running := s.running.eraseIdx k, port := s.port ++ [w] } := by
  have hw : w ∈ s.running := List.mem_of_getElem? hk
  have hcut := perm_eraseIdx hk
  have hsub : ∀ v ∈ s.running.eraseIdx k, v ∈ s.running :=
    fun v hv => hcut.mem_iff.mpr (List.mem_cons_of_mem w hv)
  have hworkers : (s.running.eraseIdx k ++ (s.port ++ [w])).Perm s.workers := by
    refine List.Perm.trans ?_ (hcut.append_right s.port).symm
    rw [← List.append_assoc]
    exact List.perm_append_singleton w _
  constructor
  case placed => exact placed_of_perm h.placed rfl rfl (hworkers.map placed)
  case sockets =>
    refine ⟨?_, ?_, fun v hv => h.sockets.started v (hsub v hv), fun v hv => h.sockets.closed v (hsub v hv)⟩
    · refine List.Perm.trans ?_ h.sockets.each
      refine List.Perm.append_right _ (List.Perm.append_left _ ?_)
      refine List.Perm.trans ?_ (hcut.filterMap _).symm
      rw [socks_cons_none (h.sockets.closed w hw hst)]
    · refine h.sockets.table.trans (List.Perm.append_right _ (List.Perm.map _ ?_))
      refine (hcut.filter _).trans ?_
      rw [List.filter_cons, if_neg (by simp [hst])]
  case published =>
    constructor
    · intro j b p hp hbp
      obtain ⟨v, hv, hvb, hcfg, hhold⟩ := h.published.live j b p hp hbp
      rcases List.mem_cons.mp (hcut.mem_iff.mp hv) with rfl | hv
      · rw [hst] at hhold
        exact absurd hhold (by simp [Holding])
      · exact ⟨v, hv, hvb, hcfg, hhold⟩
    · exact fun v hv => h.published.listed v (hworkers.mem_iff.mp hv)
  case ledger =>
    exact ⟨accounted_same h.ledger.bytesIn rfl fun j => owing_perm _ j hworkers,
      accounted_same h.ledger.bytesOut rfl fun j => owing_perm _ j hworkers,
      fun v hv => h.ledger.unknown v (hsub v hv), fun v hv => h.ledger.early v (hsub v hv),
      fun v hv => h.ledger.known v (hsub v hv)⟩
  case handle => exact handle_worker h.handle hw rfl rfl rfl rfl rfl

theorem of_enabled {st : Stage} {u : State} (h : (if w.stage ≠ st then none else some u) = some t) :
    w.stage = st ∧ u = t := by
  split at h
  · exact absurd h (by simp)
  · rename_i hst
    exact ⟨not_not.mp hst, Option.some.inj h⟩

/-- **A worker's step.** -/
theorem inv_advance (h : Inv s) {k : Nat} (hk : s.running[k]? = some w) (e : WorkerEvent)
    (hstep : s.advance k w e = some t) : Inv t := by
  have hb := fun f => becomes_setWorker hk f
  cases e with
  | noSsl adopt =>
    obtain ⟨hst, rfl⟩ := of_enabled hstep
    cases adopt with
    | true => exact inv_discard h hk hst
    | false => exact inv_lost h hk hst
  | obtain ok =>
    obtain ⟨hst, rfl⟩ := of_enabled hstep
    cases ok with
    | true => exact inv_obtain h hk hst
    | false => exact inv_lost h hk hst
  | greet ok =>
    obtain ⟨hst, rfl⟩ := of_enabled hstep
    refine inv_quiet h (hb _) ⟨rfl, rfl, rfl, rfl, rfl, rfl, rfl, by rw [hst]; simp, ?_, ?_, ?_, ?_⟩
      (samePeers_refl _)
    · cases ok <;> simp [setStage]
    · rw [hst]
      simp [Holding]
    · exact fun _ => Or.inl hst
    · cases ok <;> simp [setStage]
  | verify id =>
    obtain ⟨hst, rfl⟩ := of_enabled hstep
    exact inv_verify h hk hst id
  | handshake ok =>
    obtain ⟨hst, rfl⟩ := of_enabled hstep
    cases ok with
    | true =>
      exact inv_quiet h (hb _) ⟨rfl, rfl, rfl, rfl, rfl, rfl, rfl, by rw [hst]; simp, by simp [setConnected],
        by rw [hst]; simp [Holding], by simp [setConnected], fun _ => Or.inl hst⟩ (samePeers_refl _)
    | false =>
      exact inv_quiet h (hb _) ⟨rfl, rfl, rfl, rfl, rfl, rfl, rfl, by rw [hst]; simp, by simp [setStage],
        by rw [hst]; simp [Holding], by simp [setStage], by simp [setStage]⟩ (samePeers_refl _)
  | publish =>
    obtain ⟨hst, rfl⟩ := of_enabled hstep
    exact inv_publish h hk hst
  | traffic inn out =>
    obtain ⟨hst, rfl⟩ := of_enabled hstep
    exact inv_traffic h hk hst inn out
  | finish resync =>
    obtain ⟨hst, rfl⟩ := of_enabled hstep
    exact inv_quiet h (hb _) ⟨rfl, rfl, rfl, rfl, rfl, rfl, rfl, by rw [hst]; simp, by simp [setResync],
      fun _ => Or.inr (Or.inl rfl), by simp [setResync], by simp [setResync]⟩ (samePeers_refl _)
  | owe =>
    obtain ⟨hst, rfl⟩ := of_enabled hstep
    rw [setWorker_atPeer]
    exact inv_quiet h ⟨perm_eraseIdx hk, perm_modify hk _, rfl⟩ ⟨rfl, rfl, rfl, rfl, rfl, rfl, rfl,
      by rw [hst]; simp, by simp [setStage], fun _ => Or.inr (Or.inr rfl), by simp [setStage],
      by simp [setStage]⟩ (samePeers_updated (g := setResyncing _) (fun p => ⟨rfl, rfl, rfl, rfl, rfl, rfl⟩)
        w s.peers)
  | withdraw =>
    obtain ⟨hst, rfl⟩ := of_enabled hstep
    exact inv_withdraw h hk hst
  | close =>
    obtain ⟨hst, rfl⟩ := of_enabled hstep
    exact inv_close h hk hst
  | reply =>
    obtain ⟨hst, rfl⟩ := of_enabled hstep
    exact inv_reply h hk hst

end Worker

end Amisync.Listener

import Amisync.DeviceCodec
import Amisync.Lib.Machine
import Amisync.PeerCalls

/-!
# Runs of the peer manager

The daemon's calls in any order, and workers that end at any time or do not come to be.

* `step`: one call, one turn of the loop that takes the replies, or one worker that replies.
* `inv_step`, `inv_run`: the table holds after each run.
* `signalled_running`: what is signalled has not replied.
* `peer_table_safe`: what the table is after each run.
-/

namespace Amisync.Peer

open Ctype ConfigFile

/-! ## The start -/

/-- What a config gives. -/
theorem configLoad_peers (file : Option Str) :
    (configLoad file configDefaults).peers.length ≤ configMaxPeers ∧
      none ∉ (configLoad file configDefaults).peers.map peerKey ∧
      ((configLoad file configDefaults).peers.map peerKey).Nodup := by
  cases file with
  | none => exact ⟨Nat.zero_le _, List.not_mem_nil, List.nodup_nil⟩
  | some text =>
    unfold configLoad
    dsimp only
    rw [peers_foldl]
    refine ⟨Roster.length_run_le (Nat.zero_le _) _, ?_, Roster.nodup_run (l := []) List.nodup_nil _⟩
    intro hmem
    obtain ⟨p, hp, hkey⟩ := List.mem_map.mp hmem
    rcases Roster.mem_of_run hp with hold | hnew
    · exact List.not_mem_nil hold
    · obtain ⟨line, -, hline⟩ := List.mem_filterMap.mp hnew
      obtain ⟨kv, -, hkv⟩ := Option.bind_eq_some_iff.mp hline
      split at hkv
      · exact (peerKey_of_token hkv).2 hkey
      · exact absurd hkv (by simp)

theorem table_peerManagerCreate {peers : List ConfigPeer} (hlen : peers.length ≤ configMaxPeers)
    (hvalid : none ∉ peers.map peerKey) (hdistinct : (peers.map peerKey).Nodup) :
    Table [] (PeerState.peerManagerCreate peers) := by
  have hkeys : (PeerState.peerManagerCreate peers).ids.map deviceIdNormalize = peers.map peerKey :=
    List.map_map.trans List.map_map
  constructor
  case aligned =>
    have hplace : ∀ x : ConfigPeer × Nat, (slotSetAddr x.1.host x.1.port
        { emptySlot with cfg := x.2, backoff := peerBackoffMin }).cfg = x.2 :=
      fun x => slotSetAddr_cfg _ _ _
    have hlength : (PeerState.peerManagerCreate peers).cfg.length = peers.length := List.length_map _
    rw [hlength, List.range_eq_range', ← List.zipIdx_map_snd]
    refine List.map_map.trans ?_
    exact List.map_congr_left fun x _ => hplace x
  case room => exact (List.length_map _).trans_le hlen
  case valid => exact hkeys ▸ hvalid
  case distinct => exact hkeys ▸ hdistinct
  case stable => exact List.nil_prefix
  case pool =>
    have hnone : (PeerState.peerManagerCreate peers).slots.map PeerSlot.proc = List.replicate peers.length none := by
      refine List.eq_replicate_iff.mpr ⟨by simp [PeerState.peerManagerCreate], ?_⟩
      intro b hb
      obtain ⟨slot, hslot, rfl⟩ := List.mem_map.mp hb
      obtain ⟨x, -, rfl⟩ := List.mem_map.mp hslot
      exact slotSetAddr_proc _ _ _
    rw [hnone]
    exact Pool.init peers.length
  case logged =>
    intro w hw
    exact absurd hw List.not_mem_nil
  case allowed =>
    intro x hx
    exact absurd hx List.not_mem_nil

theorem free_peerManagerCreate (peers : List ConfigPeer) (i : Nat) : Free (PeerState.peerManagerCreate peers) i := by
  intro slot p he
  obtain ⟨hslot, hp⟩ := entry_eq_some.mp he
  obtain ⟨x, -, rfl⟩ := List.mem_map.mp (List.mem_of_getElem? hslot)
  obtain ⟨q, -, rfl⟩ := List.mem_map.mp (List.mem_of_getElem? hp)
  exact ⟨slotSetAddr_proc _ _ _, rfl, rfl, rfl⟩

/-! ## Runs -/

/-- What the daemon's task is at. In `handling` it takes replies, and where a signal is to follow it
drains the port with `Forbid` then. -/
inductive Task
  | created
  | idle
  | handling (signal : Option PmWho)
  | locked (who : PmWho)
  deriving DecidableEq

structure Manager where
  task : Task
  pm : PeerState

/-- `turn` and `drain` go on with a call. `exit` is a worker that replies, whatever the task is at. -/
inductive Event
  | start (o : Nat → SpawnOutcome)
  | add (id host : Str) (port : Nat) (o : SpawnOutcome)
  | remove (id : Str)
  | pause (id : Str)
  | resume (id : Str) (o : Nat → SpawnOutcome)
  | discovered (id host : Str) (port : Nat) (o : SpawnOutcome)
  | retry (o : Nat → SpawnOutcome)
  | handle
  | rescan
  | shutdown
  | turn (o : SpawnOutcome)
  | drain
  | exit (k : Nat) (f : Finished)

def call (s : PeerState) : Event → Option Manager
  | .add id host port o => some ⟨.idle, (s.peerManagerAdd id host port o).2⟩
  | .remove id =>
    let r := s.peerManagerRemove id
    some ⟨if r.1 = 0 then .idle else .handling (some .removed), r.2⟩
  | .pause id => some ⟨.handling (some .paused), (s.peerPause id).2⟩
  | .resume id o => some ⟨.idle, (s.peerResume id o).2⟩
  | .discovered id host port o => some ⟨.idle, s.peerManagerDiscovered id host port o⟩
  | .retry o => some ⟨.idle, s.peerManagerRetry o⟩
  | .handle => some ⟨.handling none, s⟩
  | .rescan => some ⟨.handling (some .all), s⟩
  -- it then waits: it handles replies until no slot has a worker
  | .shutdown => some ⟨.handling (some .all), { s with shuttingDown := true }⟩
  | _ => none

/-- A turn of `while ((m = GetMsg(pm->port)) != NULL)`. -/
def turn (s : PeerState) (signal : Option PmWho) (o : SpawnOutcome) : Manager :=
  match s.port with
  | [] => ⟨match signal with
      | none => .idle
      | some who => .locked who, s⟩
  | (w, f) :: rest => ⟨.handling signal, PeerState.reap { s with port := rest } w f o⟩

def step (m : Manager) (e : Event) : Option Manager :=
  match e with
  | .exit k f => some { m with pm := m.pm.reply k f }
  | .start o => if m.task = .created then some ⟨.idle, m.pm.peerManagerStart o⟩ else none
  | .turn o =>
    match m.task with
    | .handling signal => some (turn m.pm signal o)
    | _ => none
  | .drain =>
    match m.task with
    | .locked _ => some ⟨.idle, m.pm.pmDrainLocked⟩
    | _ => none
  | e => if m.task = .idle then call m.pm e else none

def boot (file : Option Str) : Manager :=
  ⟨.created, PeerState.peerManagerCreate (configLoad file configDefaults).peers⟩

/-- Before the start, no slot has a worker and no peer is paused. -/
structure Inv (ids : List Str) (m : Manager) : Prop where
  table : Table ids m.pm
  fresh : m.task = .created → ∀ i, Free m.pm i

theorem inv_boot (file : Option Str) : Inv [] (boot file) where
  table :=
    have hconfig := configLoad_peers file
    table_peerManagerCreate hconfig.1 hconfig.2.1 hconfig.2.2
  fresh _ := free_peerManagerCreate _

section Step
variable {ids : List Str} {s : PeerState}

theorem inv_call (h : Table ids s) {e : Event} {m : Manager} (hcall : call s e = some m) : Inv ids m := by
  cases e <;> simp only [call, Option.some.injEq, reduceCtorEq] at hcall
  case add id host port o =>
    subst hcall
    exact ⟨table_peerManagerAdd h id host port o, nofun⟩
  case remove id =>
    subst hcall
    refine ⟨table_peerManagerRemove h id, ?_⟩
    dsimp only
    split <;> exact nofun
  case pause id =>
    subst hcall
    exact ⟨table_peerPause h id, nofun⟩
  case resume id o =>
    subst hcall
    exact ⟨table_peerResume h id o, nofun⟩
  case discovered id host port o =>
    subst hcall
    exact ⟨table_peerManagerDiscovered h id host port o, nofun⟩
  case retry o =>
    subst hcall
    exact ⟨table_peerManagerRetry h o, nofun⟩
  case handle =>
    subst hcall
    exact ⟨h, nofun⟩
  case rescan =>
    subst hcall
    exact ⟨h, nofun⟩
  case shutdown =>
    subst hcall
    exact ⟨h.same rfl rfl rfl (List.Perm.refl _) rfl, nofun⟩

theorem inv_turn (h : Table ids s) (signal : Option PmWho) (o : SpawnOutcome) : Inv ids (turn s signal o) := by
  unfold turn
  split
  · refine ⟨h, ?_⟩
    cases signal <;> exact nofun
  · rename_i w f rest hport
    exact ⟨table_reap h hport o, nofun⟩

/-- **Step.** -/
theorem inv_step (m : Manager) (e : Event) (m' : Manager) (h : Inv ids m)
    (hstep : step m e = some m') : Inv ids m' := by
  unfold step at hstep
  split at hstep
  · rename_i k f
    obtain rfl := Option.some.inj hstep
    refine ⟨table_reply h.table k f, ?_⟩
    intro htask i
    have hfree := h.fresh htask i
    unfold PeerState.reply
    dsimp only
    split <;> exact hfree
  · rename_i o
    split at hstep
    · rename_i htask
      obtain rfl := Option.some.inj hstep
      exact ⟨table_peerManagerStart h.table (h.fresh htask) o, nofun⟩
    · exact absurd hstep nofun
  · rename_i o
    split at hstep
    · obtain rfl := Option.some.inj hstep
      exact inv_turn h.table _ o
    · exact absurd hstep nofun
  · split at hstep
    · obtain rfl := Option.some.inj hstep
      exact ⟨table_pmDrainLocked h.table, nofun⟩
    · exact absurd hstep nofun
  · split at hstep
    · exact inv_call h.table hstep
    · exact absurd hstep nofun

end Step

/-- **Run.** -/
theorem inv_run {file : Option Str} {es : List Event} {m : Manager}
    (hrun : Machine.run step (boot file) es = some m) : Inv [] m :=
  Machine.run_inv inv_step hrun (inv_boot file)

/-- The ids stay where they are. -/
theorem ids_prefix {file : Option Str} {es fs : List Event} {m m' : Manager}
    (hrun : Machine.run step (boot file) es = some m) (hmore : Machine.run step m fs = some m') :
    m.pm.ids <+: m'.pm.ids := by
  have h := inv_run hrun
  have hnow : Inv m.pm.ids m := ⟨{ h.table with stable := List.prefix_refl _ }, h.fresh⟩
  exact (Machine.run_inv inv_step hmore hnow).table.stable

/-! ## The table -/

section Safe
variable {ids : List Str} {s : PeerState} (h : Table ids s)
include h

theorem ids_differ {i j : Nat} {p q : RunPeer} (hp : s.cfg[i]? = some p) (hq : s.cfg[j]? = some q) (hij : i ≠ j) :
    deviceIdEqual p.id q.id = false := by
  rw [← Bool.not_eq_true]
  intro hequal
  have hqid : deviceIdNormalize q.id ≠ none := by
    intro hnone
    refine h.valid (List.mem_map.mpr ⟨q.id, ?_, hnone⟩)
    exact List.mem_map_of_mem (List.mem_of_getElem? hq)
  exact hij (index_of_key h hp hq ((deviceIdEqual_valid hqid p.id).mp hequal))

theorem workers_count (i : Nat) : (s.workers.filter fun w => w.startup.slot = i).length ≤ 1 := by
  have hcount := h.pool.count_le_one i
  rw [List.map_map, List.count_eq_length_filter, List.filter_map, List.length_map] at hcount
  refine le_trans (Nat.le_of_eq (congrArg List.length (List.filter_congr fun w _ => ?_))) hcount
  rw [Bool.eq_iff_iff, decide_eq_true_iff]
  exact beq_iff_eq.symm

theorem slot_of_worker {w : Worker} (hw : w ∈ s.workers) :
    ∃ slot, s.slots[w.startup.slot]? = some slot ∧ slot.proc = some w := by
  have howner := h.pool.owner (placed w) (List.mem_map_of_mem hw)
  rw [List.getElem?_map] at howner
  exact Option.map_eq_some_iff.mp howner

theorem worker_of_slot {i : Nat} {slot : PeerSlot} {w : Worker} (hi : s.slots[i]? = some slot)
    (hw : slot.proc = some w) : w ∈ s.workers ∧ w.startup.slot = i := by
  have hmem := h.pool.busy i w (by rw [List.getElem?_map, hi, Option.map_some, hw])
  obtain ⟨v, hv, he⟩ := List.mem_map.mp hmem
  obtain ⟨hslot, rfl⟩ := Prod.mk.inj he
  exact ⟨hv, hslot⟩

/-- After the drain, what is signalled has not replied. -/
theorem running_of_signalled {who : PmWho} {w : Worker} (hw : w ∈ s.pmDrainLocked.signalled who) :
    w ∈ s.pmDrainLocked.running := by
  obtain ⟨i, -, hi⟩ := List.mem_filterMap.mp hw
  obtain ⟨⟨slot, p⟩, he, hproc⟩ := Option.bind_eq_some_iff.mp hi
  have hheld : slot.proc = some w := by
    cases who with
    | all => exact hproc
    | paused => exact (Option.ite_none_right_eq_some.mp hproc).2
    | removed => exact (Option.ite_none_right_eq_some.mp hproc).2
  have hmem := (worker_of_slot (table_pmDrainLocked h) (entry_eq_some.mp he).1 hheld).1
  rcases List.mem_append.mp hmem with hrunning | hport
  · exact hrunning
  · rw [port_pmDrainLocked] at hport
    exact absurd hport List.not_mem_nil

end Safe

theorem signalled_running {file : Option Str} {es : List Event} {m : Manager}
    (hrun : Machine.run step (boot file) es = some m) (who : PmWho) :
    m.pm.pmDrainLocked.signalled who ⊆ m.pm.pmDrainLocked.running :=
  fun _ hw => running_of_signalled (inv_run hrun).table hw

/-- What the table is to be. Each slot has one worker at most, which is the one that it knows, and every
worker was allowed when it was started. -/
structure Safe (s : PeerState) : Prop where
  count : s.slots.length = s.cfg.length
  room : s.cfg.length ≤ configMaxPeers
  place : ∀ (i : Nat) (slot : PeerSlot), s.slots[i]? = some slot → slot.cfg = i
  apart : ∀ (i j : Nat) (p q : RunPeer),
    s.cfg[i]? = some p → s.cfg[j]? = some q → i ≠ j → deviceIdEqual p.id q.id = false
  single : ∀ i : Nat, (s.workers.filter fun w => w.startup.slot = i).length ≤ 1
  known : ∀ w ∈ s.workers, ∃ slot, s.slots[w.startup.slot]? = some slot ∧ slot.proc = some w
  about : ∀ (i : Nat) (slot : PeerSlot) (w : Worker),
    s.slots[i]? = some slot → slot.proc = some w → w ∈ s.workers ∧ w.startup.slot = i
  logged : ∀ w ∈ s.workers, ∃ x ∈ s.spawned, x.worker = w
  allowed : ∀ x ∈ s.spawned, x.paused = false ∧ x.removed = false ∧ x.shuttingDown = false

/-- Where its peer is removed, the slot is there for the device when it is added again. -/
def Kept (s : PeerState) (i : Nat) (p : RunPeer) : Prop :=
  p.removed = true → ∀ id host port o, deviceIdEqual p.id id = true →
    (s.peerManagerAdd id host port o).1 = 1 ∧
    (s.peerManagerAdd id host port o).2.slots.length = s.slots.length ∧
    ∃ q, (s.peerManagerAdd id host port o).2.cfg[i]? = some q ∧
      q.id = p.id ∧ q.removed = false ∧ q.paused = false

/-- **The peer table.** It is safe after each run, and a device keeps its slot, also when it is removed and
added again. -/
theorem peer_table_safe (file : Option Str) (es : List Event) {m : Manager}
    (hrun : Machine.run step (boot file) es = some m) :
    Safe m.pm ∧
    ∀ fs m', Machine.run step m fs = some m' → ∀ (i : Nat) (p : RunPeer), m.pm.cfg[i]? = some p →
      ∃ q, m'.pm.cfg[i]? = some q ∧ q.id = p.id ∧ Kept m'.pm i q := by
  have h := (inv_run hrun).table
  constructor
  · exact {
      count := length_slots h
      room := h.room
      place := fun i slot hi => slot_cfg h hi
      apart := fun i j p q hp hq hij => ids_differ h hp hq hij
      single := workers_count h
      known := fun w hw => slot_of_worker h hw
      about := fun i slot w hi hw => worker_of_slot h hi hw
      logged := h.logged
      allowed := h.allowed }
  intro fs m' hmore i p hp
  have h' := (inv_run (Machine.run_append_eq_some.mpr ⟨m, hrun, hmore⟩)).table
  have hid : m.pm.ids[i]? = some p.id := by
    unfold PeerState.ids
    rw [List.getElem?_map, hp, Option.map_some]
  have hid' : m'.pm.ids[i]? = some p.id := by
    obtain ⟨more, hcat⟩ := ids_prefix hrun hmore
    rw [← hcat, List.getElem?_append_left (List.getElem?_eq_some_iff.mp hid).1]
    exact hid
  obtain ⟨q, hq, hqid⟩ := Option.map_eq_some_iff.mp (List.getElem?_map.symm.trans hid')
  refine ⟨q, hq, hqid, ?_⟩
  intro hremoved id host port o hequal
  rw [add_removed h' hq hremoved hequal host port o]
  exact ⟨rfl, readd_tables h' hq host port o⟩

def sampleAdd : List Event := [.start fun _ => .started, .add zeroId [65] 22000 .started]

/-- The device is removed, and its worker ends. -/
def sampleRemove : List Event :=
  [.remove zeroId, .exit 0 ⟨true, 10, 20, [], []⟩, .turn .started, .turn .started, .drain]

theorem peer_table_safe_sample : ∃ m m' q, Machine.run step (boot none) sampleAdd = some m ∧
    Machine.run step m sampleRemove = some m' ∧ Safe m.pm ∧ m'.pm.cfg[0]? = some q ∧ q.removed = true ∧
    Kept m'.pm 0 q := by
  have hall : ((Machine.run step (boot none) (sampleAdd ++ sampleRemove)).bind fun m => m.pm.cfg[0]?).any
      (fun q => q.removed) = true := by decide +kernel
  have hfirst : ((Machine.run step (boot none) sampleAdd).bind fun m => m.pm.cfg[0]?).isSome = true := by
    decide +kernel
  obtain ⟨p, hp⟩ := Option.isSome_iff_exists.mp hfirst
  obtain ⟨m, hm, hp⟩ := Option.bind_eq_some_iff.mp hp
  obtain ⟨q, hq, hremoved⟩ := (Option.any_eq_true _ _).mp hall
  obtain ⟨m', hm', hq⟩ := Option.bind_eq_some_iff.mp hq
  rw [Machine.run_append_some hm] at hm'
  obtain ⟨hsafe, hkept⟩ := peer_table_safe none sampleAdd hm
  obtain ⟨r, hr, -, hkept⟩ := hkept sampleRemove m' hm' 0 p hp
  obtain rfl := Option.some.inj (hr.symm.trans hq)
  exact ⟨m, m', r, hm, hm', hsafe, hq, hremoved, hkept⟩

end Amisync.Peer

import Amisync.DeviceCodec
import Amisync.ListenerKeeps

/-!
# Runs of the listener

* `inv_step`, `inv_run`: what holds of the inbound connections holds after each run.
* `inbound_safe`: the slots, the processes that are signalled and the blocks that are pointed to.
* `inbound_sockets`: where the accepted sockets are.
* `inbound_bytes`: what was moved is counted once.
* `inbound_stop`: `listener_stop` comes back, and nothing is left then.
-/

namespace Amisync.Listener

open Ctype ConfigFile Peer

/-! ## The tasks -/

section Tasks
variable {s t : State}

/-- Only the tasks, the signals and the handle differ. -/
theorem inv_tasks (h : Inv s) {task : Task} {daemon : Daemon} {stop rescan proc exited reply : Bool}
    (hh : Handle { s with
      task := task, daemon := daemon, sigStop := stop, sigRescan := rescan, proc := proc, exited := exited,
      reply := reply }) :
    Inv { s with
      task := task, daemon := daemon, sigStop := stop, sigRescan := rescan, proc := proc, exited := exited,
      reply := reply } where
  placed := placed_of_perm h.placed rfl rfl (List.Perm.refl _)
  sockets := ⟨h.sockets.each, h.sockets.table, h.sockets.started, h.sockets.closed⟩
  published := ⟨h.published.live, h.published.listed⟩
  ledger := ⟨accounted_same h.ledger.bytesIn rfl fun _ => rfl, accounted_same h.ledger.bytesOut rfl fun _ => rfl,
    h.ledger.unknown, h.ledger.early, h.ledger.known⟩
  handle := hh

/-- The task goes on, neither from its end nor to it. -/
theorem handle_goes_on (h : Handle s) {task : Task} {rescan : Bool} (hnow : s.task ≠ .gone)
    (hnext : ¬ (task = .starting ∨ task = .gone)) : Handle { s with task := task, sigRescan := rescan } := by
  refine ⟨h.proc, ?_, h.once, fun hidle => absurd hidle hnext⟩
  have hno := fun hq => hnow (h.gone.mpr hq)
  exact ⟨fun hg => absurd (Or.inr hg) hnext, fun hq => absurd hq hno⟩

/-- The task ends. -/
theorem handle_ends (h : Handle s) (hnow : s.task ≠ .gone) (hempty : s.workers = []) :
    Handle { s with task := .gone, reply := true } := by
  have hno := fun hq => hnow (h.gone.mpr hq)
  refine ⟨h.proc, by simp, fun _ => ⟨?_, ?_⟩, fun _ => hempty⟩
  · rw [← Bool.not_eq_true]
    exact fun he => hno (Or.inr (Or.inl he))
  · exact fun hj => hno (Or.inr (Or.inr hj))

theorem inv_shut (h : Inv s) (hnow : s.task ≠ .gone) : Inv (shut s) := by
  have hd := inv_drainInboundLocked h
  have htask := (drainInboundLocked_same s).2.2
  exact inv_tasks hd (handle_goes_on hd.handle (by rw [htask]; exact hnow) (by simp))

/-- Without a process in a slot there is no worker. -/
theorem workers_of_live (h : Inv s) (hlive : s.live = 0) : s.workers = [] := by
  refine List.eq_nil_iff_forall_not_mem.mpr fun w hw => ?_
  have howner := h.placed.pool.owner (placed w) (List.mem_map_of_mem hw)
  have hmem : some (placed w).2 ∈ s.slots.filter Option.isSome :=
    List.mem_filter.mpr ⟨List.mem_of_getElem? howner, rfl⟩
  have hpos := List.length_pos_of_mem hmem
  unfold State.live at hlive
  omega

theorem inv_turn (h : Inv s) (hstep : turn s = some t) : Inv t := by
  unfold turn at hstep
  split at hstep
  · rename_i hport
    obtain rfl := Option.some.inj hstep
    exact inv_reapOne h hport
  · rename_i rescan htask hport
    obtain rfl := Option.some.inj hstep
    refine inv_tasks h (handle_goes_on h.handle (by rw [htask]; simp) ?_)
    split <;> simp
  · rename_i htask
    obtain rfl := Option.some.inj hstep
    have hd := inv_drainInboundLocked h
    have hsame := (drainInboundLocked_same s).2.2
    exact inv_tasks hd (handle_goes_on hd.handle (by rw [hsame, htask]; simp) (by simp))
  · rename_i hport
    obtain rfl := Option.some.inj hstep
    exact inv_reapOne h hport
  · rename_i htask hport
    split at hstep
    · rename_i hlive
      obtain rfl := Option.some.inj hstep
      exact inv_tasks h (handle_ends h.handle (by rw [htask]; simp) (workers_of_live h hlive))
    · exact absurd hstep (by simp)
  · exact absurd hstep (by simp)

/-! ## The daemon -/

theorem inv_drainListenerLocked (h : Inv s) : Inv s.drainListenerLocked := by
  unfold State.drainListenerLocked
  split
  · rename_i hq
    have hgone := h.handle.gone.mpr (Or.inl hq.2)
    refine inv_tasks h ⟨rfl, ?_, by simp, h.handle.empty⟩
    simp [hgone]
  · exact h

/-- After the drain the handle has a process only while the listener has not replied. -/
theorem drainListenerLocked_live (h : Inv s) (hserving : s.daemon ≠ .joined)
    (hproc : s.drainListenerLocked.proc = true) : s.drainListenerLocked.task ≠ .gone := by
  have hd := inv_drainListenerLocked h
  intro hgone
  have hexited : s.drainListenerLocked.exited = false := by
    have := hd.handle.proc
    rw [hproc] at this
    simpa using this.symm
  rcases hd.handle.gone.mp hgone with hreply | hx | hj
  · unfold State.drainListenerLocked at hreply hexited
    split at hreply
    · simp at hreply
    · rename_i hno
      rw [if_neg hno] at hexited
      exact hno ⟨hexited, hreply⟩
  · rw [hexited] at hx
    exact absurd hx (by simp)
  · refine hserving ?_
    unfold State.drainListenerLocked at hj
    split at hj
    · exact hj
    · exact hj

theorem inv_listenerRescan (h : Inv s) : Inv s.listenerRescan := by
  have hd := inv_drainListenerLocked h
  unfold State.listenerRescan
  dsimp only
  split
  · exact inv_tasks hd ⟨hd.handle.proc, hd.handle.gone, hd.handle.once, hd.handle.empty⟩
  · exact hd

theorem inv_listenerStop (h : Inv s) (hserving : s.daemon = .serving) : Inv s.listenerStop := by
  have hd := inv_drainListenerLocked h
  have hdaemon : s.drainListenerLocked.daemon = .serving := by
    unfold State.drainListenerLocked
    split <;> exact hserving
  unfold State.listenerStop
  dsimp only
  have hgone := hd.handle.gone
  have honce := hd.handle.once
  rw [hdaemon] at hgone honce
  refine inv_tasks hd ⟨hd.handle.proc, ?_, ?_, hd.handle.empty⟩
  · dsimp only
    rw [hgone]
    cases hx : s.drainListenerLocked.exited with
    | true => simp
    | false => simp
  · intro hreply
    obtain ⟨hx, -⟩ := honce hreply
    dsimp only
    rw [hx]
    exact ⟨rfl, by simp⟩

theorem inv_join (h : Inv s) (hj : s.daemon = .joining ∧ s.reply = true) :
    Inv { s with daemon := .joined, reply := false } := by
  have hgone := h.handle.gone.mpr (Or.inl hj.2)
  refine inv_tasks h ⟨h.handle.proc, ?_, by simp, h.handle.empty⟩
  simp [hgone]

/-! ## The peers -/

theorem inv_flags (h : Inv s) (j : Nat) (paused removed : Bool) :
    Inv (s.setPeer j (setFlags paused removed)) := by
  have hps := samePeers_modify (g := setFlags paused removed) (fun p => ⟨rfl, rfl, rfl, rfl, rfl, rfl⟩) s.peers j
  refine ⟨placed_of_perm h.placed rfl rfl (List.Perm.refl _),
    ⟨h.sockets.each, h.sockets.table, h.sockets.started, h.sockets.closed⟩, ⟨?_, ?_⟩,
    ⟨?_, ?_, h.ledger.unknown, h.ledger.early, h.ledger.known⟩,
    ⟨h.handle.proc, h.handle.gone, h.handle.once, h.handle.empty⟩⟩
  · intro i b q hq hb
    obtain ⟨p, hp, hsame⟩ := hps.1 i q hq
    exact h.published.live i b p hp (hsame.inboundSt ▸ hb)
  · intro w hw i hi
    obtain ⟨p, hp, hid⟩ := h.published.listed w hw i hi
    obtain ⟨q, hq, hsame⟩ := hps.2 i p hp
    exact ⟨q, hq, hsame.id ▸ hid⟩
  · intro i q hq
    obtain ⟨p, hp, hsame⟩ := hps.1 i q hq
    rw [hsame.movedIn, hsame.inBytesIn]
    exact h.ledger.bytesIn i p hp
  · intro i q hq
    obtain ⟨p, hp, hsame⟩ := hps.1 i q hq
    rw [hsame.movedOut, hsame.inBytesOut]
    exact h.ledger.bytesOut i p hp

theorem owing_eq_zero {f : InboundWorker → UInt64} {j : Nat} {l : List InboundWorker}
    (h : ∀ w ∈ l, w.peerCfg ≠ some j) : owing f j l = 0 := by
  induction l with
  | nil => rfl
  | cons w l ih =>
    rw [owing_cons, if_neg (h w List.mem_cons_self), ih fun v hv => h v (List.mem_cons_of_mem w hv)]

/-- No session has a peer that is not there yet. -/
theorem not_listed (h : Inv s) {w : InboundWorker} (hw : w ∈ s.workers) : w.peerCfg ≠ some s.peers.length := by
  intro hj
  obtain ⟨p, hp, -⟩ := h.published.listed w hw _ hj
  exact absurd (List.getElem?_eq_some_iff.mp hp).1 (Nat.lt_irrefl _)

theorem inv_addPeer (h : Inv s) (c : ConfigPeer) : Inv { s with peers := s.peers ++ [sharedPeer c] } := by
  have hcases : ∀ (j : Nat) (q : SharedPeer), (s.peers ++ [sharedPeer c])[j]? = some q →
      s.peers[j]? = some q ∨ j = s.peers.length ∧ q = sharedPeer c := by
    intro j q hq
    rcases Nat.lt_or_ge j s.peers.length with hlt | hge
    · rw [List.getElem?_append_left hlt] at hq
      exact Or.inl hq
    · rw [List.getElem?_append_right hge] at hq
      have hz : j - s.peers.length = 0 := by
        have := (List.getElem?_eq_some_iff.mp hq).1
        simpa using this
      rw [hz] at hq
      exact Or.inr ⟨by omega, (Option.some.inj hq).symm⟩
  refine ⟨placed_of_perm h.placed rfl rfl (List.Perm.refl _),
    ⟨h.sockets.each, h.sockets.table, h.sockets.started, h.sockets.closed⟩, ⟨?_, ?_⟩,
    ⟨?_, ?_, h.ledger.unknown, h.ledger.early, h.ledger.known⟩,
    ⟨h.handle.proc, h.handle.gone, h.handle.once, h.handle.empty⟩⟩
  · intro j b q hq hb
    rcases hcases j q hq with hold | ⟨-, rfl⟩
    · exact h.published.live j b q hold hb
    · exact absurd hb (by simp [sharedPeer])
  · intro w hw j hj
    obtain ⟨p, hp, hid⟩ := h.published.listed w hw j hj
    exact ⟨p, by rw [List.getElem?_append_left (List.getElem?_eq_some_iff.mp hp).1]; exact hp, hid⟩
  · intro j q hq
    rcases hcases j q hq with hold | ⟨rfl, rfl⟩
    · exact h.ledger.bytesIn j q hold
    · have hz : owing InboundWorker.bytesIn s.peers.length s.workers = 0 :=
        owing_eq_zero fun w hw => not_listed h hw
      show 0 ≡ 0 + owing InboundWorker.bytesIn s.peers.length s.workers [MOD 2 ^ 64]
      rw [hz]
  · intro j q hq
    rcases hcases j q hq with hold | ⟨rfl, rfl⟩
    · exact h.ledger.bytesOut j q hold
    · have hz : owing InboundWorker.bytesOut s.peers.length s.workers = 0 :=
        owing_eq_zero fun w hw => not_listed h hw
      show 0 ≡ 0 + owing InboundWorker.bytesOut s.peers.length s.workers [MOD 2 ^ 64]
      rw [hz]

/-- **Step.** -/
theorem inv_step (s : State) (e : Event) (t : State) (h : Inv s) (hstep : step s e = some t) : Inv t := by
  cases e with
  | begin ok =>
    simp only [step] at hstep
    split at hstep
    · exact absurd hstep (by simp)
    · rename_i hst
      have hst := not_not.mp hst
      obtain rfl := Option.some.inj hstep
      cases ok with
      | true => exact inv_tasks h (handle_goes_on h.handle (by rw [hst]; simp) (by simp))
      | false =>
        exact inv_tasks h (handle_ends h.handle (by rw [hst]; simp) (h.handle.empty (Or.inl hst)))
  | waitFails =>
    simp only [step] at hstep
    split at hstep
    · exact absurd hstep (by simp)
    · rename_i hst
      obtain rfl := Option.some.inj hstep
      exact inv_shut h (by rw [not_not.mp hst]; simp)
  | wake =>
    simp only [step] at hstep
    split at hstep
    · exact absurd hstep (by simp)
    · rename_i hst
      have hst := not_not.mp hst
      split at hstep
      · obtain rfl := Option.some.inj hstep
        exact inv_shut h (by rw [hst]; simp)
      · split at hstep
        · obtain rfl := Option.some.inj hstep
          exact inv_tasks h (handle_goes_on h.handle (by rw [hst]; simp) (by simp))
        · exact absurd hstep (by simp)
  | replies =>
    simp only [step] at hstep
    split at hstep
    · exact absurd hstep (by simp)
    · rename_i hst
      obtain rfl := Option.some.inj hstep
      exact inv_tasks h (handle_goes_on h.handle (by rw [not_not.mp hst]; simp) (by simp))
  | readable o =>
    simp only [step] at hstep
    split at hstep
    · exact absurd hstep (by simp)
    · rename_i hst
      obtain rfl := Option.some.inj hstep
      exact inv_handoff h (by rw [not_not.mp hst]; simp) o
  | turn => exact inv_turn h hstep
  | worker k e =>
    obtain ⟨w, hk, hadv⟩ := Option.bind_eq_some_iff.mp hstep
    exact inv_advance h hk e hadv
  | rescan =>
    simp only [step] at hstep
    split at hstep
    · exact absurd hstep (by simp)
    · obtain rfl := Option.some.inj hstep
      exact inv_listenerRescan h
  | stop =>
    simp only [step] at hstep
    split at hstep
    · exact absurd hstep (by simp)
    · rename_i hserving
      obtain rfl := Option.some.inj hstep
      exact inv_listenerStop h (not_not.mp hserving)
  | join =>
    simp only [step] at hstep
    split at hstep
    · rename_i hj
      obtain rfl := Option.some.inj hstep
      exact inv_join h hj
    · exact absurd hstep (by simp)
  | flags j paused removed =>
    obtain rfl := Option.some.inj hstep
    exact inv_flags h j paused removed
  | addPeer p =>
    obtain rfl := Option.some.inj hstep
    exact inv_addPeer h p

end Tasks

/-- **Run.** -/
theorem inv_run {peers : List ConfigPeer} {es : List Event} {s : State}
    (hrun : Machine.run step (listenerStart peers) es = some s) : Inv s :=
  Machine.run_inv inv_step hrun (inv_listenerStart peers)

/-! ## What it comes to -/

section Results
variable {s : State} (h : Inv s)
include h

/-- No more workers than slots. -/
theorem length_workers : s.workers.length ≤ listenMaxInbound := by
  have hsub : s.workers.map InboundWorker.slot ⊆ List.range listenMaxInbound := by
    intro i hi
    obtain ⟨w, hw, rfl⟩ := List.mem_map.mp hi
    have howner := h.placed.pool.owner (placed w) (List.mem_map_of_mem hw)
    rw [List.mem_range, ← h.placed.length]
    exact (List.getElem?_eq_some_iff.mp howner).1
  have hnodup : (s.workers.map InboundWorker.slot).Nodup := by
    have honce := h.placed.pool.once
    rwa [List.map_map] at honce
  have hle := (List.subperm_of_subset hnodup hsub).length_le
  rwa [List.length_map, List.length_range] at hle

/-- After the drain, what is signalled has not replied. -/
theorem running_of_signalled {b : Nat} (hb : b ∈ s.signalled) : b ∈ s.running.map InboundWorker.block := by
  have hd := inv_drainInboundLocked h
  obtain ⟨hport, hrunning, -⟩ := drainInboundLocked_same s
  obtain ⟨o, ho, hob⟩ := List.mem_filterMap.mp hb
  obtain rfl : o = some b := hob
  obtain ⟨i, hi⟩ := List.getElem?_of_mem ho
  have hmem := hd.placed.pool.busy i b hi
  obtain ⟨w, hw, he⟩ := List.mem_map.mp hmem
  unfold State.workers at hw
  rw [hport, hrunning, List.append_nil] at hw
  exact List.mem_map.mpr ⟨w, hw, congrArg Prod.snd he⟩

theorem pointers_of_empty (hempty : s.workers = []) : ∀ p ∈ s.peers, p.inboundSt = none := by
  intro p hp
  obtain ⟨j, hj⟩ := List.getElem?_of_mem hp
  rw [Option.eq_none_iff_forall_ne_some]
  intro b hb
  obtain ⟨w, hw, -⟩ := h.published.live j b p hj hb
  have hmem : w ∈ s.workers := List.mem_append_left _ hw
  rw [hempty] at hmem
  exact absurd hmem List.not_mem_nil

theorem slots_of_empty (hempty : s.workers = []) : ∀ o ∈ s.slots, o = none := by
  intro o ho
  obtain ⟨i, hi⟩ := List.getElem?_of_mem ho
  cases o with
  | none => rfl
  | some b =>
    have hbusy := h.placed.pool.busy i b hi
    rw [hempty] at hbusy
    exact absurd hbusy List.not_mem_nil

theorem sockets_of_empty (hempty : s.workers = []) : (s.closed ++ s.lost).Perm (List.range s.accepted) := by
  have hrunning : s.running = [] := (List.append_eq_nil_iff.mp hempty).1
  have heach := h.sockets.each
  have htable := h.sockets.table
  rw [hrunning] at heach htable
  simp only [List.filterMap_nil, List.append_nil, List.filter_nil, List.map_nil, List.nil_append] at heach htable
  exact (List.perm_append_comm.trans (htable.symm.append_right s.closed)).trans heach

end Results

/-! ## The end -/

/-- Where `listener_stop` waits, the listener has been asked to end, or is about to. -/
def Asked (s : State) : Prop :=
  s.daemon = .joining → s.exited = false ∧ (s.sigStop = true ∨ s.task = .stopping ∨ s.task = .gone)

section Stop
variable {s t : State} {w : InboundWorker}

/-- A worker does not see the tasks. -/
theorem advance_frame {k : Nat} {e : WorkerEvent} (hstep : s.advance k w e = some t) :
    t.task = s.task ∧ t.daemon = s.daemon ∧ t.sigStop = s.sigStop ∧ t.exited = s.exited := by
  cases e with
  | noSsl adopt =>
    obtain ⟨-, rfl⟩ := of_enabled hstep
    cases adopt <;> exact ⟨rfl, rfl, rfl, rfl⟩
  | obtain ok =>
    obtain ⟨-, rfl⟩ := of_enabled hstep
    cases ok <;> exact ⟨rfl, rfl, rfl, rfl⟩
  | greet ok =>
    obtain ⟨-, rfl⟩ := of_enabled hstep
    exact ⟨rfl, rfl, rfl, rfl⟩
  | verify id =>
    obtain ⟨-, rfl⟩ := of_enabled hstep
    exact ⟨rfl, rfl, rfl, rfl⟩
  | handshake ok =>
    obtain ⟨-, rfl⟩ := of_enabled hstep
    exact ⟨rfl, rfl, rfl, rfl⟩
  | publish =>
    obtain ⟨-, rfl⟩ := of_enabled hstep
    rw [setWorker_atPeer]
    exact ⟨rfl, rfl, rfl, rfl⟩
  | traffic inn out =>
    obtain ⟨-, rfl⟩ := of_enabled hstep
    rw [setWorker_atPeer]
    exact ⟨rfl, rfl, rfl, rfl⟩
  | finish resync =>
    obtain ⟨-, rfl⟩ := of_enabled hstep
    exact ⟨rfl, rfl, rfl, rfl⟩
  | owe =>
    obtain ⟨-, rfl⟩ := of_enabled hstep
    rw [setWorker_atPeer]
    exact ⟨rfl, rfl, rfl, rfl⟩
  | withdraw =>
    obtain ⟨-, rfl⟩ := of_enabled hstep
    rw [setWorker_atPeer]
    exact ⟨rfl, rfl, rfl, rfl⟩
  | close =>
    obtain ⟨-, rfl⟩ := of_enabled hstep
    exact ⟨rfl, rfl, rfl, rfl⟩
  | reply =>
    obtain ⟨-, rfl⟩ := of_enabled hstep
    exact ⟨rfl, rfl, rfl, rfl⟩

/-- Nor do the replies. -/
theorem reapOne_frame (s : State) (w : InboundWorker) : (s.reapOne w).task = s.task ∧
    (s.reapOne w).daemon = s.daemon ∧ (s.reapOne w).sigStop = s.sigStop ∧ (s.reapOne w).exited = s.exited ∧
    (s.reapOne w).running = s.running ∧ (s.reapOne w).port = s.port := by
  unfold State.reapOne
  rw [foldInbound_eq]
  exact ⟨rfl, rfl, rfl, rfl, rfl, rfl⟩

theorem drain_frame (s : State) : s.drainInboundLocked.daemon = s.daemon ∧
    s.drainInboundLocked.sigStop = s.sigStop ∧ s.drainInboundLocked.exited = s.exited := by
  have hrun : ∀ (l : List InboundWorker) (t : State), (l.foldl State.reapOne t).daemon = t.daemon ∧
      (l.foldl State.reapOne t).sigStop = t.sigStop ∧ (l.foldl State.reapOne t).exited = t.exited := by
    intro l
    induction l with
    | nil => exact fun t => ⟨rfl, rfl, rfl⟩
    | cons w l ih =>
      intro t
      obtain ⟨-, h1, h2, h3, -⟩ := reapOne_frame t w
      obtain ⟨i1, i2, i3⟩ := ih (t.reapOne w)
      exact ⟨i1.trans h1, i2.trans h2, i3.trans h3⟩
  exact hrun s.port { s with port := [] }

theorem asked_congr (ha : Asked s) (htask : t.task = s.task) (hdaemon : t.daemon = s.daemon)
    (hstop : t.sigStop = s.sigStop) (hexited : t.exited = s.exited) : Asked t := by
  intro hj
  rw [htask, hstop, hexited]
  exact ha (hdaemon ▸ hj)

/-- The task was neither stopping nor gone, and goes on to anything: the signal is still there. -/
theorem asked_goes_on (ha : Asked s) (hnow : s.task ≠ .stopping ∧ s.task ≠ .gone)
    (hdaemon : t.daemon = s.daemon) (hstop : t.sigStop = s.sigStop) (hexited : t.exited = s.exited) :
    Asked t := by
  intro hj
  obtain ⟨hx, hs | hs | hs⟩ := ha (hdaemon ▸ hj)
  · exact ⟨hexited.trans hx, Or.inl (hstop.trans hs)⟩
  · exact absurd hs hnow.1
  · exact absurd hs hnow.2

theorem asked_step (h : Inv s) (ha : Asked s) {e : Event} (hstep : step s e = some t) : Asked t := by
  have hshut : Asked (shut s) := fun hj => by
    obtain ⟨hd, -, hx⟩ := drain_frame s
    exact ⟨hx.trans (ha (hd ▸ hj)).1, Or.inr (Or.inl rfl)⟩
  cases e with
  | begin ok =>
    simp only [step] at hstep
    split at hstep
    · exact absurd hstep (by simp)
    · rename_i hst
      have hst := not_not.mp hst
      obtain rfl := Option.some.inj hstep
      cases ok <;> exact asked_goes_on ha ⟨by rw [hst]; simp, by rw [hst]; simp⟩ rfl rfl rfl
  | waitFails =>
    simp only [step] at hstep
    split at hstep
    · exact absurd hstep (by simp)
    · exact Option.some.inj hstep ▸ hshut
  | wake =>
    simp only [step] at hstep
    split at hstep
    · exact absurd hstep (by simp)
    · rename_i hst
      have hst := not_not.mp hst
      split at hstep
      · exact Option.some.inj hstep ▸ hshut
      · split at hstep
        · obtain rfl := Option.some.inj hstep
          exact asked_goes_on ha ⟨by rw [hst]; simp, by rw [hst]; simp⟩ rfl rfl rfl
        · exact absurd hstep (by simp)
  | replies =>
    simp only [step] at hstep
    split at hstep
    · exact absurd hstep (by simp)
    · rename_i hst
      have hst := not_not.mp hst
      obtain rfl := Option.some.inj hstep
      exact asked_goes_on ha ⟨by rw [hst]; simp, by rw [hst]; simp⟩ rfl rfl rfl
  | readable o =>
    simp only [step] at hstep
    split at hstep
    · exact absurd hstep (by simp)
    · obtain rfl := Option.some.inj hstep
      unfold State.handoff
      dsimp only
      split
      · exact asked_congr ha rfl rfl rfl rfl
      · split <;> exact asked_congr ha rfl rfl rfl rfl
  | turn =>
    simp only [step, turn] at hstep
    split at hstep
    · rename_i w rest _ _
      obtain rfl := Option.some.inj hstep
      obtain ⟨h1, h2, h3, h4, -⟩ := reapOne_frame { s with port := rest } w
      exact asked_congr ha h1 h2 h3 h4
    · rename_i hst _
      obtain rfl := Option.some.inj hstep
      exact asked_goes_on ha ⟨by rw [hst]; simp, by rw [hst]; simp⟩ rfl rfl rfl
    · rename_i hst
      obtain rfl := Option.some.inj hstep
      obtain ⟨h1, h2, h3⟩ := drain_frame s
      exact asked_goes_on ha ⟨by rw [hst]; simp, by rw [hst]; simp⟩ h1 h2 h3
    · rename_i w rest _ _
      obtain rfl := Option.some.inj hstep
      obtain ⟨h1, h2, h3, h4, -⟩ := reapOne_frame { s with port := rest } w
      exact asked_congr ha h1 h2 h3 h4
    · split at hstep
      · obtain rfl := Option.some.inj hstep
        exact fun hj => ⟨(ha hj).1, Or.inr (Or.inr rfl)⟩
      · exact absurd hstep (by simp)
    · exact absurd hstep (by simp)
  | worker k e =>
    obtain ⟨w, -, hadv⟩ := Option.bind_eq_some_iff.mp hstep
    obtain ⟨h1, h2, h3, h4⟩ := advance_frame hadv
    exact asked_congr ha h1 h2 h3 h4
  | rescan =>
    simp only [step] at hstep
    split at hstep
    · exact absurd hstep (by simp)
    · rename_i hserving
      obtain rfl := Option.some.inj hstep
      have hdaemon : s.listenerRescan.daemon = .serving := by
        unfold State.listenerRescan State.drainListenerLocked
        dsimp only
        split <;> split <;> exact not_not.mp hserving
      exact fun hj => absurd (hdaemon.symm.trans hj) (by simp)
  | stop =>
    simp only [step] at hstep
    split at hstep
    · exact absurd hstep (by simp)
    · obtain rfl := Option.some.inj hstep
      have hproc := (inv_drainListenerLocked h).handle.proc
      unfold State.listenerStop
      dsimp only
      intro hj
      have hx : s.drainListenerLocked.exited = false := by
        cases hx : s.drainListenerLocked.exited with
        | false => rfl
        | true => exact absurd hj (by simp [hx])
      refine ⟨hx, Or.inl ?_⟩
      dsimp only
      rw [hproc, hx]
      simp
  | join =>
    simp only [step] at hstep
    split at hstep
    · obtain rfl := Option.some.inj hstep
      exact fun hj => absurd hj (by simp)
    · exact absurd hstep (by simp)
  | flags j paused removed =>
    obtain rfl := Option.some.inj hstep
    exact asked_congr ha rfl rfl rfl rfl
  | addPeer p =>
    obtain rfl := Option.some.inj hstep
    exact asked_congr ha rfl rfl rfl rfl

/-- The listener and its workers do it by themselves. -/
def Own : Event → Prop
  | .begin _ | .wake | .turn | .join | .worker _ _ => True
  | _ => False

/-- The daemon has come back from `listener_stop` at the end of some run, without a further
connection and without a further call. -/
def Ends (s : State) : Prop :=
  ∃ es t, (∀ e ∈ es, Own e) ∧ Machine.run step s es = some t ∧ t.daemon = .joined

theorem ends_of_step {e : Event} (hstep : step s e = some t) (he : Own e) (h : Ends t) : Ends s := by
  obtain ⟨es, u, hes, hrun, hu⟩ := h
  exact ⟨e :: es, u, List.forall_mem_cons.mpr ⟨he, hes⟩, Machine.run_cons_eq_some.mpr ⟨t, hstep, hrun⟩, hu⟩

/-- `listener_stop` waits, for workers that have not replied or for the listener only. -/
structure Waiting (s : State) (running : List InboundWorker) : Prop where
  inv : Inv s
  asked : Asked s
  left : s.running = running
  joining : s.daemon = .joining

theorem Waiting.after {running running' : List InboundWorker} (h : Waiting s running) {e : Event}
    (hstep : step s e = some t) (hleft : t.running = running') (hjoining : t.daemon = .joining) :
    Waiting t running' :=
  ⟨inv_step s e t h.inv hstep, asked_step h.inv h.asked hstep, hleft, hjoining⟩

theorem ends_gone (h : Waiting s []) (hst : s.task = .gone) : Ends s := by
  have hreply : s.reply = true := by
    rcases h.inv.handle.gone.mp hst with hr | hx | hj
    · exact hr
    · rw [(h.asked h.joining).1] at hx
      exact absurd hx (by simp)
    · rw [h.joining] at hj
      exact absurd hj (by simp)
  have hstep : step s .join = some { s with daemon := .joined, reply := false } := by
    rw [step, if_pos ⟨h.joining, hreply⟩]
  exact ends_of_step hstep trivial ⟨[], _, by simp, rfl, rfl⟩

theorem ends_stopping (h : Waiting s []) (hst : s.task = .stopping) : Ends s := by
  generalize hn : s.port.length = n
  induction n generalizing s with
  | zero =>
    have hport := List.length_eq_zero_iff.mp hn
    have hslots : s.live = 0 := by
      unfold State.live
      rw [List.length_eq_zero_iff, List.filter_eq_nil_iff]
      intro o ho hsome
      obtain ⟨b, rfl⟩ := Option.isSome_iff_exists.mp hsome
      obtain ⟨i, hi⟩ := List.getElem?_of_mem ho
      have hbusy := h.inv.placed.pool.busy i b hi
      unfold State.workers at hbusy
      rw [h.left, hport] at hbusy
      exact List.not_mem_nil hbusy
    have hstep : step s .turn = some { s with task := .gone, reply := true } := by
      rw [step, turn, hst, hport]
      dsimp only
      rw [if_pos hslots]
    exact ends_of_step hstep trivial (ends_gone (h.after hstep h.left h.joining) rfl)
  | succ n ih =>
    obtain ⟨w, rest, hport⟩ := List.exists_cons_of_length_eq_add_one hn
    have hstep : step s .turn = some (State.reapOne { s with port := rest } w) := by
      rw [step, turn, hst, hport]
    obtain ⟨h1, h2, -, -, h5, h6⟩ := reapOne_frame { s with port := rest } w
    refine ends_of_step hstep trivial (ih (h.after hstep (h5.trans h.left) (h2.trans h.joining)) (h1.trans hst) ?_)
    rw [h6]
    rw [hport] at hn
    simpa using hn

theorem ends_waiting (h : Waiting s []) (hst : s.task = .waiting) : Ends s := by
  have hsig : s.sigStop = true := by
    rcases (h.asked h.joining).2 with hs | hs | hs
    · exact hs
    · rw [hst] at hs
      exact absurd hs (by simp)
    · rw [hst] at hs
      exact absurd hs (by simp)
  have hstep : step s .wake = some (shut s) := by
    rw [step, if_neg (not_not.mpr hst), if_pos hsig]
  obtain ⟨-, hrunning, -⟩ := drainInboundLocked_same s
  exact ends_of_step hstep trivial (ends_stopping (h.after hstep (hrunning.trans h.left)
    ((drain_frame s).1.trans h.joining)) rfl)

theorem ends_locked (h : Waiting s []) (hst : s.task = .locked) : Ends s := by
  have hstep : step s .turn = some { s.drainInboundLocked with task := .waiting } := by
    rw [step, turn, hst]
  obtain ⟨-, hrunning, -⟩ := drainInboundLocked_same s
  exact ends_of_step hstep trivial (ends_waiting (h.after hstep (hrunning.trans h.left)
    ((drain_frame s).1.trans h.joining)) rfl)

theorem ends_reaping (h : Waiting s []) {rescan : Bool} (hst : s.task = .reaping rescan) : Ends s := by
  generalize hn : s.port.length = n
  induction n generalizing s with
  | zero =>
    have hport := List.length_eq_zero_iff.mp hn
    have hstep : step s .turn = some { s with task := if rescan then .locked else .waiting } := by
      rw [step, turn, hst, hport]
    have hafter := h.after hstep h.left h.joining
    refine ends_of_step hstep trivial ?_
    cases rescan with
    | true => exact ends_locked hafter rfl
    | false => exact ends_waiting hafter rfl
  | succ n ih =>
    obtain ⟨w, rest, hport⟩ := List.exists_cons_of_length_eq_add_one hn
    have hstep : step s .turn = some (State.reapOne { s with port := rest } w) := by
      rw [step, turn, hst, hport]
    obtain ⟨h1, h2, -, -, h5, h6⟩ := reapOne_frame { s with port := rest } w
    refine ends_of_step hstep trivial (ih (h.after hstep (h5.trans h.left) (h2.trans h.joining)) (h1.trans hst) ?_)
    rw [h6]
    rw [hport] at hn
    simpa using hn

/-- Once the workers have replied nothing holds it up. -/
theorem ends_quiet (h : Waiting s []) : Ends s := by
  cases hst : s.task with
  | starting =>
    have hstep : step s (.begin true) = some { s with task := .waiting } := by
      rw [step, if_neg (not_not.mpr hst), if_pos rfl]
    exact ends_of_step hstep trivial (ends_waiting (h.after hstep h.left h.joining) rfl)
  | waiting => exact ends_waiting h hst
  | reaping rescan => exact ends_reaping h hst
  | locked => exact ends_locked h hst
  | stopping => exact ends_stopping h hst
  | gone => exact ends_gone h hst

/-- How many steps a worker is from its reply at most, on the way of `wayOut`. -/
def stepsLeft : Stage → Nat
  | .started => 9
  | .adopted => 8
  | .greeted => 7
  | .authenticated => 6
  | .connected => 6
  | .session => 5
  | .done => 4
  | .owed => 3
  | .withdrawn => 2
  | .closed => 1

/-- A way out for a worker that nobody talks to. -/
def wayOut : Stage → WorkerEvent
  | .started => .obtain true
  | .adopted => .greet false
  | .greeted => .verify none
  | .authenticated => .handshake false
  | .connected => .publish
  | .session => .finish false
  | .done => .owe
  | .owed => .withdraw
  | .withdrawn => .close
  | .closed => .reply

theorem setWorker_head {rest : List InboundWorker} (hrunning : s.running = w :: rest)
    (f : InboundWorker → InboundWorker) : (s.setWorker 0 f).running = f w :: rest := by
  unfold State.setWorker
  rw [hrunning]
  rfl

/-- On that way the worker comes nearer to its reply, or has replied. -/
theorem advance_wayOut {rest : List InboundWorker} (hrunning : s.running = w :: rest) :
    ∃ t, s.advance 0 w (wayOut w.stage) = some t ∧
      (t.running = rest ∨ ∃ w', t.running = w' :: rest ∧ stepsLeft w'.stage < stepsLeft w.stage) := by
  have hset := setWorker_head hrunning
  cases hst : w.stage with
  | started =>
    exact ⟨_, if_neg (not_not.mpr hst), Or.inr ⟨_, hset (setSock (some w.socketId) .adopted), Nat.lt_succ_self 8⟩⟩
  | adopted => exact ⟨_, if_neg (not_not.mpr hst), Or.inr ⟨_, hset (setStage .done), (by decide : 4 < 8)⟩⟩
  | greeted => exact ⟨_, if_neg (not_not.mpr hst), Or.inr ⟨_, hset (setStage .done), (by decide : 4 < 7)⟩⟩
  | authenticated => exact ⟨_, if_neg (not_not.mpr hst), Or.inr ⟨_, hset (setStage .done), (by decide : 4 < 6)⟩⟩
  | connected =>
    exact ⟨_, (if_neg (not_not.mpr hst)).trans (congrArg some (setWorker_atPeer ..)),
      Or.inr ⟨_, hset (setStage .session), Nat.lt_succ_self 5⟩⟩
  | session => exact ⟨_, if_neg (not_not.mpr hst), Or.inr ⟨_, hset (setResync false), Nat.lt_succ_self 4⟩⟩
  | done =>
    exact ⟨_, (if_neg (not_not.mpr hst)).trans (congrArg some (setWorker_atPeer ..)),
      Or.inr ⟨_, hset (setStage .owed), Nat.lt_succ_self 3⟩⟩
  | owed =>
    exact ⟨_, (if_neg (not_not.mpr hst)).trans (congrArg some (setWorker_atPeer ..)),
      Or.inr ⟨_, hset (setStage .withdrawn), Nat.lt_succ_self 2⟩⟩
  | withdrawn => exact ⟨_, if_neg (not_not.mpr hst), Or.inr ⟨_, hset (setSock none .closed), Nat.lt_succ_self 1⟩⟩
  | closed =>
    refine ⟨_, if_neg (not_not.mpr hst), Or.inl ?_⟩
    show s.running.eraseIdx 0 = rest
    rw [hrunning]
    rfl

/-- **`listener_stop` can come back.** It never waits for something that cannot happen. -/
theorem ends_of_waiting (running : List InboundWorker) {s : State} (h : Waiting s running) : Ends s := by
  induction running generalizing s with
  | nil => exact ends_quiet h
  | cons w rest ih =>
    generalize hn : stepsLeft w.stage = n
    induction n using Nat.strong_induction_on generalizing s w with
    | h n ihn =>
      obtain ⟨t, hadv, hleft⟩ := advance_wayOut h.left
      have hstep : step s (.worker 0 (wayOut w.stage)) = some t := by
        rw [step, h.left]
        exact hadv
      have hjoining := (advance_frame hadv).2.1.trans h.joining
      refine ends_of_step hstep trivial ?_
      rcases hleft with hrest | ⟨w', hw', hlt⟩
      · exact ih (h.after hstep hrest hjoining)
      · exact ihn (stepsLeft w'.stage) (hn ▸ hlt) w' (h.after hstep hw' hjoining) rfl

end Stop

/-! ## The results -/

/-- What is to hold of slots and pointers. -/
structure Safe (s : State) : Prop where
  room : s.workers.length ≤ listenMaxInbound
  single : ∀ v ∈ s.workers, ∀ w ∈ s.workers, v.slot = w.slot → v = w
  known : ∀ w ∈ s.workers, s.slots[w.slot]? = some (some w.block)
  signalled : ∀ b ∈ s.signalled, b ∈ s.running.map InboundWorker.block
  pointer : ∀ (j b : Nat) (p : SharedPeer), s.peers[j]? = some p → p.inboundSt = some b →
    ∃ w ∈ s.running, w.block = b ∧ w.peerCfg = some j ∧ deviceIdEqual w.peerActualId p.id = true
  listener : s.daemon ≠ .joined → s.drainListenerLocked.proc = true → s.drainListenerLocked.task ≠ .gone

/-- **Slots and pointers.** After each run no more workers are about than slots, each alone in its
own; a signal goes to a process that has not replied, to the listener's too; and a peer's entry
points to nothing, or to the block of a running worker whose device is that peer. -/
theorem inbound_safe (peers : List ConfigPeer) (es : List Event) {s : State}
    (hrun : Machine.run step (listenerStart peers) es = some s) : Safe s := by
  have h := inv_run hrun
  have hknown : ∀ w ∈ s.workers, s.slots[w.slot]? = some (some w.block) :=
    fun w hw => h.placed.pool.owner (placed w) (List.mem_map_of_mem hw)
  exact {
    room := length_workers h
    single := by
      intro v hv w hw hslot
      have hblock : v.block = w.block := by
        have he := (hknown v hv).symm.trans (hslot ▸ hknown w hw)
        simpa using he
      exact List.inj_on_of_nodup_map h.placed.blocks hv hw hblock
    known := hknown
    signalled := fun b hb => running_of_signalled h hb
    pointer := by
      intro j b p hp hb
      obtain ⟨w, hw, hwb, hcfg, -⟩ := h.published.live j b p hp hb
      obtain ⟨q, hq, hid⟩ := h.published.listed w (List.mem_append_left _ hw) j hcfg
      obtain rfl := Option.some.inj (hp.symm.trans hq)
      exact ⟨w, hw, hwb, hcfg, hid⟩
    listener := fun hj hproc => drainListenerLocked_live h hj hproc }

/-- A connection from the one peer there is, up to its first blocks. -/
def sampleConnect : List Event :=
  [.begin true, .readable .started, .worker 0 (.obtain true), .worker 0 (.greet true),
    .worker 0 (.verify (some zeroId)), .worker 0 (.handshake true), .worker 0 .publish,
    .worker 0 (.traffic 10 20)]

/-- It ends, and so does the listener. -/
def sampleEnd : List Event :=
  [.stop, .worker 0 (.finish false), .worker 0 .owe, .worker 0 .withdraw, .worker 0 .close, .worker 0 .reply,
    .wake, .turn, .join]

def samplePeers : List ConfigPeer := [⟨zeroId, [], 0⟩]

theorem inbound_safe_sample : ∃ s p, Machine.run step (listenerStart samplePeers) sampleConnect = some s ∧
    s.peers[0]? = some p ∧ p.inboundSt = some 0 ∧ ∃ w ∈ s.running, w.block = 0 := by
  have hfacts : ((Machine.run step (listenerStart samplePeers) sampleConnect).bind fun s =>
      s.peers[0]?).any (fun p => p.inboundSt == some 0) = true := by decide +kernel
  obtain ⟨p, hp, hptr⟩ := (Option.any_eq_true _ _).mp hfacts
  obtain ⟨s, hs, hp⟩ := Option.bind_eq_some_iff.mp hp
  have hptr : p.inboundSt = some 0 := by simpa using hptr
  obtain ⟨w, hw, hb, -⟩ := (inbound_safe samplePeers sampleConnect hs).pointer 0 0 p hp hptr
  exact ⟨s, p, hs, hp, hptr, w, hw, hb⟩

/-- The socket can be taken out of the table again where that is tried. -/
def Adopts : Event → Prop
  | .readable (.noProcess false) | .worker _ (.obtain false) | .worker _ (.noSsl false) => False
  | _ => True

theorem reapOne_lost (s : State) (w : InboundWorker) : (s.reapOne w).lost = s.lost := by
  unfold State.reapOne
  rw [foldInbound_eq]

theorem drain_lost (s : State) : s.drainInboundLocked.lost = s.lost := by
  have hrun : ∀ (l : List InboundWorker) (t : State), (l.foldl State.reapOne t).lost = t.lost := by
    intro l
    induction l with
    | nil => exact fun _ => rfl
    | cons w l ih => exact fun t => (ih _).trans (reapOne_lost t w)
  exact hrun s.port { s with port := [] }

theorem lost_advance {s t : State} {k : Nat} {w : InboundWorker} {e : WorkerEvent}
    (he : Adopts (.worker k e)) (hstep : s.advance k w e = some t) : t.lost = s.lost := by
  cases e with
  | noSsl adopt =>
    obtain ⟨-, rfl⟩ := of_enabled hstep
    cases adopt with
    | true => rfl
    | false => exact absurd he (by simp [Adopts])
  | obtain ok =>
    obtain ⟨-, rfl⟩ := of_enabled hstep
    cases ok with
    | true => rfl
    | false => exact absurd he (by simp [Adopts])
  | greet ok =>
    obtain ⟨-, rfl⟩ := of_enabled hstep
    rfl
  | verify id =>
    obtain ⟨-, rfl⟩ := of_enabled hstep
    rfl
  | handshake ok =>
    obtain ⟨-, rfl⟩ := of_enabled hstep
    rfl
  | publish =>
    obtain ⟨-, rfl⟩ := of_enabled hstep
    rw [setWorker_atPeer]
  | traffic inn out =>
    obtain ⟨-, rfl⟩ := of_enabled hstep
    rw [setWorker_atPeer]
  | finish resync =>
    obtain ⟨-, rfl⟩ := of_enabled hstep
    rfl
  | owe =>
    obtain ⟨-, rfl⟩ := of_enabled hstep
    rw [setWorker_atPeer]
  | withdraw =>
    obtain ⟨-, rfl⟩ := of_enabled hstep
    rw [setWorker_atPeer]
  | close =>
    obtain ⟨-, rfl⟩ := of_enabled hstep
    rfl
  | reply =>
    obtain ⟨-, rfl⟩ := of_enabled hstep
    rfl

theorem lost_handoff (s : State) (o : HandoffOutcome) (ho : Adopts (.readable o)) :
    (s.handoff o).lost = s.lost := by
  unfold State.handoff
  dsimp only
  split
  · rfl
  · cases o with
    | noMemory => rfl
    | releaseFails => rfl
    | noProcess adopt =>
      cases adopt with
      | true => rfl
      | false => exact absurd ho (by simp [Adopts])
    | started => rfl

theorem drainListenerLocked_lost (s : State) : s.drainListenerLocked.lost = s.lost := by
  unfold State.drainListenerLocked
  split <;> rfl

theorem lost_step {s t : State} {e : Event} (he : Adopts e) (hstep : step s e = some t) : t.lost = s.lost := by
  cases e with
  | begin ok =>
    simp only [step] at hstep
    split at hstep
    · exact absurd hstep (by simp)
    · cases ok <;> exact Option.some.inj hstep ▸ rfl
  | waitFails =>
    simp only [step] at hstep
    split at hstep
    · exact absurd hstep (by simp)
    · exact Option.some.inj hstep ▸ drain_lost s
  | wake =>
    simp only [step] at hstep
    split at hstep
    · exact absurd hstep (by simp)
    · split at hstep
      · exact Option.some.inj hstep ▸ drain_lost s
      · split at hstep
        · exact Option.some.inj hstep ▸ rfl
        · exact absurd hstep (by simp)
  | replies =>
    simp only [step] at hstep
    split at hstep
    · exact absurd hstep (by simp)
    · exact Option.some.inj hstep ▸ rfl
  | readable o =>
    simp only [step] at hstep
    split at hstep
    · exact absurd hstep (by simp)
    · exact Option.some.inj hstep ▸ lost_handoff s o he
  | turn =>
    simp only [step, turn] at hstep
    split at hstep
    · exact Option.some.inj hstep ▸ reapOne_lost _ _
    · exact Option.some.inj hstep ▸ rfl
    · exact Option.some.inj hstep ▸ drain_lost s
    · exact Option.some.inj hstep ▸ reapOne_lost _ _
    · split at hstep
      · exact Option.some.inj hstep ▸ rfl
      · exact absurd hstep (by simp)
    · exact absurd hstep (by simp)
  | worker k e =>
    obtain ⟨w, -, hadv⟩ := Option.bind_eq_some_iff.mp hstep
    exact lost_advance he hadv
  | rescan =>
    simp only [step] at hstep
    split at hstep
    · exact absurd hstep (by simp)
    · obtain rfl := Option.some.inj hstep
      unfold State.listenerRescan
      dsimp only
      split <;> exact drainListenerLocked_lost s
  | stop =>
    simp only [step] at hstep
    split at hstep
    · exact absurd hstep (by simp)
    · exact Option.some.inj hstep ▸ drainListenerLocked_lost s
  | join =>
    simp only [step] at hstep
    split at hstep
    · exact Option.some.inj hstep ▸ rfl
    · exact absurd hstep (by simp)
  | flags j paused removed => exact Option.some.inj hstep ▸ rfl
  | addPeer p => exact Option.some.inj hstep ▸ rfl

theorem lost_run {es : List Event} (hes : ∀ e ∈ es, Adopts e) {s t : State}
    (hrun : Machine.run step s es = some t) : t.lost = s.lost := by
  induction es generalizing s with
  | nil => exact (Option.some.inj hrun) ▸ rfl
  | cons e es ih =>
    obtain ⟨u, hstep, hrest⟩ := Machine.run_cons_eq_some.mp hrun
    have hhead := lost_step (hes e List.mem_cons_self) hstep
    exact (ih (fun e' he' => hes e' (List.mem_cons_of_mem e he')) hrest).trans hhead

theorem workers_of_joined {s : State} (h : Inv s) (hj : s.daemon = .joined) : s.workers = [] :=
  h.handle.empty (Or.inr (h.handle.gone.mpr (Or.inr (Or.inr hj))))

/-- Where the accepted sockets are. -/
structure Kept (s : State) : Prop where
  each : (s.table ++ s.running.filterMap InboundWorker.sock ++ s.closed).Perm (List.range s.accepted)
  table : s.table.Perm ((s.running.filter fun w => w.stage = .started).map InboundWorker.socketId ++ s.lost)
  joined : s.daemon = .joined → (s.closed ++ s.lost).Perm (List.range s.accepted)

/-- **Sockets.** After each run an accepted socket is in the table of released sockets, held by a
worker or closed, and it is there once; in the table it waits for the worker that was started for
it. When `listener_stop` is back each socket has been closed once, but those that could not be
taken out of the table; there are none where that works. -/
theorem inbound_sockets (peers : List ConfigPeer) (es : List Event) {s : State}
    (hrun : Machine.run step (listenerStart peers) es = some s) :
    Kept s ∧ ((∀ e ∈ es, Adopts e) → s.lost = [] ∧
      (s.daemon = .joined → s.closed.Perm (List.range s.accepted))) := by
  have h := inv_run hrun
  have hempty := fun hj => sockets_of_empty h (workers_of_joined h hj)
  refine ⟨⟨h.sockets.each, h.sockets.table, hempty⟩, fun hes => ?_⟩
  have hlost : s.lost = [] := lost_run hes hrun
  refine ⟨hlost, fun hj => ?_⟩
  have hall := hempty hj
  rwa [hlost, List.append_nil] at hall

theorem inbound_sockets_sample :
    ∃ s, Machine.run step (listenerStart samplePeers) (sampleConnect ++ sampleEnd) = some s ∧
    s.accepted = 1 ∧ s.closed = [0] := by
  have hfacts : ((Machine.run step (listenerStart samplePeers) (sampleConnect ++ sampleEnd)).any fun s =>
      s.accepted == 1 && s.daemon == .joined) = true := by decide +kernel
  obtain ⟨s, hs, hfacts⟩ := (Option.any_eq_true _ _).mp hfacts
  obtain ⟨haccepted, hjoined⟩ := Bool.and_eq_true_iff.mp hfacts
  have haccepted : s.accepted = 1 := by simpa using haccepted
  have hes : ∀ e ∈ sampleConnect ++ sampleEnd, Adopts e := by
    unfold sampleConnect sampleEnd
    simp [Adopts]
  have hclosed := ((inbound_sockets samplePeers (sampleConnect ++ sampleEnd) hs).2 hes).2 (by simpa using hjoined)
  rw [haccepted] at hclosed
  exact ⟨s, hs, haccepted, List.perm_singleton.mp hclosed⟩

/-- What was moved with peer `p` is counted in its entry, or in the blocks of `ws` that are not folded in yet. -/
def Counted (ws : List InboundWorker) (j : Nat) (p : SharedPeer) : Prop :=
  p.movedIn ≡ p.inBytesIn.toNat + owing InboundWorker.bytesIn j ws [MOD 2 ^ 64] ∧
    p.movedOut ≡ p.inBytesOut.toNat + owing InboundWorker.bytesOut j ws [MOD 2 ^ 64]

/-- **Bytes.** After each run what the sessions with a peer have moved is in its totals or in the
blocks of workers whose replies have not been taken, once each, as far as 64 bits go; when
`listener_stop` is back all of it is in the totals. -/
theorem inbound_bytes (peers : List ConfigPeer) (es : List Event) {s : State}
    (hrun : Machine.run step (listenerStart peers) es = some s) {j : Nat} {p : SharedPeer}
    (hp : s.peers[j]? = some p) :
    Counted s.workers j p ∧ (s.daemon = .joined → Counted [] j p) := by
  have h := inv_run hrun
  have hcounted : Counted s.workers j p := ⟨h.ledger.bytesIn j p hp, h.ledger.bytesOut j p hp⟩
  refine ⟨hcounted, fun hj => ?_⟩
  rwa [workers_of_joined h hj] at hcounted

theorem inbound_bytes_sample :
    ∃ s p, Machine.run step (listenerStart samplePeers) (sampleConnect ++ sampleEnd) = some s ∧
    s.peers[0]? = some p ∧ p.movedIn = 10 ∧ p.inBytesIn.toNat = 10 := by
  have hfacts : ((Machine.run step (listenerStart samplePeers) (sampleConnect ++ sampleEnd)).any fun s =>
      s.daemon == .joined && (s.peers[0]?).any (fun p => p.movedIn == 10)) = true := by decide +kernel
  obtain ⟨s, hs, hfacts⟩ := (Option.any_eq_true _ _).mp hfacts
  obtain ⟨hjoined, hfacts⟩ := Bool.and_eq_true_iff.mp hfacts
  obtain ⟨p, hp, hmoved⟩ := (Option.any_eq_true _ _).mp hfacts
  have hmoved : p.movedIn = 10 := by simpa using hmoved
  have hin := ((inbound_bytes samplePeers (sampleConnect ++ sampleEnd) hs hp).2 (by simpa using hjoined)).1
  rw [hmoved] at hin
  have hlt := p.inBytesIn.toNat_lt
  refine ⟨s, p, hs, hp, hmoved, ?_⟩
  have heq : 10 % 2 ^ 64 = (p.inBytesIn.toNat + 0) % 2 ^ 64 := hin
  omega

/-- **The end.** After each run in which `listener_stop` has come back there is no worker, no slot
is taken and no peer's entry points to a block; and while it waits, the listener and the workers
that are left have a run on which it comes back. -/
theorem inbound_stop (peers : List ConfigPeer) (es : List Event) {s : State}
    (hrun : Machine.run step (listenerStart peers) es = some s) :
    (s.daemon = .joined → s.workers = [] ∧ (∀ o ∈ s.slots, o = none) ∧ ∀ p ∈ s.peers, p.inboundSt = none) ∧
      (s.daemon = .joining → Ends s) := by
  have hboth : Inv s ∧ Asked s := by
    refine Machine.run_inv (I := fun s => Inv s ∧ Asked s) ?_ hrun ⟨inv_listenerStart peers, ?_⟩
    · exact fun s e t h hstep => ⟨inv_step s e t h.1 hstep, asked_step h.1 h.2 hstep⟩
    · exact fun hj => absurd hj (by simp [listenerStart])
  obtain ⟨h, ha⟩ := hboth
  refine ⟨fun hj => ?_, fun hj => ends_of_waiting s.running ⟨h, ha, rfl, hj⟩⟩
  have hempty := workers_of_joined h hj
  exact ⟨hempty, slots_of_empty h hempty, pointers_of_empty h hempty⟩

theorem inbound_stop_sample :
    ∃ s, Machine.run step (listenerStart samplePeers) (sampleConnect ++ sampleEnd) = some s ∧
    s.workers = [] := by
  have hfacts : ((Machine.run step (listenerStart samplePeers) (sampleConnect ++ sampleEnd)).any fun s =>
      s.daemon == .joined) = true := by decide +kernel
  obtain ⟨s, hs, hjoined⟩ := (Option.any_eq_true _ _).mp hfacts
  exact ⟨s, hs, ((inbound_stop samplePeers (sampleConnect ++ sampleEnd) hs).1 (by simpa using hjoined)).1⟩

end Amisync.Listener

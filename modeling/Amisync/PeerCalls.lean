import Amisync.ConfigReload
import Amisync.Lib.Objects
import Amisync.Lib.Pool
import Amisync.PeerTable

/-!
# What the peer manager keeps

* `Table`: what holds of the peer table.
* `table_setSlot`, `table_setPeer`, `table_spawn`, `table_foldReply`, `table_append`: each
  change of the table keeps it. `table_peerPause` and so on: so does each call.
* `add_removed`: a removed device takes its old slot.
-/

namespace Amisync.Peer

open Ctype ConfigFile

/-! ## What holds -/

namespace PeerState

def ids (s : PeerState) : List Str := s.cfg.map fun p => p.id

/-- All that have a block, with those that have replied and are not reaped. -/
def workers (s : PeerState) : List Worker := s.running ++ s.port.map Prod.fst

end PeerState

def placed (w : Worker) : Nat × Worker := (w.startup.slot, w)

/-- Slots and config entries go together, no two have one id, each worker has a slot for itself,
and none was started that should not have been. The ids that were there first are in place. -/
structure Table (ids : List Str) (s : PeerState) : Prop where
  aligned : s.slots.map PeerSlot.cfg = List.range s.cfg.length
  room : s.cfg.length ≤ configMaxPeers
  valid : none ∉ s.ids.map deviceIdNormalize
  distinct : (s.ids.map deviceIdNormalize).Nodup
  stable : ids <+: s.ids
  pool : Pool (s.slots.map PeerSlot.proc) (s.workers.map placed)
  logged : ∀ w ∈ s.workers, ∃ x ∈ s.spawned, x.worker = w
  allowed : ∀ x ∈ s.spawned, x.paused = false ∧ x.removed = false ∧ x.shuttingDown = false

/-- The slot has no worker, and may have one. -/
def Free (s : PeerState) (i : Nat) : Prop :=
  ∀ slot p, s.entry i = some (slot, p) →
    slot.proc = none ∧ p.paused = false ∧ p.removed = false ∧ s.shuttingDown = false

/-! ## Changes of one place -/

section Modify
variable {α β : Type} {g : α → β} {f : α → α}

theorem map_modify_same (h : ∀ a, g (f a) = g a) (l : List α) (i : Nat) : (l.modify i f).map g = l.map g := by
  refine List.ext_getElem? fun j => ?_
  rw [List.getElem?_map, List.getElem?_map, List.getElem?_modify]
  cases l[j]? with
  | none => rfl
  | some a =>
    by_cases hij : i = j
    · simp [hij, h a]
    · simp [hij]

theorem map_modify_set {b : β} (h : ∀ a, g (f a) = b) (l : List α) (i : Nat) :
    (l.modify i f).map g = (l.map g).set i b := by
  refine List.ext_getElem? fun j => ?_
  rw [List.getElem?_map, List.getElem?_modify, List.getElem?_set]
  by_cases hij : i = j
  · subst hij
    by_cases hlt : i < l.length
    · simp [hlt, h]
    · simp [hlt]
  · simp [hij]

end Modify

section Entries
variable {s : PeerState} {i j : Nat} {slot : PeerSlot} {p : RunPeer} {f : PeerSlot → PeerSlot}

theorem entry_eq_some :
    s.entry i = some (slot, p) ↔ s.slots[i]? = some slot ∧ s.cfg[slot.cfg]? = some p := by
  unfold PeerState.entry
  constructor
  · intro h
    obtain ⟨x, hx, hp⟩ := Option.bind_eq_some_iff.mp h
    obtain ⟨q, hq, he⟩ := Option.map_eq_some_iff.mp hp
    obtain ⟨rfl, rfl⟩ := Prod.mk.inj he
    exact ⟨hx, hq⟩
  · rintro ⟨hslot, hp⟩
    rw [hslot, Option.bind_some, hp, Option.map_some]

theorem entry_setSlot (hcfg : ∀ x, (f x).cfg = x.cfg) (h : (s.setSlot i f).entry j = some (slot, p)) :
    ∃ x, s.entry j = some (x, p) ∧ slot = if i = j then f x else x := by
  obtain ⟨hslot, hp⟩ := entry_eq_some.mp h
  have hmodify : (s.slots.modify i f)[j]? = some slot := hslot
  rw [List.getElem?_modify] at hmodify
  obtain ⟨x, hx, he⟩ := Option.map_eq_some_iff.mp hmodify
  refine ⟨x, entry_eq_some.mpr ⟨hx, ?_⟩, he.symm⟩
  have hsame : slot.cfg = x.cfg := by
    rw [← he]
    split
    · exact hcfg x
    · rfl
  rw [← hsame]
  exact hp

/-- What has neither to do with the place nor with the worker keeps it free. -/
theorem free_setSlot (h : Free s j) (hcfg : ∀ x, (f x).cfg = x.cfg) (hproc : ∀ x, (f x).proc = x.proc) :
    Free (s.setSlot i f) j := by
  intro slot p he
  obtain ⟨x, hx, rfl⟩ := entry_setSlot hcfg he
  obtain ⟨hnone, hflags⟩ := h x p hx
  refine ⟨?_, hflags⟩
  split
  · exact (hproc x).trans hnone
  · exact hnone

theorem free_setBackoff (h : Free s j) (i b : Nat) : Free (s.setSlot i (setBackoff b)) j :=
  free_setSlot h (fun _ => rfl) (fun _ => rfl)

theorem free_of_dialable (he : s.entry i = some (slot, p)) (h : s.dialable slot p = true) : Free s i := by
  intro x q hx
  obtain ⟨rfl, rfl⟩ := Prod.mk.inj (Option.some.inj (he.symm.trans hx))
  unfold PeerState.dialable at h
  simp only [Bool.and_eq_true, Bool.not_eq_true', Option.isNone_iff_eq_none] at h
  exact ⟨h.1.1.2, h.1.2, h.2, h.1.1.1.1⟩

/-- The other slots do not see it. -/
theorem free_spawn {delay : Nat} {o : SpawnOutcome} (h : Free s j) (hij : i ≠ j) : Free (s.spawn i delay o) j := by
  unfold PeerState.spawn
  cases he : s.entry i with
  | none => exact h
  | some e =>
    obtain ⟨slot, p⟩ := e
    cases o with
    | noMemory => exact free_setSlot h (fun _ => rfl) (fun _ => rfl)
    | noProcess => exact free_setSlot h (fun _ => rfl) (fun _ => rfl)
    | started =>
      intro x q hx
      obtain ⟨y, hy, rfl⟩ := entry_setSlot (f := setProc _) (fun _ => rfl) hx
      rw [if_neg hij]
      exact h y q hy

end Entries

/-! ## What each change keeps -/

section Keep
variable {ids : List Str} {s t : PeerState} {i j : Nat}

theorem length_ids : s.ids.length = s.cfg.length := List.length_map _

/-- What does not touch ids, places and workers keeps the table. -/
theorem Table.same (h : Table ids s) (hcfg : t.slots.map PeerSlot.cfg = s.slots.map PeerSlot.cfg)
    (hproc : t.slots.map PeerSlot.proc = s.slots.map PeerSlot.proc) (hids : t.ids = s.ids)
    (hworkers : s.workers.Perm t.workers) (hspawned : t.spawned = s.spawned) : Table ids t where
  aligned := by
    rw [hcfg, ← length_ids, hids, length_ids]
    exact h.aligned
  room := by
    rw [← length_ids, hids, length_ids]
    exact h.room
  valid := hids ▸ h.valid
  distinct := hids ▸ h.distinct
  stable := hids ▸ h.stable
  pool := by
    rw [hproc]
    exact h.pool.perm (hworkers.map placed)
  logged w hw := hspawned ▸ h.logged w (hworkers.mem_iff.mpr hw)
  allowed := hspawned ▸ h.allowed

theorem table_setSlot (h : Table ids s) {f : PeerSlot → PeerSlot} (hcfg : ∀ x, (f x).cfg = x.cfg)
    (hproc : ∀ x, (f x).proc = x.proc) : Table ids (s.setSlot i f) :=
  h.same (map_modify_same hcfg s.slots i) (map_modify_same hproc s.slots i) rfl (List.Perm.refl _) rfl

theorem table_setBackoff (h : Table ids s) (i b : Nat) : Table ids (s.setSlot i (setBackoff b)) :=
  table_setSlot h (fun _ => rfl) (fun _ => rfl)

theorem table_setPeer (h : Table ids s) {f : RunPeer → RunPeer} (hid : ∀ p, (f p).id = p.id) :
    Table ids (s.setPeer j f) :=
  h.same rfl rfl (map_modify_same hid s.cfg j) (List.Perm.refl _) rfl

theorem table_reply (h : Table ids s) (k : Nat) (f : Finished) : Table ids (s.reply k f) := by
  unfold PeerState.reply
  cases hk : s.running[k]? with
  | none => exact h
  | some w =>
    obtain ⟨hlt, rfl⟩ := List.getElem?_eq_some_iff.mp hk
    refine h.same rfl rfl rfl ?_ rfl
    have hmove : (s.running[k] :: s.running.eraseIdx k).Perm s.running := List.getElem_cons_eraseIdx_perm hlt
    unfold PeerState.workers
    rw [List.map_append, List.map_singleton, ← List.append_assoc]
    refine (hmove.symm.append_right _).trans ?_
    exact (List.perm_append_singleton _ _).symm

/-- **A worker is started for a free slot.** -/
theorem table_spawn (h : Table ids s) (hfree : Free s i) (delay : Nat) (o : SpawnOutcome) :
    Table ids (s.spawn i delay o) := by
  unfold PeerState.spawn
  cases he : s.entry i with
  | none => exact h
  | some e =>
    obtain ⟨slot, p⟩ := e
    obtain ⟨hnone, hpaused, hremoved, hdown⟩ := hfree slot p he
    cases o with
    | noMemory => exact table_setSlot h (fun _ => rfl) (fun _ => rfl)
    | noProcess => exact table_setSlot h (fun _ => rfl) (fun _ => rfl)
    | started =>
      dsimp only
      generalize hw : (⟨s.nextProc, PeerState.startupFor slot p i delay⟩ : Worker) = w
      have hplace : w.startup.slot = i := by
        rw [← hw]
        rfl
      have hheld : (s.slots.map PeerSlot.proc)[i]? = some none := by
        rw [List.getElem?_map, (entry_eq_some.mp he).1, Option.map_some, hnone]
      have hmore : (s.workers ++ [w]).Perm (s.running ++ [w] ++ s.port.map Prod.fst) := by
        unfold PeerState.workers
        rw [List.append_assoc, List.append_assoc]
        exact List.Perm.append_left _ List.perm_append_comm
      constructor
      case aligned => exact (map_modify_same (f := setProc w) (fun _ => rfl) s.slots i).trans h.aligned
      case room => exact h.room
      case valid => exact h.valid
      case distinct => exact h.distinct
      case stable => exact h.stable
      case pool =>
        have hstart := h.pool.start hheld w
        have hset := map_modify_set (g := PeerSlot.proc) (f := setProc w) (fun _ => rfl) s.slots i
        rw [← hset] at hstart
        refine hstart.perm ?_
        have hmap := hmore.map placed
        rw [List.map_append, List.map_singleton, placed, hplace] at hmap
        exact hmap
      case logged =>
        intro v hv
        rcases List.mem_append.mp (hmore.mem_iff.mpr hv) with hv | hv
        · obtain ⟨x, hx, hxv⟩ := h.logged v hv
          exact ⟨x, List.mem_append_left _ hx, hxv⟩
        · refine ⟨_, List.mem_append_right _ (List.mem_singleton.mpr rfl), ?_⟩
          exact (List.mem_singleton.mp hv).symm
      case allowed =>
        intro x hx
        rcases List.mem_append.mp hx with hx | hx
        · exact h.allowed x hx
        · rw [List.mem_singleton.mp hx]
          exact ⟨hpaused, hremoved, hdown⟩

theorem table_dial (h : Table ids s) (delay : Nat) (o : SpawnOutcome) : Table ids (s.dial i delay o) := by
  unfold PeerState.dial
  cases he : s.entry i with
  | none => exact h
  | some e =>
    dsimp only
    split
    · rename_i hdial
      exact table_spawn h (free_of_dialable he hdial) delay o
    · exact h

/-- **A worker's reply is taken**: its slot is free then. -/
theorem table_foldReply {m : Worker × Finished} {rest : List (Worker × Finished)}
    (h : Table ids { s with port := m :: rest }) : Table ids { s.foldReply m with port := rest } := by
  have hperm : (PeerState.workers { s with port := m :: rest }).Perm (m.1 :: (s.running ++ rest.map Prod.fst)) :=
    List.perm_middle
  constructor
  case aligned => exact (map_modify_same (f := slotFold m.2) (fun _ => rfl) s.slots _).trans h.aligned
  case room => exact h.room
  case valid => exact h.valid
  case distinct => exact h.distinct
  case stable => exact h.stable
  case pool =>
    have hset := map_modify_set (g := PeerSlot.proc) (f := slotFold m.2) (fun _ => rfl) s.slots m.1.startup.slot
    have hfinish := (h.pool.perm (hperm.map placed)).finish
    rw [placed, ← hset] at hfinish
    exact hfinish
  case logged =>
    intro w hw
    exact h.logged w (hperm.mem_iff.mpr (List.mem_cons_of_mem _ hw))
  case allowed => exact h.allowed

theorem ids_append (p : RunPeer) (slots : List PeerSlot) :
    PeerState.ids { s with cfg := s.cfg ++ [p], slots := slots } = s.ids ++ [p.id] := List.map_append

/-- **A peer and its slot are added.** -/
theorem table_append (h : Table ids s) {p : RunPeer} {slot : PeerSlot} (hcfg : slot.cfg = s.cfg.length)
    (hproc : slot.proc = none) (hroom : s.cfg.length < configMaxPeers)
    (hvalid : deviceIdNormalize p.id ≠ none) (hnew : deviceIdNormalize p.id ∉ s.ids.map deviceIdNormalize) :
    Table ids { s with cfg := s.cfg ++ [p], slots := s.slots ++ [slot] } where
  aligned := by
    rw [List.map_append, List.map_singleton, h.aligned, hcfg, List.length_append, List.length_singleton,
      List.range_succ]
  room := by
    rw [List.length_append]
    exact hroom
  valid := by
    rw [ids_append, List.map_append, List.mem_append, not_or]
    exact ⟨h.valid, by simpa using hvalid.symm⟩
  distinct := by
    rw [ids_append, List.map_append, List.map_singleton]
    exact h.distinct.append (List.nodup_singleton _) (by simpa using hnew)
  stable := by
    rw [ids_append]
    exact h.stable.trans (List.prefix_append _ _)
  pool := by
    rw [List.map_append, List.map_singleton, hproc]
    exact h.pool.grow
  logged := h.logged
  allowed := h.allowed

theorem with_port {l : List (Worker × Finished)} (h : s.port = l) : { s with port := l } = s := by
  subst h
  rfl

end Keep

/-! ## The replies -/

section Replies
variable {ids : List Str} {s : PeerState} (h : Table ids s)
include h

theorem table_reap {w : Worker} {f : Finished} {rest : List (Worker × Finished)} (hport : s.port = (w, f) :: rest)
    (o : SpawnOutcome) : Table ids (PeerState.reap { s with port := rest } w f o) := by
  have hfold : Table ids (PeerState.foldReply { s with port := rest } (w, f)) :=
    table_foldReply (s := { s with port := rest }) ((with_port hport).symm ▸ h)
  unfold PeerState.reap
  dsimp only
  generalize PeerState.foldReply { s with port := rest } (w, f) = t at hfold ⊢
  cases he : t.entry w.startup.slot with
  | none => exact hfold
  | some e =>
    dsimp only
    split
    · rename_i hdial
      have hfree := free_of_dialable he hdial
      split
      · exact table_spawn (table_setBackoff hfold _ _) (free_setBackoff hfree _ _) _ o
      · exact table_spawn (table_setBackoff hfold _ _) (free_setBackoff hfree _ _) _ o
    · exact hfold

omit h in
theorem table_foldReplies {l : List (Worker × Finished)} (h : Table ids { s with port := l }) :
    Table ids { l.foldl PeerState.foldReply s with port := [] } := by
  induction l generalizing s with
  | nil => exact h
  | cons m l ih => exact ih (table_foldReply h)

omit h in
theorem port_foldReplies (l : List (Worker × Finished)) : (l.foldl PeerState.foldReply s).port = s.port := by
  induction l generalizing s with
  | nil => rfl
  | cons m l ih => exact ih

omit h in
theorem port_pmDrainLocked : s.pmDrainLocked.port = [] := port_foldReplies s.port

theorem table_pmDrainLocked : Table ids s.pmDrainLocked := by
  have hall := table_foldReplies (s := { s with port := [] }) (l := s.port) h
  rw [← PeerState.pmDrainLocked, with_port port_pmDrainLocked] at hall
  exact hall

end Replies

/-! ## The loops -/

section Loops
variable {ids : List Str} {s : PeerState} {f : Nat → PeerSlot → RunPeer → Nat × PeerState → Nat × PeerState}

theorem forSlots_inv {I : Nat → PeerState → Prop}
    (hstep : ∀ i slot p a, I i a.2 → a.2.entry i = some (slot, p) → I (i + 1) (f i slot p a).2)
    (hskip : ∀ i t, I i t → t.entry i = none → I (i + 1) t) (hs : I 0 s) :
    I s.slots.length (s.forSlots f).2 := by
  refine Objects.inv_foldl_range (I := fun i a => I i a.2) ?_ s.slots.length (s := (0, s)) hs
  intro i a ha
  cases he : a.2.entry i with
  | none => exact hskip i a.2 ha he
  | some e => exact hstep i e.1 e.2 a ha he

theorem table_forSlots
    (hstep : ∀ i slot p a, Table ids a.2 → a.2.entry i = some (slot, p) → Table ids (f i slot p a).2)
    (h : Table ids s) : Table ids (s.forSlots f).2 :=
  forSlots_inv (I := fun _ => Table ids) hstep (fun _ _ ht _ => ht) h

theorem findSlot_eq_some {q : RunPeer → Bool} {i : Nat} (h : s.findSlot q = some i) :
    ∃ slot p, s.entry i = some (slot, p) ∧ q p = true := by
  have hpass := List.find?_some h
  obtain ⟨⟨slot, p⟩, he, hq⟩ := (Option.any_eq_true _ _).mp hpass
  exact ⟨slot, p, he, hq⟩

theorem findSlot_eq_none {q : RunPeer → Bool} (h : s.findSlot q = none) {i : Nat} {slot : PeerSlot} {p : RunPeer}
    (he : s.entry i = some (slot, p)) : q p = false := by
  have hlt := (List.getElem?_eq_some_iff.mp (entry_eq_some.mp he).1).1
  have hpass := List.find?_eq_none.mp h i (List.mem_range.mpr hlt)
  rw [he, Option.any_some, Bool.not_eq_true] at hpass
  exact hpass

end Loops

/-! ## What the daemon asks for -/

section Calls
variable {ids : List Str} {s : PeerState} (h : Table ids s)
include h

theorem slot_cfg {i : Nat} {slot : PeerSlot} (hi : s.slots[i]? = some slot) : slot.cfg = i := by
  have hmap : (s.slots.map PeerSlot.cfg)[i]? = some slot.cfg := by rw [List.getElem?_map, hi, Option.map_some]
  rw [h.aligned, List.getElem?_eq_some_iff] at hmap
  obtain ⟨hlt, he⟩ := hmap
  rw [← he, List.getElem_range]

theorem length_slots : s.slots.length = s.cfg.length := by
  have hlen := congrArg List.length h.aligned
  rw [List.length_map, List.length_range] at hlen
  exact hlen

/-- Each peer has its slot. -/
theorem exists_entry {i : Nat} {p : RunPeer} (hp : s.cfg[i]? = some p) : ∃ slot, s.entry i = some (slot, p) := by
  have hlt := (List.getElem?_eq_some_iff.mp hp).1
  rw [← length_slots h] at hlt
  have hslot := List.getElem?_eq_getElem hlt
  refine ⟨s.slots[i], entry_eq_some.mpr ⟨hslot, ?_⟩⟩
  rw [slot_cfg h hslot]
  exact hp

/-- No two peers have one id. -/
theorem index_of_key {i j : Nat} {p q : RunPeer} (hp : s.cfg[i]? = some p) (hq : s.cfg[j]? = some q)
    (hkey : deviceIdNormalize p.id = deviceIdNormalize q.id) : i = j := by
  have hlt : i < (s.ids.map deviceIdNormalize).length := by
    rw [List.length_map, length_ids]
    exact (List.getElem?_eq_some_iff.mp hp).1
  refine (List.getElem?_inj hlt h.distinct).mp ?_
  unfold PeerState.ids
  rw [List.getElem?_map, List.getElem?_map, List.getElem?_map, List.getElem?_map, hp, hq]
  exact congrArg some hkey

theorem table_peerManagerStart (hfree : ∀ i, Free s i) (o : Nat → SpawnOutcome) :
    Table ids (s.peerManagerStart o) := by
  have hall : Table ids s ∧ ∀ j, 0 ≤ j → Free s j := ⟨h, fun j _ => hfree j⟩
  refine (forSlots_inv (I := fun i t => Table ids t ∧ ∀ j, i ≤ j → Free t j) ?_ ?_ hall).1
  · rintro i slot p ⟨n, t⟩ ⟨ht, hrest⟩ -
    dsimp only
    split
    · refine ⟨table_spawn ht (hrest i (Nat.le_refl i)) 0 (o i), fun j hj => ?_⟩
      exact free_spawn (hrest j (by omega)) (by omega)
    · exact ⟨ht, fun j hj => hrest j (by omega)⟩
  · rintro i t ⟨ht, hrest⟩ -
    exact ⟨ht, fun j hj => hrest j (by omega)⟩

theorem table_peerManagerRetry (o : Nat → SpawnOutcome) : Table ids (s.peerManagerRetry o) := by
  unfold PeerState.peerManagerRetry
  split
  · exact h
  · exact table_forSlots (fun i slot _ a ha _ => table_dial ha slot.backoff (o i)) h

theorem table_peerPause (id : Str) : Table ids (s.peerPause id).2 := by
  refine table_forSlots ?_ h
  intro i slot p a ha _
  split
  · exact ha
  · split
    · exact ha
    · exact table_setPeer ha (fun _ => rfl)

theorem table_peerResume (id : Str) (o : Nat → SpawnOutcome) : Table ids (s.peerResume id o).2 := by
  unfold PeerState.peerResume
  split
  · exact h
  · refine table_forSlots ?_ h
    intro i slot p a ha _
    split
    · exact ha
    · split
      · exact ha
      · split
        · refine table_dial (table_setSlot (table_setPeer ha ?_) ?_ ?_) 0 (o i) <;> exact fun _ => rfl
        · exact ha

theorem table_peerManagerRemove (id : Str) : Table ids (s.peerManagerRemove id).2 := by
  unfold PeerState.peerManagerRemove
  split
  · exact h
  · refine table_forSlots ?_ h
    intro i slot p a ha _
    split
    · exact ha
    · exact table_setPeer ha (fun _ => rfl)

omit h in
theorem slotSetAddr_cfg (host : Str) (port : Nat) (x : PeerSlot) : (slotSetAddr host port x).cfg = x.cfg := by
  unfold slotSetAddr
  split <;> rfl

omit h in
theorem slotSetAddr_proc (host : Str) (port : Nat) (x : PeerSlot) : (slotSetAddr host port x).proc = x.proc := by
  unfold slotSetAddr
  split <;> rfl

theorem table_peerManagerDiscovered (id host : Str) (port : Nat) (o : SpawnOutcome) :
    Table ids (s.peerManagerDiscovered id host port o) := by
  unfold PeerState.peerManagerDiscovered
  split
  · exact h
  · split
    · exact h
    · rename_i i _
      split
      · exact h
      · split
        · exact h
        · have ht : Table ids (s.setSlot i (slotSetAddr host port)) :=
            table_setSlot h (slotSetAddr_cfg host port) (slotSetAddr_proc host port)
          dsimp only
          generalize s.setSlot i (slotSetAddr host port) = t at ht ⊢
          cases he : t.entry i with
          | none => exact ht
          | some e =>
            dsimp only
            split
            · rename_i hdial
              have hfree := free_of_dialable he hdial
              exact table_spawn (table_setBackoff ht _ _) (free_setBackoff hfree _ _) 0 o
            · exact ht

theorem table_readd (i : Nat) (host : Str) (port : Nat) (o : SpawnOutcome) : Table ids (s.readd i host port o) := by
  unfold PeerState.readd
  cases s.slots[i]? with
  | none => exact h
  | some slot =>
    dsimp only
    refine table_dial (table_setBackoff ?_ _ _) 0 o
    split
    · exact table_setPeer h (fun _ => rfl)
    · refine table_setSlot ?_ (slotSetAddr_cfg _ _) (slotSetAddr_proc _ _)
      refine table_setPeer ?_ (fun _ => rfl)
      exact table_setPeer h (fun _ => rfl)

/-- A device that is in no slot has a new key. -/
theorem key_notMem {canon : Str} (hcanon : deviceIdNormalize canon = some canon)
    (hhas : s.peerManagerHas canon = false)
    (hgone : s.findSlot (fun p => p.removed && deviceIdEqual p.id canon) = none) :
    some canon ∉ s.ids.map deviceIdNormalize := by
  intro hmem
  obtain ⟨x, hx, hkey⟩ := List.mem_map.mp hmem
  obtain ⟨p, hp, rfl⟩ := List.mem_map.mp hx
  obtain ⟨i, hi⟩ := List.mem_iff_getElem?.mp hp
  obtain ⟨slot, he⟩ := exists_entry h hi
  have hequal : deviceIdEqual p.id canon = true := (deviceIdEqual_iff hcanon).mpr hkey
  unfold PeerState.peerManagerHas at hhas
  rw [Option.isSome_eq_false_iff, Option.isNone_iff_eq_none] at hhas
  have hlive := findSlot_eq_none hhas he
  have hdead := findSlot_eq_none hgone he
  rw [hequal, Bool.and_true] at hlive hdead
  rw [hdead] at hlive
  exact absurd hlive (by decide)

theorem table_peerManagerAdd (id host : Str) (port : Nat) (o : SpawnOutcome) :
    Table ids (s.peerManagerAdd id host port o).2 := by
  unfold PeerState.peerManagerAdd
  cases hid : deviceIdNormalize id with
  | none => exact h
  | some canon =>
    have hcanon := normalize_of_normalize hid
    dsimp only
    split
    · exact h
    · rename_i hhas
      cases hgone : s.findSlot fun p => p.removed && deviceIdEqual p.id canon with
      | some i => exact table_readd h i host port o
      | none =>
        dsimp only
        split
        · exact h
        · split
          · exact h
          · rename_i hroom _
            have hfits : setField deviceIdBufsz canon = canon := by
              refine setField_of_length ?_
              rw [(normalize_facts hid).1]
              decide
            generalize hp : (if host = [] then (⟨setField deviceIdBufsz canon, [], 0⟩ : ConfigPeer)
              else ⟨setField deviceIdBufsz canon, setField configHostMax host, portOr port⟩) = p
            have hkey : deviceIdNormalize p.id = some canon := by
              have hpid : p.id = canon := by
                rw [← hp]
                split <;> exact hfits
              rw [hpid, hcanon]
            have ht := table_append h (p := ⟨p, false, false⟩) (slotSetAddr_cfg p.host p.port
              { emptySlot with cfg := s.cfg.length, backoff := peerBackoffMin }) (slotSetAddr_proc _ _ _)
              (by omega) (by rw [hkey]; exact Option.some_ne_none canon)
              (by rw [hkey]; exact key_notMem h hcanon (Bool.not_eq_true _ ▸ hhas) hgone)
            dsimp only
            split
            · exact table_dial ht 0 o
            · exact ht

/-! ## A device that is added again -/

omit h in
theorem spawn_tables (i delay : Nat) (o : SpawnOutcome) :
    (s.spawn i delay o).cfg = s.cfg ∧ (s.spawn i delay o).slots.length = s.slots.length := by
  unfold PeerState.spawn
  cases s.entry i with
  | none => exact ⟨rfl, rfl⟩
  | some e => cases o <;> exact ⟨rfl, List.length_modify _ _ _⟩

omit h in
theorem dial_tables (i delay : Nat) (o : SpawnOutcome) :
    (s.dial i delay o).cfg = s.cfg ∧ (s.dial i delay o).slots.length = s.slots.length := by
  unfold PeerState.dial
  cases s.entry i with
  | none => exact ⟨rfl, rfl⟩
  | some e =>
    dsimp only
    split
    · exact spawn_tables i delay o
    · exact ⟨rfl, rfl⟩

theorem readd_tables {i : Nat} {p : RunPeer} (hp : s.cfg[i]? = some p) (host : Str) (port : Nat) (o : SpawnOutcome) :
    (s.readd i host port o).slots.length = s.slots.length ∧
      ∃ q, (s.readd i host port o).cfg[i]? = some q ∧ q.id = p.id ∧ q.removed = false ∧ q.paused = false := by
  obtain ⟨slot, he⟩ := exists_entry h hp
  have hslot := (entry_eq_some.mp he).1
  have hcfg := slot_cfg h hslot
  unfold PeerState.readd
  rw [hslot]
  dsimp only
  rw [hcfg, (dial_tables i 0 o).1, (dial_tables i 0 o).2]
  have hlive : (s.cfg.modify i fun p => { p with removed := false, paused := false })[i]? =
      some { p with removed := false, paused := false } := by
    rw [List.getElem?_modify_eq, hp]
    rfl
  split
  · exact ⟨List.length_modify _ _ _, _, hlive, rfl, rfl, rfl⟩
  · refine ⟨(List.length_modify _ _ _).trans (List.length_modify _ _ _),
      { p with removed := false, paused := false, host := setField configHostMax host, port := portOr port }, ?_, rfl,
      rfl, rfl⟩
    refine (List.getElem?_modify_eq _ i _).trans ?_
    rw [PeerState.setPeer, hlive]
    rfl

/-- **A removed device takes its old slot.** -/
theorem add_removed {i : Nat} {p : RunPeer} (hp : s.cfg[i]? = some p) (hremoved : p.removed = true) {id : Str}
    (hid : deviceIdEqual p.id id = true) (host : Str) (port : Nat) (o : SpawnOutcome) :
    s.peerManagerAdd id host port o = (1, s.readd i host port o) := by
  unfold PeerState.peerManagerAdd
  cases hcanon : deviceIdNormalize id with
  | none =>
    unfold deviceIdEqual at hid
    rw [hcanon] at hid
    split at hid <;> simp_all
  | some canon =>
    have hkey : deviceIdNormalize p.id = some canon := by
      rw [← hcanon]
      exact (deviceIdEqual_valid (by rw [hcanon]; exact Option.some_ne_none canon) p.id).mp hid
    have hnormal := normalize_of_normalize hcanon
    have honly : ∀ {j : Nat} {slot : PeerSlot} {q : RunPeer}, s.entry j = some (slot, q) →
        deviceIdEqual q.id canon = true → j = i := by
      intro j slot q he hq
      obtain ⟨hslot, hcfg⟩ := entry_eq_some.mp he
      rw [slot_cfg h hslot] at hcfg
      exact index_of_key h hcfg hp (((deviceIdEqual_iff hnormal).mp hq).trans hkey.symm)
    obtain ⟨slot, he⟩ := exists_entry h hp
    have hhas : s.peerManagerHas canon = false := by
      unfold PeerState.peerManagerHas
      cases hfind : s.findSlot fun p => !p.removed && deviceIdEqual p.id canon with
      | none => rfl
      | some j =>
        obtain ⟨x, q, hj, hq⟩ := findSlot_eq_some hfind
        simp only [Bool.and_eq_true, Bool.not_eq_true'] at hq
        obtain rfl := honly hj hq.2
        rw [he] at hj
        obtain ⟨rfl, rfl⟩ := Prod.mk.inj (Option.some.inj hj)
        exact absurd (hq.1.symm.trans hremoved) (by decide)
    have htomb : s.findSlot (fun p => p.removed && deviceIdEqual p.id canon) = some i := by
      cases hfind : s.findSlot fun p => p.removed && deviceIdEqual p.id canon with
      | none =>
        have hnot := findSlot_eq_none hfind he
        rw [hremoved, (deviceIdEqual_iff hnormal).mpr hkey] at hnot
        exact absurd hnot (by decide)
      | some j =>
        obtain ⟨x, q, hj, hq⟩ := findSlot_eq_some hfind
        rw [honly hj (Bool.and_eq_true_iff.mp hq).2]
    dsimp only
    rw [hhas, htomb]
    rfl

end Calls

end Amisync.Peer

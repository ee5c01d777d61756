import Amisync.ConfigFile
import Amisync.Messages

/-!
# The peer table (`peer.c`)

A slot for each configured peer, with the worker that dials it. A peer that is removed leaves
its slot behind.

* `PeerState`: the config's peers, the slots, and the workers that are about.
* `spawn`, `reap`, `pmDrainLocked`: how a worker is started, and the two ways in which its
  reply is taken.
* `peerManagerStart`, `peerManagerRetry`, `peerPause`, `peerResume`, `peerManagerDiscovered`,
  `peerManagerRemove`, `peerManagerAdd`: what the daemon asks for.
-/

namespace Amisync.Peer

open Ctype ConfigFile Messages

/-! ## The records -/

def peerBackoffMin : Nat := 2
def peerBackoffMax : Nat := 60

/-- A peer of the config with what is only kept at runtime. -/
structure RunPeer extends ConfigPeer where
  paused : Bool
  removed : Bool
  deriving DecidableEq

/-- What a worker is given; `slot` is the place of its slot. -/
structure WorkerStartup where
  host : Str
  port : Nat
  peerId : Str
  initialDelay : Nat
  slot : Nat
  deriving DecidableEq

/-- A process with its block. -/
structure Worker where
  proc : Nat
  startup : WorkerStartup
  deriving DecidableEq

/-- `cfg` is the place of the config entry. `proc` and `startup` are set and cleared together, so
that they are one field. -/
structure PeerSlot where
  cfg : Nat
  proc : Option Worker
  backoff : Nat
  host : Str
  port : Nat
  haveAddr : Bool
  totIn : UInt64
  totOut : UInt64
  rname : Str
  rclient : Str
  spawnWarned : Bool
  deriving DecidableEq

/-- What a worker has put into its block when it replies. -/
structure Finished where
  connected : Bool
  bytesIn : UInt64
  bytesOut : UInt64
  peerName : Str
  peerClient : Str
  deriving DecidableEq

/-- The flags when a worker was started. -/
structure Spawned where
  worker : Worker
  paused : Bool
  removed : Bool
  shuttingDown : Bool
  deriving DecidableEq

/-- `running` are the workers that have not replied, `port` are the replies in the manager's port.
`spawned` is no part of the program. -/
structure PeerState where
  cfg : List RunPeer
  slots : List PeerSlot
  shuttingDown : Bool
  running : List Worker
  port : List (Worker × Finished)
  nextProc : Nat
  spawned : List Spawned

/-- How `spawn` ends: there may be no memory for the block, or no process. -/
inductive SpawnOutcome
  | noMemory
  | noProcess
  | started
  deriving DecidableEq

/-! ## Slots -/

def emptySlot : PeerSlot := ⟨0, none, 0, [], 0, false, 0, 0, [], [], false⟩

def portOr (port : Nat) : Nat := if port ≠ 0 then port else configDefaultPort

/-- A string that is `NULL` in the program is empty here. -/
def slotSetAddr (host : Str) (port : Nat) (slot : PeerSlot) : PeerSlot :=
  if host = [] then slot
  else { slot with host := setField configHostMax host, port := portOr port, haveAddr := true }

def slotFold (f : Finished) (slot : PeerSlot) : PeerSlot :=
  { slot with
    totIn := slot.totIn + f.bytesIn
    totOut := slot.totOut + f.bytesOut
    rname := if f.peerName ≠ [] then setField bepNameMax f.peerName else slot.rname
    rclient := if f.peerClient ≠ [] then setField (2 * bepNameMax) f.peerClient else slot.rclient
    proc := none }

def setBackoff (b : Nat) (slot : PeerSlot) : PeerSlot := { slot with backoff := b }

def spawnFailed (slot : PeerSlot) : PeerSlot := { slot with spawnWarned := true }

def setProc (w : Worker) (slot : PeerSlot) : PeerSlot := { slot with spawnWarned := false, proc := some w }

namespace PeerState

/-! ## Workers -/

/-- A slot with its config entry. -/
def entry (s : PeerState) (i : Nat) : Option (PeerSlot × RunPeer) :=
  s.slots[i]?.bind fun slot => (s.cfg[slot.cfg]?).map fun p => (slot, p)

def setSlot (s : PeerState) (i : Nat) (f : PeerSlot → PeerSlot) : PeerState :=
  { s with slots := s.slots.modify i f }

def setPeer (s : PeerState) (j : Nat) (f : RunPeer → RunPeer) : PeerState :=
  { s with cfg := s.cfg.modify j f }

def dialable (s : PeerState) (slot : PeerSlot) (p : RunPeer) : Bool :=
  !s.shuttingDown && slot.haveAddr && slot.proc.isNone && !p.paused && !p.removed

/-- The block that `spawn` fills in. -/
def startupFor (slot : PeerSlot) (p : RunPeer) (i delay : Nat) : WorkerStartup :=
  ⟨setField configHostMax slot.host, slot.port, setField deviceIdBufsz p.id, delay, i⟩

/-- Launch a dialer worker for slot `i`. -/
def spawn (s : PeerState) (i delay : Nat) (o : SpawnOutcome) : PeerState :=
  match s.entry i with
  | none => s
  | some (slot, p) =>
    match o with
    | .noMemory | .noProcess => s.setSlot i spawnFailed
    | .started =>
      let w : Worker := ⟨s.nextProc, startupFor slot p i delay⟩
      { s.setSlot i (setProc w) with
        running := s.running ++ [w]
        nextProc := s.nextProc + 1
        spawned := s.spawned ++ [⟨w, p.paused, p.removed, s.shuttingDown⟩] }

/-- `if (dialable(pm, slot)) spawn(pm, slot, delay);` -/
def dial (s : PeerState) (i delay : Nat) (o : SpawnOutcome) : PeerState :=
  match s.entry i with
  | none => s
  | some (slot, p) => if s.dialable slot p then s.spawn i delay o else s

def foldReply (s : PeerState) (m : Worker × Finished) : PeerState :=
  s.setSlot m.1.startup.slot (slotFold m.2)

/-- The body of the loop of `peer_manager_handle`, for the reply of `w`. -/
def reap (s : PeerState) (w : Worker) (f : Finished) (o : SpawnOutcome) : PeerState :=
  let i := w.startup.slot
  let s := s.foldReply (w, f)
  match s.entry i with
  | none => s
  | some (slot, p) =>
    if s.dialable slot p then
      if f.connected then (s.setSlot i (setBackoff peerBackoffMin)).spawn i peerBackoffMin o
      else
        let next := if slot.backoff < peerBackoffMax / 2 then slot.backoff * 2 else peerBackoffMax
        (s.setSlot i (setBackoff next)).spawn i slot.backoff o
    else s

/-- Nothing is started again here. -/
def pmDrainLocked (s : PeerState) : PeerState := s.port.foldl foldReply { s with port := [] }

/-- The running worker `k` replies. -/
def reply (s : PeerState) (k : Nat) (f : Finished) : PeerState :=
  match s.running[k]? with
  | none => s
  | some w => { s with running := s.running.eraseIdx k, port := s.port ++ [(w, f)] }

/-! ## What the daemon asks for -/

/-- `for (i = 0; i < pm->n; i++)`, with what is counted. -/
def forSlots (f : Nat → PeerSlot → RunPeer → Nat × PeerState → Nat × PeerState) (s : PeerState) :
    Nat × PeerState :=
  (List.range s.slots.length).foldl (fun a i =>
    match a.2.entry i with
    | none => a
    | some (slot, p) => f i slot p a) (0, s)

/-- The first slot with a peer that passes. -/
def findSlot (s : PeerState) (q : RunPeer → Bool) : Option Nat :=
  (List.range s.slots.length).find? fun i => (s.entry i).any fun e => q e.2

/-- `peer_manager_create`, where there is memory for it. -/
def peerManagerCreate (peers : List ConfigPeer) : PeerState where
  cfg := peers.map fun p => ⟨p, false, false⟩
  slots := peers.zipIdx.map fun (p, i) =>
    slotSetAddr p.host p.port { emptySlot with cfg := i, backoff := peerBackoffMin }
  shuttingDown := false
  running := []
  port := []
  nextProc := 0
  spawned := []

/-- Each slot has its own outcome. -/
def peerManagerStart (s : PeerState) (o : Nat → SpawnOutcome) : PeerState :=
  (s.forSlots fun i slot _ a => if slot.haveAddr then (a.1, a.2.spawn i 0 (o i)) else a).2

def peerManagerRetry (s : PeerState) (o : Nat → SpawnOutcome) : PeerState :=
  if s.shuttingDown then s
  else (s.forSlots fun i slot _ a => (a.1, a.2.dial i slot.backoff (o i))).2

/-- Up to `pm_signal_workers`. An empty id stands for all. -/
def peerPause (s : PeerState) (id : Str) : Nat × PeerState :=
  s.forSlots fun _ slot p a =>
    if p.removed then a
    else if id ≠ [] && !deviceIdEqual p.id id then a
    else (a.1 + 1, a.2.setPeer slot.cfg fun p => { p with paused := true })

def peerResume (s : PeerState) (id : Str) (o : Nat → SpawnOutcome) : Nat × PeerState :=
  if s.shuttingDown then (0, s)
  else s.forSlots fun i slot p a =>
    if p.removed then a
    else if id ≠ [] && !deviceIdEqual p.id id then a
    else if p.paused then
      let t := (a.2.setPeer slot.cfg fun p => { p with paused := false }).setSlot i (setBackoff peerBackoffMin)
      (a.1 + 1, t.dial i 0 (o i))
    else (a.1 + 1, a.2)

def peerManagerDiscovered (s : PeerState) (id host : Str) (port : Nat) (o : SpawnOutcome) : PeerState :=
  if s.shuttingDown || host = [] || port = 0 then s
  else
    match s.findSlot fun p => !p.removed && deviceIdEqual p.id id with
    | none => s
    | some i =>
      match s.slots[i]? with
      | none => s
      | some slot =>
        if slot.haveAddr && slot.port = port && decide (slot.host = host) && slot.proc.isSome then s
        else
          let t := s.setSlot i (slotSetAddr host port)
          match t.entry i with
          | none => t
          | some (slot, p) =>
            if t.dialable slot p then (t.setSlot i (setBackoff peerBackoffMin)).spawn i 0 o else t

def peerManagerHas (s : PeerState) (id : Str) : Bool :=
  (s.findSlot fun p => !p.removed && deviceIdEqual p.id id).isSome

/-- Up to `pm_signal_workers`; the number is what is found. -/
def peerManagerRemove (s : PeerState) (id : Str) : Nat × PeerState :=
  if id = [] then (0, s)
  else s.forSlots fun _ slot p a =>
    if p.removed || !deviceIdEqual p.id id then a
    else (1, a.2.setPeer slot.cfg fun p => { p with removed := true, paused := true })

/-- The slot of a removed peer is taken into use again. -/
def readd (s : PeerState) (i : Nat) (host : Str) (port : Nat) (o : SpawnOutcome) : PeerState :=
  match s.slots[i]? with
  | none => s
  | some slot =>
    let t := s.setPeer slot.cfg fun p => { p with removed := false, paused := false }
    let t :=
      if host = [] then t
      else (t.setPeer slot.cfg fun p => { p with host := setField configHostMax host, port := portOr port }).setSlot i
        (slotSetAddr (setField configHostMax host) (portOr port))
    (t.setSlot i (setBackoff peerBackoffMin)).dial i 0 o

def peerManagerAdd (s : PeerState) (id host : Str) (port : Nat) (o : SpawnOutcome) : Int × PeerState :=
  match deviceIdNormalize id with
  | none => (0, s)
  | some canon =>
    if s.peerManagerHas canon then (-1, s)
    else
      match s.findSlot fun p => p.removed && deviceIdEqual p.id canon with
      | some i => (1, s.readd i host port o)
      | none =>
        if configMaxPeers ≤ s.cfg.length then (-2, s)
        else if s.slots.length ≠ s.cfg.length then (-3, s)
        else
          let p : ConfigPeer :=
            if host = [] then ⟨setField deviceIdBufsz canon, [], 0⟩
            else ⟨setField deviceIdBufsz canon, setField configHostMax host, portOr port⟩
          let slot := slotSetAddr p.host p.port
            { emptySlot with cfg := s.cfg.length, backoff := peerBackoffMin }
          let t := { s with cfg := s.cfg ++ [⟨p, false, false⟩], slots := s.slots ++ [slot] }
          (1, if slot.haveAddr then t.dial s.slots.length 0 o else t)

end PeerState

/-! ## Signals -/

inductive PmWho
  | all
  | paused
  | removed
  deriving DecidableEq

/-- The workers that `pm_signal_workers` signals after the drain. -/
def PeerState.signalled (s : PeerState) (who : PmWho) : List Worker :=
  (List.range s.slots.length).filterMap fun i =>
    (s.entry i).bind fun (slot, p) =>
      match who with
      | .all => slot.proc
      | .paused => if p.paused then slot.proc else none
      | .removed => if p.removed then slot.proc else none

end Amisync.Peer

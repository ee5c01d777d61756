import Amisync.Lib.Machine
import Amisync.PeerTable

/-!
# Inbound connections (`listener.c`, `worker_run`)

The listener hands each accepted socket to a worker of its own, through the table of
released sockets. Workers end at any time; the daemon asks for rescans and for the end.

* `InboundWorker`, `Stage`: a worker with its block, and how far it has come.
* `handoff`: an accepted socket goes to a worker or is closed.
* `reapOne`, `drainInboundLocked`: the reply of a worker is taken.
* `WorkerEvent`, `advance`: what a worker does next.
* `Event`, `step`: the listener's task, the workers and the daemon in any order.
-/

namespace Amisync.Listener

open Ctype ConfigFile Peer

def listenMaxInbound : Nat := 8

/-! ## Workers -/

/-- `done` is the label where every session ends: it leaves what is owed (`owed`), takes its block
out of the peer's entry (`withdrawn`) and closes its socket (`closed`). -/
inductive Stage
  | started
  | adopted
  | greeted
  | authenticated
  | connected
  | session
  | done
  | owed
  | withdrawn
  | closed
  deriving DecidableEq

/-- `block` is the startup block, one for each process. -/
structure InboundWorker where
  block : Nat
  slot : Nat
  socketId : Nat
  stage : Stage
  sock : Option Nat
  peerCfg : Option Nat
  peerActualId : Str
  connected : Bool
  resync : Bool
  bytesIn : UInt64
  bytesOut : UInt64
  deriving DecidableEq

/-- `inboundSt` is a pointer to a block. `movedIn` and `movedOut` are no part of the program: what
the sessions with this peer have moved. -/
structure SharedPeer extends RunPeer where
  inboundSt : Option Nat
  inBytesIn : UInt64
  inBytesOut : UInt64
  resyncing : Bool
  movedIn : Nat
  movedOut : Nat
  deriving DecidableEq

/-! ## The whole -/

/-- What the listener's task is at. -/
inductive Task
  | starting
  | waiting
  | reaping (rescan : Bool)
  | locked
  | stopping
  | gone
  deriving DecidableEq

/-- `listener_stop` waits in `joining`. -/
inductive Daemon
  | serving
  | joining
  | joined
  deriving DecidableEq

/-- `table` are the released sockets. `running` are the workers that have not replied, `port` the
replies in the listener's port, `reply` is the listener's own. Sockets and blocks are numbered as
they come. `closed` and `lost` are no part of the program: the sockets that were closed, and those
that nobody could take out of the table again. -/
structure State where
  peers : List SharedPeer
  slots : List (Option Nat)
  running : List InboundWorker
  port : List InboundWorker
  table : List Nat
  closed : List Nat
  lost : List Nat
  accepted : Nat
  nextBlock : Nat
  task : Task
  sigStop : Bool
  sigRescan : Bool
  daemon : Daemon
  proc : Bool
  exited : Bool
  reply : Bool

/-- How `handoff` goes on from a free slot. Where no process starts, the socket is taken back if
that works. -/
inductive HandoffOutcome
  | noMemory
  | releaseFails
  | noProcess (adopt : Bool)
  | started
  deriving DecidableEq

namespace State

def setPeer (s : State) (j : Nat) (f : SharedPeer → SharedPeer) : State :=
  { s with peers := s.peers.modify j f }

def setWorker (s : State) (k : Nat) (f : InboundWorker → InboundWorker) : State :=
  { s with running := s.running.modify k f }

/-! ## The listener -/

def freshWorker (block slot socketId : Nat) : InboundWorker :=
  ⟨block, slot, socketId, .started, none, none, [], false, false, 0, 0⟩

/-- `handoff`, for the socket that has just been accepted. -/
def handoff (s : State) (o : HandoffOutcome) : State :=
  let sock := s.accepted
  let s := { s with accepted := s.accepted + 1 }
  match s.slots.findIdx? Option.isNone with
  | none => { s with closed := s.closed ++ [sock] }
  | some i =>
    match o with
    | .noMemory | .releaseFails | .noProcess true => { s with closed := s.closed ++ [sock] }
    | .noProcess false => { s with table := s.table ++ [sock], lost := s.lost ++ [sock] }
    | .started =>
      { s with
        table := s.table ++ [sock]
        slots := s.slots.set i (some s.nextBlock)
        running := s.running ++ [freshWorker s.nextBlock i sock]
        nextBlock := s.nextBlock + 1 }

def foldBytes (w : InboundWorker) (p : SharedPeer) : SharedPeer :=
  { p with inBytesIn := p.inBytesIn + w.bytesIn, inBytesOut := p.inBytesOut + w.bytesOut }

/-- `fold_inbound` -/
def foldInbound (s : State) (w : InboundWorker) : State :=
  match w.peerCfg with
  | none => s
  | some j => s.setPeer j (foldBytes w)

/-- The body of both loops that take replies. -/
def reapOne (s : State) (w : InboundWorker) : State :=
  { s with slots := s.slots.set w.slot none }.foldInbound w

/-- `drain_inbound_locked` -/
def drainInboundLocked (s : State) : State := s.port.foldl reapOne { s with port := [] }

/-- The blocks whose processes are signalled after the drain. -/
def signalled (s : State) : List Nat := s.drainInboundLocked.slots.filterMap id

/-- `for (..) if (slots[i].proc) live++;` -/
def live (s : State) : Nat := (s.slots.filter Option.isSome).length

/-! ## The daemon's handle -/

/-- `drain_listener_locked` -/
def drainListenerLocked (s : State) : State :=
  if s.exited = false ∧ s.reply = true then { s with exited := true, proc := false, reply := false } else s

/-- `listener_rescan` -/
def listenerRescan (s : State) : State :=
  let s := s.drainListenerLocked
  if s.proc then { s with sigRescan := true } else s

/-- `listener_stop`, up to the wait. -/
def listenerStop (s : State) : State :=
  let s := s.drainListenerLocked
  { s with sigStop := s.sigStop || s.proc, daemon := if s.exited then .joined else .joining }

end State

/-! ## What a worker does -/

/-- `verify none` is a certificate or a protocol that is refused. -/
inductive WorkerEvent
  | noSsl (adopt : Bool)
  | obtain (ok : Bool)
  | greet (ok : Bool)
  | verify (id : Option Str)
  | handshake (ok : Bool)
  | publish
  | traffic (inn out : Nat)
  | finish (resync : Bool)
  | owe
  | withdraw
  | close
  | reply

/-- The entry of the peer list for a device. -/
def peerFor (peers : List SharedPeer) (id : Str) : Option Nat :=
  peers.findIdx? fun p => deviceIdEqual id p.id

/-- `verify_peer`, and the peer's entry: a peer that is not listed, paused or removed goes no
further. -/
def verified (peers : List SharedPeer) (id : Option Str) (w : InboundWorker) : InboundWorker :=
  match id with
  | none => { w with stage := .done }
  | some id =>
    let w := { w with peerActualId := id }
    match peerFor peers id with
    | none => { w with stage := .done }
    | some j =>
      let w := { w with peerCfg := some j }
      if (peers[j]?).any fun p => p.paused || p.removed then { w with stage := .done }
      else { w with stage := .authenticated }

def setStage (t : Stage) (w : InboundWorker) : InboundWorker := { w with stage := t }

def setConnected (w : InboundWorker) : InboundWorker := { w with stage := .connected, connected := true }

def setSock (sock : Option Nat) (t : Stage) (w : InboundWorker) : InboundWorker :=
  { w with sock := sock, stage := t }

def addTraffic (inn out : Nat) (w : InboundWorker) : InboundWorker :=
  { w with bytesIn := w.bytesIn + UInt64.ofNat inn, bytesOut := w.bytesOut + UInt64.ofNat out }

def setResync (resync : Bool) (w : InboundWorker) : InboundWorker :=
  { w with resync := resync, stage := .done }

def setInboundSt (b : Option Nat) (p : SharedPeer) : SharedPeer := { p with inboundSt := b }

/-- `if (st->peer_cfg->inbound_st == st) ...` -/
def clearInboundSt (b : Nat) (p : SharedPeer) : SharedPeer :=
  if p.inboundSt = some b then { p with inboundSt := none } else p

def setResyncing (r : Bool) (p : SharedPeer) : SharedPeer := { p with resyncing := r }

def addMoved (inn out : Nat) (p : SharedPeer) : SharedPeer :=
  { p with movedIn := p.movedIn + inn, movedOut := p.movedOut + out }

namespace State

/-- What is written at the peer's entry, where the worker has one. -/
def atPeer (s : State) (w : InboundWorker) (f : SharedPeer → SharedPeer) : State :=
  match w.peerCfg with
  | none => s
  | some j => s.setPeer j f

/-- The next step of worker `k`; `none` where it does not come now. -/
def advance (s : State) (k : Nat) (w : InboundWorker) : WorkerEvent → Option State
  | .noSsl adopt =>
    if w.stage ≠ .started then none
    else
      let s := s.setWorker k (setStage .done)
      some (if adopt then { s with table := s.table.erase w.socketId, closed := s.closed ++ [w.socketId] }
        else { s with lost := s.lost ++ [w.socketId] })
  | .obtain ok =>
    if w.stage ≠ .started then none
    else
      some (if ok then
          { s.setWorker k (setSock (some w.socketId) .adopted) with table := s.table.erase w.socketId }
        else { s.setWorker k (setStage .done) with lost := s.lost ++ [w.socketId] })
  | .greet ok =>
    if w.stage ≠ .adopted then none else some (s.setWorker k (setStage (if ok then .greeted else .done)))
  | .verify id =>
    if w.stage ≠ .greeted then none else some (s.setWorker k (verified s.peers id))
  | .handshake ok =>
    if w.stage ≠ .authenticated then none
    else some (s.setWorker k (if ok then setConnected else setStage .done))
  | .publish =>
    if w.stage ≠ .connected then none
    else some ((s.setWorker k (setStage .session)).atPeer w (setInboundSt (some w.block)))
  | .traffic inn out =>
    if w.stage ≠ .session then none
    else some ((s.setWorker k (addTraffic inn out)).atPeer w (addMoved inn out))
  | .finish resync =>
    if w.stage ≠ .session then none else some (s.setWorker k (setResync resync))
  | .owe =>
    if w.stage ≠ .done then none
    else some ((s.setWorker k (setStage .owed)).atPeer w (setResyncing (w.connected && w.resync)))
  | .withdraw =>
    if w.stage ≠ .owed then none
    else some ((s.setWorker k (setStage .withdrawn)).atPeer w (clearInboundSt w.block))
  | .close =>
    if w.stage ≠ .withdrawn then none
    else some { s.setWorker k (setSock none .closed) with closed := s.closed ++ w.sock.toList }
  | .reply =>
    if w.stage ≠ .closed then none
    else some { s with running := s.running.eraseIdx k, port := s.port ++ [w] }

end State

/-! ## Events -/

/-- `begin` sets up the port and the listening socket, or fails. `wake` looks at the signals that
`net_wait` came back with; `readable` is a connection that was accepted. A turn takes a reply, or
goes on when there is none. -/
inductive Event
  | begin (ok : Bool)
  | waitFails
  | wake
  | replies
  | readable (o : HandoffOutcome)
  | turn
  | worker (k : Nat) (e : WorkerEvent)
  | rescan
  | stop
  | join
  | flags (j : Nat) (paused removed : Bool)
  | addPeer (p : ConfigPeer)

def setFlags (paused removed : Bool) (p : SharedPeer) : SharedPeer :=
  { p with paused := paused, removed := removed }

def sharedPeer (p : ConfigPeer) : SharedPeer := ⟨⟨p, false, false⟩, none, 0, 0, false, 0, 0⟩

open State in
def turn (s : State) : Option State :=
  match s.task, s.port with
  | .reaping _, w :: rest => some ({ s with port := rest }.reapOne w)
  | .reaping rescan, [] => some { s with task := if rescan then .locked else .waiting }
  -- `drain_inbound_locked`, and the processes of `signalled` get the signal
  | .locked, _ => some { s.drainInboundLocked with task := .waiting }
  | .stopping, w :: rest => some ({ s with port := rest }.reapOne w)
  | .stopping, [] => if s.live = 0 then some { s with task := .gone, reply := true } else none
  | _, _ => none

/-- What follows the loop: the port is drained, and the processes of `signalled` are to stop. -/
def shut (s : State) : State := { s.drainInboundLocked with task := .stopping }

def step (s : State) : Event → Option State
  | .begin ok =>
    if s.task ≠ .starting then none
    else some (if ok then { s with task := .waiting } else { s with task := .gone, reply := true })
  | .waitFails => if s.task ≠ .waiting then none else some (shut s)
  | .wake =>
    if s.task ≠ .waiting then none
    else if s.sigStop then some (shut s)
    else if s.sigRescan then some { s with task := .reaping true, sigRescan := false }
    else none
  | .replies => if s.task ≠ .waiting then none else some { s with task := .reaping false }
  | .readable o => if s.task ≠ .waiting then none else some (s.handoff o)
  | .turn => turn s
  | .worker k e => s.running[k]?.bind fun w => s.advance k w e
  | .rescan => if s.daemon ≠ .serving then none else some s.listenerRescan
  | .stop => if s.daemon ≠ .serving then none else some s.listenerStop
  -- `WaitPort(h->port); GetMsg(h->port);`
  | .join =>
    if s.daemon = .joining ∧ s.reply = true then some { s with daemon := .joined, reply := false } else none
  | .flags j paused removed => some (s.setPeer j (setFlags paused removed))
  | .addPeer p => some { s with peers := s.peers ++ [sharedPeer p] }

/-- `listener_start`, where the process was started. -/
def listenerStart (peers : List ConfigPeer) : State where
  peers := peers.map sharedPeer
  slots := List.replicate listenMaxInbound none
  running := []
  port := []
  table := []
  closed := []
  lost := []
  accepted := 0
  nextBlock := 0
  task := .starting
  sigStop := false
  sigRescan := false
  daemon := .serving
  proc := true
  exited := false
  reply := false

end Amisync.Listener

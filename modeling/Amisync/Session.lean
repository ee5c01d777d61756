import Amisync.Worker
import Amisync.PathSafe
import Mathlib.Algebra.BigOperators.Group.Finset.Defs
import Mathlib.Data.Fintype.Basic

/-!
# A session with one peer

What the worker keeps of the peer's Index messages until it is dealt with: the
want queue, the spill files, the transfer in flight, the list of files that were
given up, the deletions that wait, and the names that the peer deleted.

* `handleRecord`: one record of an Index message, in the order of the checks in
  `handle_index`.
* `startDownload`, `finalizeDownload`, `refillOne`, `flushOne`, `drainOne`: one
  round of each of the loops that work it off.
* `pending`: the number that the status is taken from.
-/

namespace Amisync

open Keyed

/-! ## Small tables -/

def wkMaxStalled : Nat := 8
def wkMaxDefer : Nat := 32
def wkMaxGone : Nat := 256

/-- FNV-1a -/
def nameHash (n : Name) : UInt32 := n.foldl (fun h b => (h ^^^ b.toUInt32) * 16777619) 2166136261

/-- A set of names by their hashes. -/
structure HSet where
  hashes : List UInt32
  nodup : hashes.Nodup

def HSet.empty : HSet := ⟨[], List.nodup_nil⟩

def hsetHas (h : HSet) (n : Name) : Bool := nameHash n ∈ h.hashes

/-- The set after an addition, and whether there was room. -/
def hsetAdd (cap : Nat) (h : HSet) (n : Name) : HSet × Bool :=
  if hn : nameHash n ∈ h.hashes then (h, true)
  else if cap ≤ h.hashes.length then (h, false)
  else (⟨h.hashes ++ [nameHash n],
    h.nodup.append (List.nodup_singleton _) (by simpa using hn)⟩, true)

def hsetDrop (h : HSet) (n : Name) : HSet :=
  ⟨dropFirst (nameHash n) h.hashes, (nodup_dropFirst h.nodup _).1⟩

/-! ## State -/

abbrev Key := FolderIdx × Name

def WantFile.key (w : WantFile) : Key := (w.folderIdx, w.name)

structure Setup where
  sha : Bytes → Hash
  mode : FolderIdx → FolderMode
  ign : FolderIdx → Name → Bool

/-- The last three fields are the history of each name: the last record that was received, whether
an earlier one was still waiting then, and whether the name was left out of the full list of
files given up since. -/
structure Session where
  index : FolderIdx → FolderState
  want : List WantFile
  dl : Option WantFile
  stalled : List Key
  spill : FolderIdx → List Wanted
  spillOk : FolderIdx → Bool
  defer : List (FolderIdx × SyncMeta)
  spillDel : FolderIdx → List SyncMeta
  gone : FolderIdx → HSet
  wantOverflow : Bool
  resync : Bool
  latest : Key → Option Wanted
  contested : Key → Bool
  unlisted : Key → Bool

namespace Session

def start (index : FolderIdx → FolderState) : Session where
  index := index
  want := []
  dl := none
  stalled := []
  spill := fun _ => []
  spillOk := fun _ => false
  defer := []
  spillDel := fun _ => []
  gone := fun _ => .empty
  wantOverflow := false
  resync := false
  latest := fun _ => none
  contested := fun _ => false
  unlisted := fun _ => false

def record (s : Session) (k : Key) : Option SyncMeta := (s.index k.1).record k.2

/-- `publish_pending` -/
def pending (s : Session) : Nat :=
  s.want.length + (if s.dl.isSome then 1 else 0) + s.stalled.length + ∑ f, (s.spill f).length

/-- An earlier record of the name waits for something. -/
def waiting (s : Session) (k : Key) : Bool :=
  s.want.any (fun w => w.key = k) || s.dl.any (fun w => w.key = k) ||
    (s.spill k.1).any (fun w => w.fi.name = k.2) ||
    s.defer.any (fun d => d.1 = k.1 && d.2.name = k.2) ||
    (s.spillDel k.1).any (fun m => m.name = k.2)

/-- What the system answers in the course of one step. `copy` is the conflict name that a file
could be renamed to. -/
structure Answers where
  mkdir : Bool
  removed : Bool
  addressable : Bool
  spill : Bool
  fits : Bool
  copy : Option Name
  stamp : Nat
  opened : Bool
  mem : UpsertMem

/-! ## The index -/

def store (s : Session) (f : FolderIdx) (m : SyncMeta) (blocks : List Hash) (mem : UpsertMem) :
    Session :=
  { s with index := Function.update s.index f ((s.index f).store m blocks mem) }

def adopt (s : Session) (f : FolderIdx) (fi : SyncMeta) : Session :=
  { s with index := Function.update s.index f ((s.index f).adopt fi.name fi) }

/-- `apply_peer_delete` -/
def applyPeerDelete (s : Session) (f : FolderIdx) (m : SyncMeta) (a : Answers) : Session :=
  if a.removed then s.store f m [] a.mem else s

/-! ## Given up, and tried again -/

def stallAdd (s : Session) (k : Key) : Session :=
  if k ∈ s.stalled then s
  else if wkMaxStalled ≤ s.stalled.length then
    { s with unlisted := Function.update s.unlisted k true }
  else { s with stalled := s.stalled ++ [k] }

def stallClear (s : Session) (k : Key) : Session :=
  { s with stalled := dropFirst k s.stalled, unlisted := Function.update s.unlisted k false }

def requeueDownload (s : Session) (w : WantFile) (retryable : Bool) : Session :=
  if retryable && w.attempts < wkMaxFetch then
    match syncWantPushAgain s.want { w with conflict := false } with
    | some q => { s with want := q }
    | none => s.stallAdd w.key
  else s.stallAdd w.key

def abortDownload (s : Session) : Session :=
  match s.dl with
  | none => s
  | some w => { s with dl := none }.requeueDownload w true

/-! ## Drawers -/

/-- A drawer that was deleted later than it was made. -/
def dirStale (held : Option SyncMeta) (d : SyncMeta) : Bool :=
  held.any fun h => h.deleted &&
    if haveVectors h d then syncVersionCompare h.version d.version != .theirs
    else d.modifiedS < h.modifiedS

def applyPeerDir (s : Session) (f : FolderIdx) (d : SyncMeta) (a : Answers) : Session :=
  if dirStale (s.record (f, d.name)) d then s
  else if !a.mkdir then s.stallAdd (f, d.name)
  else if (s.record (f, d.name)).all (·.deleted) then s.store f d [] a.mem
  else s

/-- The deletion of a drawer that does not apply. -/
def dirDeleteStale (held : Option SyncMeta) (d : SyncMeta) : Bool :=
  held.any fun h => h.deleted ||
    if haveVectors h d then syncVersionCompare h.version d.version == .ours
    else d.modifiedS < h.modifiedS

/-- `apply_peer_dir_delete`, with whether the name is settled. -/
def applyPeerDirDelete (s : Session) (f : FolderIdx) (d : SyncMeta) (a : Answers) : Session × Bool :=
  if dirDeleteStale (s.record (f, d.name)) d then (s, true)
  else if a.removed || ((s.record (f, d.name)).isNone && !a.addressable) then
    (s.store f d [] a.mem, true)
  else (s, false)

/-! ## Deferred deletions -/

def deferPush (s : Session) (f : FolderIdx) (m : SyncMeta) : Option Session :=
  if wkMaxDefer ≤ s.defer.length then none else some { s with defer := s.defer ++ [(f, m)] }

/-- The file of parked deletions after one more; where that cannot be written it is given up. -/
def spillDelete (s : Session) (f : FolderIdx) (m : SyncMeta) (a : Answers) : Session :=
  { s with spillDel := Function.update s.spillDel f (if a.spill then s.spillDel f ++ [m] else []) }

/-- `apply_deferred_delete`, or the deletion of a drawer. -/
def applyDeferred (cfg : Setup) (s : Session) (f : FolderIdx) (m : SyncMeta) (a : Answers) :
    Session × Bool :=
  if m.type = .directory then s.applyPeerDirDelete f m a
  else if syncClassifyIncoming (s.record (f, m.name)) (cfg.mode f) m = .delete then
    (s.applyPeerDelete f m a, true)
  else (s, true)

/-- One round of `flush_deferred`, for the entry `i` of the list; a drawer may be given up. -/
def flushOne (cfg : Setup) (s : Session) (i : Nat) (giveUp : Bool) (a : Answers) : Session :=
  match s.defer[i]? with
  | none => s
  | some (f, m) =>
    let r := s.applyDeferred cfg f m a
    if r.2 || giveUp then { r.1 with defer := r.1.defer.eraseIdx i } else r.1

/-- `flush_deferred` tries each entry at most once; the order is in the picks. -/
def flushDeferred (cfg : Setup) (s : Session) (picks : List (Nat × Bool × Answers)) : Session :=
  picks.foldl (fun s p => s.flushOne cfg p.1 p.2.1 p.2.2) s

/-- One round of `drain_parked_deletes`. -/
def drainOne (cfg : Setup) (s : Session) (f : FolderIdx) (readable : Bool) (a : Answers) : Session :=
  match s.spillDel f with
  | [] => s
  | m :: rest =>
    if !readable then
      { s with spillDel := Function.update s.spillDel f [], wantOverflow := true }
    else
      let s₁ := { s with spillDel := Function.update s.spillDel f rest }
      let r := s₁.applyDeferred cfg f m a
      if r.2 then r.1 else (r.1.deferPush f m).getD r.1

/-! ## Index messages -/

/-- The record is the last one received of its name. -/
def note (s : Session) (k : Key) (w : Wanted) (waiting : Bool) : Session :=
  { s with
    latest := Function.update s.latest k (some w)
    contested := Function.update s.contested k waiting }

/-- The drawer branch of `handle_index`. -/
def handleDir (cfg : Setup) (s : Session) (f : FolderIdx) (d : SyncMeta) (a : Answers)
    (picks : List (Nat × Bool × Answers)) : Session :=
  if cfg.mode f = .sendOnly || cfg.ign f d.name then s
  else if !d.deleted then s.applyPeerDir f d a
  else match s.deferPush f d with
    | some s' => s'
    | none =>
      let s₁ := s.flushDeferred cfg picks
      match s₁.deferPush f d with
      | some s' => s'
      | none =>
        let s₂ := s₁.spillDelete f d a
        if a.spill then s₂ else (s₂.applyPeerDirDelete f d a).1

/-- The name is added to those the peer deleted. Where there are too many, what is parked is
dropped and a fresh index asked for. -/
def addGone (s : Session) (f : FolderIdx) (n : Name) : Session :=
  let r := hsetAdd wkMaxGone (s.gone f) n
  if !r.2 && s.spillOk f then
    { s with
      spill := Function.update s.spill f []
      spillOk := Function.update s.spillOk f false
      gone := Function.update s.gone f .empty
      wantOverflow := true
      resync := true }
  else { s with gone := Function.update s.gone f r.1 }

/-- A deletion that is not applied: a transfer of that name is dropped, and the name noted. -/
def noteGone (s : Session) (f : FolderIdx) (n : Name) : Session :=
  (if s.dl.any (fun w => w.name = n) then s.abortDownload else s).addGone f n

/-- The branch for `SYNC_FETCH` and `SYNC_CONFLICT`, with whether the message is read on. -/
def enqueue (s : Session) (f : FolderIdx) (w : Wanted) (conflict : Bool) (a : Answers) :
    Session × Bool :=
  if s.dl.any (fun d => d.folderIdx = f && d.name = w.fi.name) ||
      syncWantHas s.want f w.fi.name then (s, true)
  else if w.tooLarge then (s.store f (unstorableRecord w.fi) [] a.mem, true)
  else match syncWantPushAgain s.want ⟨f, w.fi, w.hashes, conflict, 0⟩ with
    | some q => ({ s with want := q }, true)
    | none =>
      if a.spill then
        ({ s with
            spill := Function.update s.spill f (s.spill f ++ [w])
            spillOk := Function.update s.spillOk f true }, true)
      else
        ({ s with
            spill := Function.update s.spill f []
            spillOk := Function.update s.spillOk f false
            wantOverflow := true
            resync := true }, false)

/-- What is done with each answer of the table. -/
def carryOut (s : Session) (f : FolderIdx) (w : Wanted) (a : Answers) : SyncAction → Session × Bool
  | .ignore => (s, true)
  | .adopt => (s.adopt f w.fi, true)
  | .delete =>
    (match s.deferPush f w.fi with
      | some s' => s'
      | none =>
        let s₁ := s.spillDelete f w.fi a
        if a.spill then s₁ else s₁.applyPeerDelete f w.fi a, true)
  | .fetch => s.enqueue f w false a
  | .conflict => s.enqueue f w true a

/-- The loop of `handle_index`, for a file. -/
def handleFile (cfg : Setup) (s : Session) (f : FolderIdx) (w : Wanted) (a : Answers) :
    Session × Bool :=
  let act := syncClassifyIncoming (s.record (f, w.fi.name)) (cfg.mode f) w.fi
  let s₁ := if w.fi.deleted then s
    else { s with gone := Function.update s.gone f (hsetDrop (s.gone f) w.fi.name) }
  let s₂ := if w.fi.deleted && act ≠ .delete then s₁.noteGone f w.fi.name else s₁
  s₂.carryOut f w a act

/-- One round of the loop of `handle_index`. -/
def handleRecord (cfg : Setup) (s : Session) (f : FolderIdx) (w : Wanted) (a : Answers)
    (picks : List (Nat × Bool × Answers)) : Session × Bool :=
  let s₁ := s.stallClear (f, w.fi.name)
  if w.fi.invalid then (s, true)
  else if !pathNameSafe w.fi.name then (s, true)
  else if w.fi.type = .directory then (s₁.handleDir cfg f w.fi a picks, true)
  else if w.fi.type ≠ .file then (s₁, true)
  else if !w.fi.deleted && cfg.ign f w.fi.name then (s₁, true)
  else s₁.handleFile cfg f (w.withContent cfg.sha) a

/-- The record is dealt with, and kept in the history. -/
def receive (cfg : Setup) (s : Session) (f : FolderIdx) (w : Wanted) (a : Answers)
    (picks : List (Nat × Bool × Answers)) : Session × Bool :=
  let r := s.handleRecord cfg f w a picks
  (r.1.note (f, w.fi.name) (w.withContent cfg.sha) (s.waiting (f, w.fi.name)), r.2)

/-- `handle_index`: the rest of the message is lost where a record finds no room. -/
def handleIndex (cfg : Setup) (f : FolderIdx) :
    Session → List (Wanted × Answers × List (Nat × Bool × Answers)) → Session
  | s, [] => s
  | s, (w, a, picks) :: rest =>
    let r := s.receive cfg f w a picks
    if r.2 then handleIndex cfg f r.1 rest else r.1

/-! ## Transfers -/

/-- `conflict_preserve_local` -/
def preserveLocal (s : Session) (k : Key) (a : Answers) : Session :=
  match (s.index k.1).find k.2, a.copy with
  | some t, some cn =>
    if t.record.deleted then s
    else s.store k.1 (conflictCopy t.record cn (s.index k.1).shortId a.stamp 0) t.blocks a.mem
  | _, _ => s

/-- `start_download`, after the pop. -/
def startEntry (s : Session) (w : WantFile) (a : Answers) : Session :=
  if alreadyHave (s.record w.key) w.fi || hsetHas (s.gone w.folderIdx) w.name then s
  else if !a.fits then s.store w.folderIdx (unstorableRecord w.fi) [] a.mem
  else
    let s' := if w.conflict then s.preserveLocal w.key a else s
    let w' := { w with attempts := w.attempts + 1 }
    if a.opened then { s' with dl := some w' } else s'.requeueDownload w' true

/-- One round of `start_download`. -/
def startDownload (s : Session) (a : Answers) : Session :=
  match s.dl, s.want with
  | none, w :: rest => { s with want := rest }.startEntry w a
  | _, _ => s

def finalizeDownload (s : Session) (ok retryable : Bool) (mem : UpsertMem) : Session :=
  match s.dl with
  | none => s
  | some w =>
    if ok then
      { (s.store w.folderIdx w.fi w.hashes mem).stallClear w.key with dl := none }
    else { s with dl := none }.requeueDownload w retryable

/-- One round of `refill_from_spill`. -/
def refillOne (cfg : Setup) (s : Session) (f : FolderIdx) (readable : Bool) : Session :=
  match s.spill f with
  | [] => s
  | w :: rest =>
    let s' := { s with spill := Function.update s.spill f rest }
    let k : Key := (f, w.fi.name)
    if syncMaxWant ≤ s.want.length then s
    else if !readable then
      { s with
        spill := Function.update s.spill f []
        spillOk := Function.update s.spillOk f false
        wantOverflow := true }
    else if cfg.ign f w.fi.name || hsetHas (s.gone f) w.fi.name then s'
    else
      let act := syncClassifyIncoming (s.record k) (cfg.mode f) w.fi
      if act ≠ .fetch ∧ act ≠ .conflict then s'
      else match syncWantPushAgain s.want ⟨f, w.fi, w.hashes, act = .conflict, 0⟩ with
        | some q => { s' with want := q }
        | none => s

/-! ## Runs -/

inductive Event where
  | index (f : FolderIdx) (records : List (Wanted × Answers × List (Nat × Bool × Answers)))
  | start (a : Answers)
  | finish (ok retryable : Bool) (mem : UpsertMem)
  /-- A failure, or no progress for too long. -/
  | abort
  | refill (f : FolderIdx) (readable : Bool)
  | flush (picks : List (Nat × Bool × Answers))
  | drain (f : FolderIdx) (readable : Bool) (a : Answers)

def step (cfg : Setup) (s : Session) : Event → Session
  | .index f records => handleIndex cfg f s records
  | .start a => s.startDownload a
  | .finish ok retryable mem => s.finalizeDownload ok retryable mem
  | .abort => s.abortDownload
  | .refill f readable => s.refillOne cfg f readable
  | .flush picks => s.flushDeferred cfg picks
  | .drain f readable a => s.drainOne cfg f readable a

def run (cfg : Setup) (s : Session) (es : List Event) : Session := es.foldl (step cfg) s

end Session

end Amisync

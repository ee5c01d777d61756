import Amisync.Folders
import Amisync.Lib.Machine
import Amisync.Scanner
import Amisync.Session

/-!
# A folder that is removed and added again (`scanner.c`, `daemon.c`, `worker.c`)

The scanner and a session beside the daemon, over the same indexes. A folder
that is added again gets its slot back with an empty index and a new generation.
Neither the pass that may still be under way in the slot nor the session that may
still hold records for it looks at the generation.

* `visit`, `settle`: `scan_entry` before and after the hash, which is the moment
  at which everything else can happen.
* `step`: the machine. A pass carries the generation it began under; `heard` are
  the generations under which the Indexes came that the session still holds
  something of.
* `Holds`, `heard_of_holds`: what is held came with an Index.
* `Quiet`: a folder is added only when nothing of it is under way.
* `incarnations_isolated`: then no step of an old pass, and nothing of an old
  Index, changes the new index.
-/

namespace Amisync

open Session

namespace Incarnation

/-! ## An entry in two halves -/

/-- `scan_entry` up to the hash, and whether there is one to make. -/
def visit (env : ScanEnv) (fs : FolderState) (e : FolderEntry) : FolderState × Bool :=
  if e.isDir then (commitDir env fs e, false)
  else if env.mode = .receiveOnly then
    (if (fs.find e.name).isNone then fs
      else if recChanged env.tz fs e.name e.size e.modifiedS then fs.forget e.name
      else fs.markSeen e.name, false)
  else if recChanged env.tz fs e.name e.size e.modifiedS then (fs, true)
  else (fs.markSeen e.name, false)

/-- `scan_entry` after the hash. -/
def settle (env : ScanEnv) (present : Name → Bool) (fs : FolderState) (e : FolderEntry) : FolderState :=
  match env.hash e.name with
  | .unreadable => if present e.name then fs.markSeen e.name else fs
  | .tooBig => fs.markSeen e.name
  | .ok content blocks hashed =>
    if hashed ≠ e.size then fs.markSeen e.name else commitFile env fs e content blocks

/-- The two halves are an entry. -/
theorem scanEntry_eq (env : ScanEnv) (present : Name → Bool) (fs : FolderState) (e : FolderEntry) :
    scanEntry env present fs e =
      if (visit env fs e).2 then settle env present (visit env fs e).1 e else (visit env fs e).1 := by
  rw [scanEntry, visit]
  by_cases hdir : e.isDir = true
  · rw [if_pos hdir, if_pos hdir]
    rfl
  · rw [if_neg hdir, if_neg hdir]
    by_cases hmode : env.mode = .receiveOnly
    · rw [if_pos hmode, if_pos hmode]
      rfl
    · rw [if_neg hmode, if_neg hmode]
      by_cases hchanged : recChanged env.tz fs e.name e.size e.modifiedS = true
      · rw [if_pos hchanged, if_pos hchanged]
        rfl
      · rw [if_neg hchanged, if_neg hchanged]
        rfl

/-! ## The machine -/

/-- A scan pass; `gen` is the generation of the folder when it began. -/
structure Pass where
  fidx : FolderIdx
  gen : Nat
  before : Int
  ign : Name → Bool
  /-- The file that is being hashed. -/
  hashing : Option FolderEntry

/-- The indexes are those of the session. -/
structure World where
  cfg : Config
  pass : Option Pass
  session : Session
  /-- The folder of the Index message that is being read. -/
  reading : Option FolderIdx
  heard : FolderIdx → List Nat

/-- Something for the folder is queued, in flight, parked or deferred. -/
def holds (s : Session) (f : FolderIdx) : Bool :=
  s.want.any (fun w => w.folderIdx = f) || s.dl.any (fun w => w.folderIdx = f) ||
    !(s.spill f).isEmpty || s.defer.any (fun d => d.1 = f) || !(s.spillDel f).isEmpty

namespace World

def gen (w : World) (i : FolderIdx) : Nat := (w.cfg.folders i).gen

/-- What an index says of a name. -/
def content (w : World) (i : FolderIdx) (n : Name) : Option (SyncMeta × List Hash) :=
  ((w.session.index i).find n).map fun s => (s.record, s.blocks)

def setIndex (w : World) (i : FolderIdx) (fs : FolderState) : World :=
  { w with session := { w.session with index := Function.update w.session.index i fs } }

/-- The worker reads an Index of the folder, or holds something of one. -/
def busy (w : World) (i : FolderIdx) : Bool := w.reading == some i || holds w.session i

/-- After a step of the worker; what is held no longer is forgotten. -/
def worked (w : World) (s : Session) (reading : Option FolderIdx) : World :=
  { w with
    session := s
    reading := reading
    heard := fun i => if reading == some i || holds s i then w.heard i else [] }

end World

/-- What the pass reads from the folder's slot, live. -/
def Pass.env (p : Pass) (cfg : Config) (env : ScanEnv) : ScanEnv :=
  { env with
    mode := (cfg.folders p.fidx).mode
    path := (cfg.folders p.fidx).path
    ign := p.ign }

inductive Event where
  | begin (i : FolderIdx) (ign : Name → Bool)
  | entry (env : ScanEnv) (e : FolderEntry)
  | hashed (env : ScanEnv) (present : Name → Bool)
  /-- A signal, or the folder's drawer is gone. -/
  | stop
  | sweep (env : ScanEnv)
  | index (id : CString 63)
  | record (m : Wanted) (a : Answers) (picks : List (Nat × Bool × Answers))
  | endIndex
  | worker (e : Session.Event)
  | add (admitted : Bool) (id : CString 63) (path : Bytes) (mode : FolderMode) (shortId : Nat)
  | remove (id : CString 63)
  /-- Anything another task makes of an index. -/
  | others (i : FolderIdx) (fs : FolderState)

def Event.isScan : Event → Bool
  | .entry .. | .hashed .. | .stop | .sweep _ => true
  | _ => false

def Event.isWorker : Event → Bool
  | .index _ | .record .. | .endIndex | .worker _ => true
  | _ => false

section Step
variable (sha : Bytes → Hash) (ign : FolderIdx → Name → Bool)

def setup (cfg : Config) : Setup := ⟨sha, fun i => (cfg.folders i).mode, ign⟩

/-- The scanner picks a folder up. -/
def beginPass (w : World) (i : FolderIdx) (ign : Name → Bool) : World :=
  { w.setIndex i (w.session.index i).clearSeen with
    pass := some ⟨i, w.gen i, (w.session.index i).sequence, ign, none⟩ }

/-- An entry; a pass over a folder that is gone ends here. -/
def entry (w : World) (p : Pass) (env : ScanEnv) (e : FolderEntry) : World :=
  if (w.cfg.folders p.fidx).removed then { w with pass := none }
  else
    let r := visit (p.env w.cfg env) (w.session.index p.fidx) e
    { w.setIndex p.fidx r.1 with pass := some { p with hashing := if r.2 then some e else none } }

def hashed (w : World) (p : Pass) (e : FolderEntry) (env : ScanEnv) (present : Name → Bool) : World :=
  { w.setIndex p.fidx (settle (p.env w.cfg env) present (w.session.index p.fidx) e) with
    pass := some { p with hashing := none } }

/-- The end of a complete walk. -/
def sweep (w : World) (p : Pass) (env : ScanEnv) : World :=
  let fs := w.session.index p.fidx
  { w.setIndex p.fidx (if (w.cfg.folders p.fidx).mode = .receiveOnly then fs.forgetUnseen p.before
      else sweepDeletions (p.env w.cfg env) p.before fs) with pass := none }

def step (w : World) : Event → Option World
  | .begin i ign => match w.pass with
    | none => if w.cfg.Live i then some (beginPass w i ign) else none
    | some _ => none
  | .entry env e => match w.pass with
    | some ⟨i, gen, before, ign, none⟩ => some (entry w ⟨i, gen, before, ign, none⟩ env e)
    | _ => none
  | .hashed env present => match w.pass with
    | some ⟨i, gen, before, ign, some e⟩ => some (hashed w ⟨i, gen, before, ign, some e⟩ e env present)
    | _ => none
  | .stop => match w.pass with
    | some ⟨_, _, _, _, none⟩ => some { w with pass := none }
    | _ => none
  | .sweep env => match w.pass with
    | some ⟨i, gen, before, ign, none⟩ => some (sweep w ⟨i, gen, before, ign, none⟩ env)
    | _ => none
  | .index id => match w.reading, syncFolderIndex w.cfg id with
    | none, some f => some { w with
        reading := some f
        heard := Function.update w.heard f (w.gen f :: w.heard f) }
    | none, none => some w
    | some _, _ => none
  | .record m a picks => match w.reading with
    | some f =>
      let r := w.session.receive (setup sha ign w.cfg) f m a picks
      some (w.worked r.1 (if r.2 then some f else none))
    | none => none
  | .endIndex => match w.reading with
    | some _ => some (w.worked w.session none)
    | none => none
  | .worker (.index ..) => none
  | .worker e => match w.reading with
    | none => some (w.worked (w.session.step (setup sha ign w.cfg) e) none)
    | some _ => none
  | .add admitted id path mode shortId => match daemonFolderAdd w.cfg admitted id path mode with
    | some (i, cfg) => some { w.setIndex i (FolderState.empty shortId) with cfg := cfg }
    | none => some w
  | .remove id => some { w with cfg := (daemonFolderRemove w.cfg id).getD w.cfg }
  | .others i fs => some (w.setIndex i fs)

/-! ## What is promised -/

/-- A pass that began under an older generation changes no record, and neither does the worker
as long as it may hold something from one. -/
def Isolated (w : World) (e : Event) : Prop :=
  ∀ w', step sha ign w e = some w' →
    (e.isScan = true → ∀ p, w.pass = some p → p.gen ≠ w.gen p.fidx →
      ∀ i n, w'.content i n = w.content i n) ∧
    (e.isWorker = true → ∀ i, (∃ g ∈ w.heard i, g ≠ w.gen i) →
      ∀ n, w'.content i n = w.content i n)

end Step

/-! ## What a session holds -/

theorem holds_iff {s : Session} {f : FolderIdx} : holds s f = true ↔
    (∃ w ∈ s.want, w.folderIdx = f) ∨ (∃ w, s.dl = some w ∧ w.folderIdx = f) ∨ s.spill f ≠ [] ∨
      (∃ d ∈ s.defer, d.1 = f) ∨ s.spillDel f ≠ [] := by
  simp only [holds, Bool.or_eq_true, List.any_eq_true, Option.any_eq_true, decide_eq_true_eq,
    Bool.not_eq_true', List.isEmpty_eq_false_iff, or_assoc]

/-- Nothing is queued, parked or deferred, and nothing dropped. -/
structure SameQueues (s t : Session) : Prop where
  want : t.want = s.want
  dl : t.dl = s.dl
  spill : t.spill = s.spill
  defer : t.defer = s.defer
  spillDel : t.spillDel = s.spillDel

/-- What is held afterwards was held before, or is for one of these folders. -/
def Within (F : FolderIdx → Prop) (s t : Session) : Prop := ∀ f, holds t f = true → holds s f = true ∨ F f

section Holds
variable {cfg : Setup} {s t u : Session} {f : FolderIdx} {F : FolderIdx → Prop}

theorem holds_want {w : WantFile} (h : w ∈ s.want) : holds s w.folderIdx = true :=
  holds_iff.mpr (Or.inl ⟨w, h, rfl⟩)

theorem holds_dl {w : WantFile} (h : s.dl = some w) : holds s w.folderIdx = true :=
  holds_iff.mpr (Or.inr (Or.inl ⟨w, h, rfl⟩))

theorem holds_spill (h : s.spill f ≠ []) : holds s f = true :=
  holds_iff.mpr (Or.inr (Or.inr (Or.inl h)))

theorem holds_defer {d : FolderIdx × SyncMeta} (h : d ∈ s.defer) : holds s d.1 = true :=
  holds_iff.mpr (Or.inr (Or.inr (Or.inr (Or.inl ⟨d, h, rfl⟩))))

theorem holds_spillDel (h : s.spillDel f ≠ []) : holds s f = true :=
  holds_iff.mpr (Or.inr (Or.inr (Or.inr (Or.inr h))))

/-- The five places, one by one. -/
theorem within_of (hwant : ∀ w ∈ t.want, holds s w.folderIdx = true ∨ F w.folderIdx)
    (hdl : ∀ w, t.dl = some w → holds s w.folderIdx = true ∨ F w.folderIdx)
    (hspill : ∀ f, t.spill f ≠ [] → holds s f = true ∨ F f)
    (hdefer : ∀ d ∈ t.defer, holds s d.1 = true ∨ F d.1)
    (hspillDel : ∀ f, t.spillDel f ≠ [] → holds s f = true ∨ F f) : Within F s t := by
  intro f hf
  rcases holds_iff.mp hf with ⟨w, hw, rfl⟩ | ⟨w, hw, rfl⟩ | h | ⟨d, hd, rfl⟩ | h
  · exact hwant w hw
  · exact hdl w hw
  · exact hspill f h
  · exact hdefer d hd
  · exact hspillDel f h

theorem SameQueues.refl (s : Session) : SameQueues s s := ⟨rfl, rfl, rfl, rfl, rfl⟩

theorem SameQueues.within (h : SameQueues s t) : Within F s t := by
  intro f hf
  rw [holds, h.want, h.dl, h.spill, h.defer, h.spillDel] at hf
  exact Or.inl hf

theorem Within.refl (s : Session) : Within F s s := (SameQueues.refl s).within

theorem Within.trans (h : Within F s t) (h' : Within F t u) : Within F s u := by
  intro f hf
  rcases h' f hf with hf | hf
  · exact h f hf
  · exact Or.inr hf

theorem same_stallAdd (s : Session) (k : Key) : SameQueues s (s.stallAdd k) := by
  rw [stallAdd]
  repeat' split
  all_goals exact ⟨rfl, rfl, rfl, rfl, rfl⟩

theorem same_applyPeerDelete (s : Session) (f : FolderIdx) (m : SyncMeta) (a : Answers) :
    SameQueues s (s.applyPeerDelete f m a) := by
  rw [applyPeerDelete]
  split <;> exact ⟨rfl, rfl, rfl, rfl, rfl⟩

theorem same_applyPeerDir (s : Session) (f : FolderIdx) (m : SyncMeta) (a : Answers) :
    SameQueues s (s.applyPeerDir f m a) := by
  rw [applyPeerDir]
  split
  · exact .refl s
  · split
    · exact same_stallAdd s _
    · split <;> exact ⟨rfl, rfl, rfl, rfl, rfl⟩

theorem same_applyPeerDirDelete (s : Session) (f : FolderIdx) (m : SyncMeta) (a : Answers) :
    SameQueues s (s.applyPeerDirDelete f m a).1 := by
  rw [applyPeerDirDelete]
  repeat' split
  all_goals exact ⟨rfl, rfl, rfl, rfl, rfl⟩

theorem same_applyDeferred (cfg : Setup) (s : Session) (f : FolderIdx) (m : SyncMeta) (a : Answers) :
    SameQueues s (s.applyDeferred cfg f m a).1 := by
  rw [applyDeferred]
  split
  · exact same_applyPeerDirDelete s f m a
  · split
    · exact same_applyPeerDelete s f m a
    · exact .refl s

theorem same_preserveLocal (s : Session) (k : Key) (a : Answers) : SameQueues s (s.preserveLocal k a) := by
  rw [preserveLocal]
  repeat' split
  all_goals exact ⟨rfl, rfl, rfl, rfl, rfl⟩

theorem mem_pushAgain {q q' : List WantFile} {w : WantFile} (h : syncWantPushAgain q w = some q') : q' = w :: q := by
  rw [syncWantPushAgain] at h
  split at h
  · exact absurd h (by simp)
  · split at h
    · exact absurd h (by simp)
    · exact (Option.some.inj h).symm

/-- An entry that was held, or is for one of the folders, is queued. -/
theorem within_push {q : List WantFile} {w : WantFile} (hw : holds s w.folderIdx = true ∨ F w.folderIdx)
    (h : syncWantPushAgain t.want w = some q) (ht : Within F s t) : Within F s { t with want := q } := by
  rw [mem_pushAgain h]
  refine within_of (fun x hx => ?_) (fun x hx => ht _ (holds_dl (s := t) hx)) (fun f hf => ht f (holds_spill (s := t) hf))
    (fun d hd => ht _ (holds_defer (s := t) hd)) fun f hf => ht f (holds_spillDel (s := t) hf)
  rcases List.mem_cons.mp hx with rfl | hx
  · exact hw
  · exact ht _ (holds_want hx)

theorem within_requeueDownload {w : WantFile} (hw : holds s w.folderIdx = true ∨ F w.folderIdx)
    (ht : Within F s t) (retryable : Bool) : Within F s (t.requeueDownload w retryable) := by
  rw [requeueDownload]
  split
  · split
    · rename_i q hq
      exact within_push (w := { w with conflict := false }) hw hq ht
    · exact ht.trans (same_stallAdd t _).within
  · exact ht.trans (same_stallAdd t _).within

theorem within_dropDl (s : Session) : Within F s { s with dl := none } :=
  within_of (fun _ h => Or.inl (holds_want h)) (fun _ h => absurd h (by simp)) (fun _ h => Or.inl (holds_spill h))
    (fun _ h => Or.inl (holds_defer h)) fun _ h => Or.inl (holds_spillDel h)

theorem within_abortDownload (s : Session) : Within F s s.abortDownload := by
  rw [abortDownload]
  split
  · exact .refl s
  · rename_i w hw
    exact within_requeueDownload (Or.inl (holds_dl hw)) (within_dropDl s) true

theorem within_flushOne (s : Session) (i : Nat) (giveUp : Bool) (a : Answers) :
    Within F s (s.flushOne cfg i giveUp a) := by
  rw [flushOne]
  split
  · exact .refl s
  · rename_i f m hi
    dsimp only
    have hsame := same_applyDeferred cfg s f m a
    split
    · refine hsame.within.trans (within_of (fun _ h => Or.inl (holds_want h)) (fun _ h => Or.inl (holds_dl h))
        (fun _ h => Or.inl (holds_spill h)) (fun d h => ?_) fun _ h => Or.inl (holds_spillDel h))
      exact Or.inl (holds_defer (List.mem_of_mem_eraseIdx h))
    · exact hsame.within

theorem within_flushDeferred (s : Session) (picks : List (Nat × Bool × Answers)) :
    Within F s (s.flushDeferred cfg picks) := by
  rw [flushDeferred]
  induction picks generalizing s with
  | nil => exact .refl s
  | cons p picks ih => exact (within_flushOne s p.1 p.2.1 p.2.2).trans (ih _)

theorem within_deferPush {m : SyncMeta} (h : s.deferPush f m = some t) (hf : F f) : Within F s t := by
  rw [deferPush] at h
  split at h
  · exact absurd h (by simp)
  · obtain rfl := Option.some.inj h
    refine within_of (fun _ h => Or.inl (holds_want h)) (fun _ h => Or.inl (holds_dl h))
      (fun _ h => Or.inl (holds_spill h)) (fun d hd => ?_) fun _ h => Or.inl (holds_spillDel h)
    rcases List.mem_append.mp hd with hd | hd
    · exact Or.inl (holds_defer hd)
    · rw [List.mem_singleton.mp hd]
      exact Or.inr hf

/-- The parked deletions of one folder are replaced. -/
theorem within_spillDel (s : Session) {l : List SyncMeta} (h : l ≠ [] → holds s f = true ∨ F f) :
    Within F s { s with spillDel := Function.update s.spillDel f l } := by
  refine within_of (fun _ h => Or.inl (holds_want h)) (fun _ h => Or.inl (holds_dl h))
    (fun _ h => Or.inl (holds_spill h)) (fun _ h => Or.inl (holds_defer h)) fun g hg => ?_
  dsimp only at hg
  rw [Function.update_apply] at hg
  split at hg
  · rename_i hgf
    exact hgf ▸ h hg
  · exact Or.inl (holds_spillDel hg)

/-- The parked records of one folder are replaced. -/
theorem within_spill (s : Session) {l : List Wanted} (h : l ≠ [] → holds s f = true ∨ F f) :
    Within F s { s with spill := Function.update s.spill f l } := by
  refine within_of (fun _ h => Or.inl (holds_want h)) (fun _ h => Or.inl (holds_dl h))
    (fun g hg => ?_) (fun _ h => Or.inl (holds_defer h)) fun _ h => Or.inl (holds_spillDel h)
  dsimp only at hg
  rw [Function.update_apply] at hg
  split at hg
  · rename_i hgf
    exact hgf ▸ h hg
  · exact Or.inl (holds_spill hg)

theorem within_drainOne (s : Session) (f : FolderIdx) (readable : Bool) (a : Answers) :
    Within F s (s.drainOne cfg f readable a) := by
  rw [drainOne]
  split
  · exact .refl s
  · rename_i m rest hm
    have hheld : holds s f = true := holds_spillDel (by rw [hm]; simp)
    split
    · exact within_spillDel s fun h => absurd rfl h
    · have hrest := within_spillDel (F := F) s (l := rest) fun _ => Or.inl hheld
      have happly := hrest.trans (same_applyDeferred cfg _ f m a).within
      dsimp only
      split
      · exact happly
      · -- a drawer that cannot go yet waits with the deferred ones
        cases hpush : ((({ s with spillDel := Function.update s.spillDel f rest } : Session).applyDeferred cfg f m a).1.deferPush f m) with
        | none => exact happly
        | some t =>
          intro g hg
          rcases within_deferPush (F := (· = f)) hpush rfl g hg with h | rfl
          · exact happly g h
          · exact Or.inl hheld

theorem within_noteGone (s : Session) (f : FolderIdx) (n : Name) : Within F s (s.noteGone f n) := by
  have hadd : ∀ t : Session, Within F t (t.addGone f n) := by
    intro t
    rw [addGone]
    split
    · exact within_spill t fun h => absurd rfl h
    · exact SameQueues.within ⟨rfl, rfl, rfl, rfl, rfl⟩
  rw [noteGone]
  split
  · exact (within_abortDownload s).trans (hadd _)
  · exact hadd s

theorem within_enqueue (s : Session) (w : Wanted) (conflict : Bool) (a : Answers) (hf : F f) :
    Within F s (s.enqueue f w conflict a).1 := by
  rw [enqueue]
  split
  · exact .refl s
  · split
    · exact SameQueues.within ⟨rfl, rfl, rfl, rfl, rfl⟩
    · split
      · rename_i q hq
        exact within_push (Or.inr hf) hq (.refl s)
      · split
        · exact within_spill s fun _ => Or.inr hf
        · exact within_spill s fun h => absurd rfl h

theorem within_carryOut (s : Session) (w : Wanted) (a : Answers) (hf : F f) (act : SyncAction) :
    Within F s (s.carryOut f w a act).1 := by
  cases act with
  | ignore => exact .refl s
  | adopt => exact SameQueues.within ⟨rfl, rfl, rfl, rfl, rfl⟩
  | fetch => exact within_enqueue s w false a hf
  | conflict => exact within_enqueue s w true a hf
  | delete =>
    rw [carryOut]
    dsimp only
    split
    · rename_i t ht
      exact within_deferPush ht hf
    · have hpark : Within F s (s.spillDelete f w.fi a) := within_spillDel s fun _ => Or.inr hf
      split
      · exact hpark
      · exact hpark.trans (same_applyPeerDelete _ f w.fi a).within

theorem within_handleFile (s : Session) (w : Wanted) (a : Answers) (hf : F f) :
    Within F s (s.handleFile cfg f w a).1 := by
  have hdrop : Within F s (if w.fi.deleted then s
      else { s with gone := Function.update s.gone f (hsetDrop (s.gone f) w.fi.name) }) := by
    split
    · exact .refl s
    · exact SameQueues.within ⟨rfl, rfl, rfl, rfl, rfl⟩
  rw [handleFile]
  refine Within.trans ?_ (within_carryOut _ w a hf _)
  split
  · exact hdrop.trans (within_noteGone _ f _)
  · exact hdrop

theorem within_handleDir (s : Session) (d : SyncMeta) (a : Answers) (picks : List (Nat × Bool × Answers))
    (hf : F f) : Within F s (s.handleDir cfg f d a picks) := by
  rw [handleDir]
  split
  · exact .refl s
  · split
    · exact (same_applyPeerDir s f d a).within
    · split
      · rename_i t ht
        exact within_deferPush ht hf
      · have hflush : Within F s (s.flushDeferred cfg picks) := within_flushDeferred s picks
        dsimp only
        split
        · rename_i t ht
          exact hflush.trans (within_deferPush ht hf)
        · have hpark : Within F s ((s.flushDeferred cfg picks).spillDelete f d a) :=
            hflush.trans (within_spillDel _ fun _ => Or.inr hf)
          split
          · exact hpark
          · exact hpark.trans (same_applyPeerDirDelete _ f d a).within

/-- **Record.** Only its own folder gains anything. -/
theorem within_receive (s : Session) (w : Wanted) (a : Answers) (picks : List (Nat × Bool × Answers)) :
    Within (· = f) s (s.receive cfg f w a picks).1 := by
  have hrecord : Within (· = f) s (s.handleRecord cfg f w a picks).1 := by
    have hclear : Within (· = f) s (s.stallClear (f, w.fi.name)) := SameQueues.within ⟨rfl, rfl, rfl, rfl, rfl⟩
    rw [handleRecord]
    split
    · exact .refl s
    · split
      · exact .refl s
      · split
        · exact hclear.trans (within_handleDir _ w.fi a picks rfl)
        · split
          · exact hclear
          · split
            · exact hclear
            · exact hclear.trans (within_handleFile _ _ a rfl)
  exact hrecord.trans (SameQueues.within ⟨rfl, rfl, rfl, rfl, rfl⟩)

theorem within_startEntry {w : WantFile} (hw : holds s w.folderIdx = true ∨ F w.folderIdx) (ht : Within F s t)
    (a : Answers) : Within F s (t.startEntry w a) := by
  rw [startEntry]
  split
  · exact ht
  · split
    · exact ht.trans (SameQueues.within ⟨rfl, rfl, rfl, rfl, rfl⟩)
    · have hcopy : Within F s (if w.conflict then t.preserveLocal w.key a else t) := by
        split
        · exact ht.trans (same_preserveLocal t _ a).within
        · exact ht
      dsimp only
      split
      · refine within_of (fun x hx => hcopy _ (holds_want hx)) (fun x hx => ?_) (fun g hg => hcopy g (holds_spill hg))
          (fun d hd => hcopy _ (holds_defer hd)) fun g hg => hcopy g (holds_spillDel hg)
        obtain rfl := Option.some.inj hx
        exact hw
      · exact within_requeueDownload (w := { w with attempts := w.attempts + 1 }) hw hcopy true

theorem within_startDownload (s : Session) (a : Answers) : Within F s (s.startDownload a) := by
  rw [Session.startDownload]
  split
  · rename_i w rest hdl hwant
    have hpop : Within F s { s with want := rest } := by
      refine within_of (fun x hx => ?_) (fun _ h => Or.inl (holds_dl h)) (fun _ h => Or.inl (holds_spill h))
        (fun _ h => Or.inl (holds_defer h)) fun _ h => Or.inl (holds_spillDel h)
      exact Or.inl (holds_want (by rw [hwant]; exact List.mem_cons_of_mem _ hx))
    refine within_startEntry (Or.inl (holds_want ?_)) hpop a
    rw [hwant]
    exact List.mem_cons_self
  · exact .refl s

theorem within_finalizeDownload (s : Session) (ok retryable : Bool) (mem : UpsertMem) :
    Within F s (s.finalizeDownload ok retryable mem) := by
  rw [Session.finalizeDownload]
  split
  · exact .refl s
  · rename_i w hw
    split
    · exact (within_dropDl s).trans (SameQueues.within ⟨rfl, rfl, rfl, rfl, rfl⟩)
    · exact within_requeueDownload (Or.inl (holds_dl hw)) (within_dropDl s) retryable

theorem within_refillOne (s : Session) (f : FolderIdx) (readable : Bool) :
    Within F s (s.refillOne cfg f readable) := by
  rw [refillOne]
  split
  · exact .refl s
  · rename_i w rest hspill
    have hheld : holds s f = true := holds_spill (by rw [hspill]; simp)
    have hrest : Within F s { s with spill := Function.update s.spill f rest } :=
      within_spill s fun _ => Or.inl hheld
    dsimp only
    split
    · exact .refl s
    · split
      · exact within_spill s fun h => absurd rfl h
      · split
        · exact hrest
        · split
          · exact hrest
          · split
            · rename_i q hq
              exact within_push (t := { s with spill := Function.update s.spill f rest }) (Or.inl hheld) hq hrest
            · exact .refl s

/-- **Worker.** Nothing new is held for any folder. -/
theorem within_step (s : Session) {e : Session.Event} (he : ∀ f records, e ≠ .index f records) :
    Within F s (s.step cfg e) := by
  cases e with
  | index f records => exact absurd rfl (he f records)
  | start a => exact within_startDownload s a
  | finish ok retryable mem => exact within_finalizeDownload s ok retryable mem
  | abort => exact within_abortDownload s
  | refill f readable => exact within_refillOne s f readable
  | flush picks => exact within_flushDeferred s picks
  | drain f readable a => exact within_drainOne s f readable a

end Holds

/-- A folder is added only when no pass is under way in its slot and the worker holds nothing
for it. -/
def Quiet (w : World) : Event → Prop
  | .add _ id _ _ _ => ∀ i, w.cfg.addSlot id = some i →
      (∀ p, w.pass = some p → p.fidx ≠ i) ∧ w.busy i = false
  | _ => True

/-! ## The invariant -/

/-- **The invariant.** Whatever is under way is of the present generation. -/
structure Inv (w : World) : Prop where
  pass : ∀ p, w.pass = some p → p.gen = w.gen p.fidx
  heard : ∀ i, ∀ g ∈ w.heard i, g = w.gen i
  held : ∀ i, w.heard i = [] ↔ w.busy i = false

section Inv
variable {sha : Bytes → Hash} {ign : FolderIdx → Name → Bool} {w w' : World}

/-- The pass goes on or ends, and the rest is as it was. -/
theorem Inv.scan (h : Inv w) (hgen : ∀ i, w'.gen i = w.gen i) (hheard : w'.heard = w.heard)
    (hbusy : ∀ i, w'.busy i = w.busy i)
    (hpass : ∀ q, w'.pass = some q → ∃ p, w.pass = some p ∧ q.gen = p.gen ∧ q.fidx = p.fidx) : Inv w' where
  pass := by
    intro q hq
    obtain ⟨p, hp, hpgen, hfidx⟩ := hpass q hq
    rw [hpgen, hfidx, hgen]
    exact h.pass p hp
  heard := by
    intro i g hg
    rw [hheard] at hg
    rw [hgen]
    exact h.heard i g hg
  held := by
    intro i
    rw [hheard, hbusy]
    exact h.held i

theorem Inv.worked (h : Inv w) {s : Session} {reading : Option FolderIdx}
    (hin : Within (fun f => w.reading = some f) w.session s)
    (hread : ∀ f, reading = some f → w.reading = some f) : Inv (w.worked s reading) where
  pass := h.pass
  heard := by
    intro i g hg
    dsimp only [World.worked] at hg
    split at hg
    · exact h.heard i g hg
    · exact absurd hg (by simp)
  held := by
    intro i
    have hbusy : (w.worked s reading).busy i = (reading == some i || holds s i) := rfl
    rw [hbusy]
    dsimp only [World.worked]
    cases hb : reading == some i || holds s i with
    | false => simp
    | true =>
      rw [if_pos rfl, h.held i]
      have hwas : w.busy i = true := by
        rw [World.busy, Bool.or_eq_true, beq_iff_eq]
        rcases Bool.or_eq_true_iff.mp hb with hr | hr
        · exact Or.inl (hread i (eq_of_beq hr))
        · exact (hin i hr).symm
      simp [hwas]

theorem gen_remove (w : World) (id : CString 63) (i : FolderIdx) :
    (((daemonFolderRemove w.cfg id).getD w.cfg).folders i).gen = w.gen i := by
  cases hcfg : daemonFolderRemove w.cfg id with
  | none => rfl
  | some cfg =>
    obtain ⟨j, -, rfl⟩ := daemonFolderRemove_some hcfg
    rw [Option.getD_some]
    dsimp only
    rw [Function.update_apply]
    split
    · rename_i hij
      rw [hij]
      rfl
    · rfl

/-- **Adding.** The slot was quiet. -/
theorem Inv.add (h : Inv w) {id : CString 63} {path : Bytes} {mode : FolderMode} {i : FolderIdx} (shortId : Nat)
    (hpass : ∀ p, w.pass = some p → p.fidx ≠ i) (hbusy : w.busy i = false) :
    Inv { w.setIndex i (FolderState.empty shortId) with cfg := w.cfg.install i id path mode } where
  pass := by
    intro p hp
    rw [World.gen, install_of_ne (hpass p hp)]
    exact h.pass p hp
  heard := by
    intro j g hg
    have hg' : g ∈ w.heard j := hg
    have hne : j ≠ i := by
      rintro rfl
      rw [(h.held j).mpr hbusy] at hg'
      exact absurd hg' (by simp)
    rw [World.gen, install_of_ne hne]
    exact h.heard j g hg
  held := h.held

/-- **Hearing.** An Index for a folder is of the folder's generation. -/
theorem Inv.hear (h : Inv w) (hread : w.reading = none) (f : FolderIdx) :
    Inv { w with
      reading := some f
      heard := Function.update w.heard f (w.gen f :: w.heard f) } where
  pass := h.pass
  heard := by
    intro i g hg
    dsimp only at hg
    rw [Function.update_apply] at hg
    split at hg
    · rename_i hif
      rcases List.mem_cons.mp hg with rfl | hg
      · rw [hif]
        rfl
      · exact hif ▸ h.heard f g hg
    · exact h.heard i g hg
  held := by
    intro i
    have hold := h.held i
    rw [World.busy, hread] at hold
    rw [World.busy]
    dsimp only
    by_cases hif : i = f
    · rw [hif, Function.update_self]
      simp
    · rw [Function.update_of_ne hif, hold]
      simp [Ne.symm hif]

/-- A pass begins. -/
theorem Inv.begin (h : Inv w) (i : FolderIdx) (ign : Name → Bool) : Inv (beginPass w i ign) where
  pass := by
    intro p hp
    obtain rfl := Option.some.inj hp
    rfl
  heard := h.heard
  held := h.held

/-- A pass ends. -/
theorem Inv.ended (h : Inv w) (hgen : ∀ i, w'.gen i = w.gen i) (hheard : w'.heard = w.heard)
    (hbusy : ∀ i, w'.busy i = w.busy i) (hpass : w'.pass = none) : Inv w' :=
  h.scan hgen hheard hbusy fun q hq => absurd (hpass.symm.trans hq) (by simp)

/-- A pass goes on. -/
theorem Inv.goesOn (h : Inv w) {i : FolderIdx} {gen : Nat} {before : Int}
    {e e' : Option FolderEntry} {ign : Name → Bool} (hp : w.pass = some ⟨i, gen, before, ign, e⟩)
    (hgen : ∀ i, w'.gen i = w.gen i) (hheard : w'.heard = w.heard) (hbusy : ∀ i, w'.busy i = w.busy i)
    (hpass : w'.pass = some ⟨i, gen, before, ign, e'⟩) : Inv w' := by
  refine h.scan hgen hheard hbusy fun q hq => ⟨_, hp, ?_⟩
  obtain rfl := Option.some.inj (hpass.symm.trans hq)
  exact ⟨rfl, rfl⟩

/-- **Step.** -/
theorem inv_step {e : Event} (h : Inv w) (hc : Quiet w e) (hs : step sha ign w e = some w') : Inv w' := by
  cases e with
  | begin i ign =>
    rw [step] at hs
    split at hs
    · split at hs
      · obtain rfl := Option.some.inj hs
        exact h.begin i ign
      · exact absurd hs (by simp)
    · exact absurd hs (by simp)
  | entry env e =>
    rw [step] at hs
    split at hs
    · rename_i i gen before ign hp
      obtain rfl := Option.some.inj hs
      rw [entry]
      split
      · exact h.ended (fun _ => rfl) rfl (fun _ => rfl) rfl
      · exact h.goesOn hp (fun _ => rfl) rfl (fun _ => rfl) rfl
    · exact absurd hs (by simp)
  | hashed env present =>
    rw [step] at hs
    split at hs
    · rename_i i gen before ign e hp
      obtain rfl := Option.some.inj hs
      exact h.goesOn hp (fun _ => rfl) rfl (fun _ => rfl) rfl
    · exact absurd hs (by simp)
  | stop =>
    rw [step] at hs
    split at hs
    · obtain rfl := Option.some.inj hs
      exact h.ended (fun _ => rfl) rfl (fun _ => rfl) rfl
    · exact absurd hs (by simp)
  | sweep env =>
    rw [step] at hs
    split at hs
    · obtain rfl := Option.some.inj hs
      exact h.ended (fun _ => rfl) rfl (fun _ => rfl) rfl
    · exact absurd hs (by simp)
  | index id =>
    rw [step] at hs
    split at hs
    · rename_i f hread hslot
      obtain rfl := Option.some.inj hs
      exact h.hear hread f
    · exact Option.some.inj hs ▸ h
    · exact absurd hs (by simp)
  | record m a picks =>
    rw [step] at hs
    split at hs
    · rename_i f hread
      obtain rfl := Option.some.inj hs
      refine h.worked (fun g hg => ?_) fun g hg => ?_
      · rcases within_receive w.session m a picks g hg with hg | rfl
        · exact Or.inl hg
        · exact Or.inr hread
      · split at hg
        · exact hread.trans hg
        · exact absurd hg (by simp)
    · exact absurd hs (by simp)
  | endIndex =>
    rw [step] at hs
    split at hs
    · obtain rfl := Option.some.inj hs
      exact h.worked (.refl _) fun f hf => absurd hf (by simp)
    · exact absurd hs (by simp)
  | worker e =>
    have hnot : ∀ f records, e ≠ .index f records := by
      rintro f records rfl
      exact absurd hs (by simp [step])
    rw [step] at hs
    · split at hs
      · obtain rfl := Option.some.inj hs
        exact h.worked (within_step w.session hnot) fun f hf => absurd hf (by simp)
      · exact absurd hs (by simp)
    · exact hnot
  | add admitted id path mode shortId =>
    rw [step] at hs
    split at hs
    · rename_i i cfg hadd
      obtain ⟨hslot, rfl⟩ := daemonFolderAdd_some hadd
      obtain rfl := Option.some.inj hs
      obtain ⟨hpass, hbusy⟩ := hc i hslot
      exact h.add shortId hpass hbusy
    · exact Option.some.inj hs ▸ h
  | remove id =>
    obtain rfl := Option.some.inj hs
    exact h.scan (gen_remove w id) rfl (fun _ => rfl) fun q hq => ⟨q, hq, rfl, rfl⟩
  | others i fs =>
    obtain rfl := Option.some.inj hs
    exact h.scan (fun _ => rfl) rfl (fun _ => rfl) fun q hq => ⟨q, hq, rfl, rfl⟩

theorem isolated_of_inv (w : World) (e : Event) (h : Inv w) : Isolated sha ign w e := by
  intro w' _
  constructor
  · intro _ p hp hgen
    exact absurd (h.pass p hp) hgen
  · rintro _ i ⟨g, hg, hgen⟩
    exact absurd (h.heard i g hg) hgen

end Inv

/-! ## Runs -/

/-- A session begins; no pass is under way. -/
def World.start (cfg : Config) (index : FolderIdx → FolderState) : World where
  cfg := cfg
  pass := none
  session := Session.start index
  reading := none
  heard := fun _ => []

theorem inv_start (cfg : Config) (index : FolderIdx → FolderState) : Inv (.start cfg index) where
  pass := fun p hp => absurd hp (by simp [World.start])
  heard := fun i g hg => absurd hg (by simp [World.start])
  held := fun i => by simp [World.start, World.busy, holds, Session.start]

/-- What the session holds for a folder came with an Index that was heard. -/
theorem heard_of_holds (sha : Bytes → Hash) (ign : FolderIdx → Name → Bool) (cfg : Config)
    (index : FolderIdx → FolderState) {es : List Event}
    (hc : Machine.Along (step sha ign) Quiet (.start cfg index) es) {w : World}
    (hr : Machine.run (step sha ign) (.start cfg index) es = some w) {f : FolderIdx}
    (hf : holds w.session f = true) : w.heard f ≠ [] := by
  have hinv : Inv w := Machine.run_inv_along (fun _ _ _ h hc hs => inv_step h hc hs) hc hr (inv_start cfg index)
  intro hnil
  have hbusy := (hinv.held f).mp hnil
  rw [World.busy, hf] at hbusy
  simp at hbusy

/-- **Isolation.** In every run in which a folder is added again only when no pass over it is
under way and the session holds nothing for it, no step of a pass from before and nothing of an
Index from before changes the new index. -/
theorem incarnations_isolated (sha : Bytes → Hash) (ign : FolderIdx → Name → Bool) (cfg : Config)
    (index : FolderIdx → FolderState) (es : List Event)
    (hc : Machine.Along (step sha ign) Quiet (.start cfg index) es) :
    Machine.Along (step sha ign) (Isolated sha ign) (.start cfg index) es :=
  Machine.along_of_inv (fun _ _ _ h hc hs => inv_step h hc hs) isolated_of_inv hc (inv_start cfg index)

/-! ### One folder, removed and added again -/

def sampleId : CString 63 := .ofBytes 63 [97]

/-- Every file hashes to one byte. -/
def sampleEnv : ScanEnv where
  mode := .sendReceive
  ign := fun _ => false
  tz := 0
  path := []
  fold := id
  hash := fun _ => .ok (sampleHash 1) [sampleHash 1] 1
  stamp := fun _ => 1
  mem := fun _ => ⟨true, true⟩
  now := 400000000

/-- The file `x`. -/
def sampleEntry : FolderEntry := ⟨[120], false, 1, 300000000⟩

/-- The peer's record of the file `y`. -/
def sampleWanted : Wanted where
  fi := { SyncMeta.zero [121] with size := 1, modifiedS := 300000000, blockSize := 131072, version := .single 2 1 }
  hashes := [sampleHash 2]

def sampleAnswers : Answers := ⟨true, true, true, true, true, none, 0, true, ⟨true, true⟩⟩

/-- An index that holds the peer's record of `y`. -/
def sampleIndex : FolderState := (FolderState.empty 1).store sampleWanted.fi sampleWanted.hashes ⟨true, true⟩

def readd : List Event := [.remove sampleId, .add true sampleId [88, 58] .sendReceive 1]

/-- The folder comes back while the scanner hashes a file. -/
def hashRun : List Event := [.begin 0 fun _ => false, .entry sampleEnv sampleEntry] ++ readd

/-- The folder comes back, and another worker's fetch of `y` is in its new index when the old
pass ends. -/
def sweepRun : List Event := [.begin 0 fun _ => false] ++ readd ++ [.others 0 sampleIndex]

/-- The folder comes back while a fetch of `y` is in flight. -/
def fetchRun : List Event :=
  [.index sampleId, .record sampleWanted sampleAnswers [], .endIndex, .worker (.start sampleAnswers)] ++ readd

def sampleStep : World → Event → Option World := step (fun _ => sampleHash 0) fun _ _ => false

/-- The event after the run changes what the new index says of the name, and must not. -/
def Breaks (fs : FolderState) (es : List Event) (e : Event) (n : Name) : Prop :=
  ∃ w w', Machine.run sampleStep (.start (sampleConfig sampleId) fun _ => fs) es = some w ∧
    sampleStep w e = some w' ∧ w'.content 0 n ≠ w.content 0 n ∧
    ¬ Isolated (fun _ => sampleHash 0) (fun _ _ => false) w e

theorem breaks_of {fs : FolderState} {es : List Event} {e : Event} {n : Name}
    (h : ((Machine.run sampleStep (.start (sampleConfig sampleId) fun _ => fs) es).any fun w =>
      (e.isScan && w.pass.any fun p => decide (p.gen ≠ w.gen p.fidx)) ||
        (e.isWorker && (w.heard 0).any fun g => decide (g ≠ w.gen 0))) = true)
    (hn : ((Machine.run sampleStep (.start (sampleConfig sampleId) fun _ => fs) es).any fun w =>
      (sampleStep w e).any fun w' => decide (w'.content 0 n ≠ w.content 0 n)) = true) :
    Breaks fs es e n := by
  obtain ⟨w, hw, hstep⟩ := (Option.any_eq_true ..).mp hn
  obtain ⟨w', hw', hchange⟩ := (Option.any_eq_true ..).mp hstep
  rw [hw, Option.any_some, Bool.or_eq_true, Bool.and_eq_true, Bool.and_eq_true] at h
  have hchange' := of_decide_eq_true hchange
  refine ⟨w, w', hw, hw', hchange', fun hiso => ?_⟩
  obtain ⟨hscan, hworker⟩ := hiso w' hw'
  rcases h with ⟨he, hp⟩ | ⟨he, hg⟩
  · obtain ⟨p, hp, hgen⟩ := (Option.any_eq_true ..).mp hp
    exact hchange' (hscan he p hp (of_decide_eq_true hgen) 0 n)
  · obtain ⟨g, hg, hgen⟩ := List.any_eq_true.mp hg
    exact hchange' (hworker he 0 ⟨g, hg, of_decide_eq_true hgen⟩ n)

/-- The file that was being hashed is recorded in the new index; the old pass takes `y`, which
was fetched into the new index, for deleted; the old fetch of `y` ends in the new index. -/
theorem readd_breaks :
    Breaks (FolderState.empty 1) hashRun (.hashed sampleEnv fun _ => true) [120] ∧
    Breaks sampleIndex sweepRun (.sweep sampleEnv) [121] ∧
    Breaks (FolderState.empty 1) fetchRun (.worker (.finish true true ⟨true, true⟩)) [121] :=
  ⟨breaks_of (by decide +kernel) (by decide +kernel), breaks_of (by decide +kernel) (by decide +kernel),
    breaks_of (by decide +kernel) (by decide +kernel)⟩

/-- A pass that has noticed the removal does no harm: the file is recorded by the next one. -/
def noticedRun : List Event :=
  [.begin 0 fun _ => false, .entry sampleEnv sampleEntry, .remove sampleId, .hashed sampleEnv fun _ => true,
    .entry sampleEnv sampleEntry, .add true sampleId [88, 58] .sendReceive 1, .begin 0 fun _ => false,
    .entry sampleEnv sampleEntry, .hashed sampleEnv fun _ => true]

theorem noticed_isolated :
    ((Machine.run sampleStep (.start (sampleConfig sampleId) fun _ => FolderState.empty 1) noticedRun).any
      fun w => (w.content 0 [120]).isSome && decide (w.gen 0 = 2)) = true ∧
    Machine.Along sampleStep (Isolated (fun _ => sampleHash 0) fun _ _ => false)
      (.start (sampleConfig sampleId) fun _ => FolderState.empty 1) noticedRun := by
  refine ⟨by decide +kernel, incarnations_isolated _ _ _ _ _ ⟨trivial, ?_⟩⟩
  rintro _ ⟨⟩
  refine ⟨trivial, ?_⟩
  rintro _ ⟨⟩
  refine ⟨trivial, ?_⟩
  rintro _ ⟨⟩
  refine ⟨trivial, ?_⟩
  rintro _ ⟨⟩
  refine ⟨trivial, ?_⟩
  rintro _ ⟨⟩
  refine ⟨?_, fun _ _ => ⟨trivial, fun _ _ => ⟨trivial, fun _ _ => ⟨trivial, fun _ _ => trivial⟩⟩⟩⟩
  intro i hi
  exact ⟨fun p hp => (nomatch hp), rfl⟩

end Incarnation

end Amisync

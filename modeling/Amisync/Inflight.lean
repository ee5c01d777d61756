import Amisync.Worker
import Amisync.Lib.Machine

/-!
# A transfer in flight, and the other writers

One name of one folder: the worker's lock sections for it, in the order in which
the worker goes through them, between which the scanner and the other workers
write to the index as they like.

* `Doing`: where the worker stands between two of its lock sections. What was
  decided goes with the record that the decision looked at.
* `laneInv_step`: whatever is queued or in flight was decided on by the table,
  and a conflict has been handled by the time the file is fetched.
* `replaced_keeps`: a record is replaced by one that equals or dominates it, or
  its content was the same, or moved to a conflict copy first, as far as that went.
-/

namespace Amisync

/-! ## State -/

/-- A queued or running fetch, with the record it was decided on. -/
structure Fetch where
  want : WantFile
  basis : Option SyncMeta
  deriving DecidableEq, Repr

inductive Doing where
  | idle
  /-- `handle_index` has classified a record. -/
  | decided (act : SyncAction) (w : Wanted) (basis : Option SyncMeta)
  /-- `apply_peer_delete` is at the files. -/
  | deleting (m : SyncMeta) (basis : Option SyncMeta)
  /-- `announce_unstorable` is about to lock. -/
  | flagging (m : SyncMeta) (basis : Option SyncMeta)
  /-- `start_download` has popped an entry. -/
  | starting (f : Fetch)
  /-- `conflict_preserve_local` has copied the record and is at the files. -/
  | moving (f : Fetch) (held : SyncMeta) (blocks : List Hash)
  /-- `folder_recv_open` -/
  | opening (f : Fetch)
  deriving DecidableEq, Repr

/-- What concerns one name. `copies` are the conflict copies that were registered, `refused`
the records for whose file that could not be done. -/
structure Lane where
  fs : FolderState
  want : List Fetch
  parked : List Wanted
  deferred : List SyncMeta
  dl : Option Fetch
  doing : Doing
  copies : List SyncMeta
  refused : List SyncMeta

/-- Where a record that is to be fetched goes. -/
inductive Place where
  | queue
  | spill
  | nowhere
  deriving DecidableEq, Repr

inductive LaneEvent where
  /-- A write of the scanner's, or of another worker's, or to another name. -/
  | write (w : FolderState.Writer)
  /-- `handle_index`: a record of the name, classified. -/
  | index (w : Wanted)
  /-- What `handle_index` does with the answer. -/
  | act (place : Place) (room : Bool)
  /-- The next deferred deletion, classified again. -/
  | recheck
  /-- The rest of `apply_peer_delete`. -/
  | removed (ok : Bool) (mem : UpsertMem)
  | flagged (mem : UpsertMem)
  /-- `refill_from_spill`; what the peer deleted or the rules hide is dropped. -/
  | refill (drop : Bool)
  /-- `start_download`, as far as the pop. -/
  | start (gone : Bool)
  /-- `folder_name_fits`, and the first half of `conflict_preserve_local`. -/
  | fit (fits : Bool)
  /-- The rest of `conflict_preserve_local`. -/
  | moved (cn : Name) (granted : Bool) (stamp : Nat) (mem : UpsertMem)
  | opened (ok room : Bool)
  /-- `finalize_download` -/
  | finish (ok retryable room : Bool) (mem : UpsertMem)
  /-- `abort_download` -/
  | abort (room : Bool)

/-! ## Steps -/

/-- `requeue_download`: never again as a conflict. -/
def requeue (f : Fetch) (retryable room : Bool) (q : List Fetch) : List Fetch :=
  if retryable && f.want.attempts < wkMaxFetch && room then
    ⟨{ f.want with conflict := false }, f.basis⟩ :: q
  else q

variable (n : Name) (mode : FolderMode)

def Lane.record (s : Lane) : Option SyncMeta := s.fs.record n

/-- The queueing branch of `handle_index`. -/
def Lane.enqueue (s : Lane) (w : Wanted) (conflict : Bool) (basis : Option SyncMeta)
    (place : Place) : Lane :=
  if s.dl.isSome || !s.want.isEmpty then { s with doing := .idle }
  else if w.tooLarge then { s with doing := .flagging w.fi basis }
  else match place with
    | .queue =>
      { s with want := ⟨⟨0, w.fi, w.hashes, conflict, 0⟩, basis⟩ :: s.want, doing := .idle }
    | .spill => { s with parked := s.parked ++ [w], doing := .idle }
    | .nowhere => { s with doing := .idle }

/-- What `handle_index` does with each answer. -/
def Lane.carryOut (s : Lane) (w : Wanted) (basis : Option SyncMeta) (place : Place) (room : Bool) :
    SyncAction → Lane
  | .ignore => { s with doing := .idle }
  | .adopt => { s with fs := s.fs.adopt n w.fi, doing := .idle }
  | .delete =>
    if room then { s with deferred := s.deferred ++ [w.fi], doing := .idle }
    else { s with doing := .deleting w.fi basis }
  | .fetch => s.enqueue w false basis place
  | .conflict => s.enqueue w true basis place

/-- The lock sections of the worker. `none` where the worker is not at that point. -/
def laneStep (s : Lane) : LaneEvent → Option Lane
  | .write w => some { s with fs := s.fs.write w }
  | .index w =>
    if s.doing = .idle ∧ w.fi.name = n then
      some { s with
        doing := .decided (syncClassifyIncoming (s.record n) mode w.fi) w (s.record n) }
    else none
  | .act place room =>
    match s.doing with
    | .decided act w b => some (s.carryOut n w b place room act)
    | _ => none
  | .recheck =>
    match s.doing, s.deferred with
    | .idle, m :: rest =>
      if syncClassifyIncoming (s.record n) mode m = .delete then
        some { s with deferred := rest, doing := .deleting m (s.record n) }
      else some { s with deferred := rest }
    | _, _ => none
  | .removed ok mem =>
    match s.doing with
    | .deleting m _ =>
      some { s with fs := if ok then s.fs.store m [] mem else s.fs, doing := .idle }
    | _ => none
  | .flagged mem =>
    match s.doing with
    | .flagging m _ => some { s with fs := s.fs.store (unstorableRecord m) [] mem, doing := .idle }
    | _ => none
  | .refill drop =>
    match s.doing, s.parked with
    | .idle, w :: rest =>
      if drop then some { s with parked := rest }
      else match syncClassifyIncoming (s.record n) mode w.fi with
        | .fetch => some { s with
            parked := rest
            want := ⟨⟨0, w.fi, w.hashes, false, 0⟩, s.record n⟩ :: s.want }
        | .conflict => some { s with
            parked := rest
            want := ⟨⟨0, w.fi, w.hashes, true, 0⟩, s.record n⟩ :: s.want }
        | _ => some { s with parked := rest }
    | _, _ => none
  | .start gone =>
    match s.doing, s.dl, s.want with
    | .idle, none, f :: rest =>
      if alreadyHave (s.record n) f.want.fi || gone then some { s with want := rest }
      else some { s with want := rest, doing := .starting f }
    | _, _, _ => none
  | .fit fits =>
    match s.doing with
    | .starting f =>
      if !fits then some { s with doing := .flagging f.want.fi f.basis }
      else if f.want.conflict then
        match s.fs.find n with
        | some t => if t.record.deleted then some { s with doing := .opening f }
          else some { s with doing := .moving f t.record t.blocks }
        | none => some { s with doing := .opening f }
      else some { s with doing := .opening f }
    | _ => none
  | .moved cn granted stamp mem =>
    match s.doing with
    | .moving f h blocks =>
      if cn = n then none
      else if granted then
        some { s with
          fs := s.fs.store (conflictCopy h cn s.fs.shortId stamp 0) blocks mem
          doing := .opening f
          copies := conflictCopy h cn s.fs.shortId stamp 0 :: s.copies }
      else some { s with doing := .opening f, refused := h :: s.refused }
    | _ => none
  | .opened ok room =>
    match s.doing with
    | .opening f =>
      let f' : Fetch := ⟨{ f.want with attempts := f.want.attempts + 1 }, f.basis⟩
      if ok then some { s with dl := some f', doing := .idle }
      else some { s with want := requeue f' true room s.want, doing := .idle }
    | _ => none
  | .finish ok retryable room mem =>
    match s.doing, s.dl with
    | .idle, some f =>
      if ok then some { s with fs := s.fs.store f.want.fi f.want.hashes mem, dl := none }
      else some { s with want := requeue f retryable room s.want, dl := none }
    | _, _ => none
  | .abort room =>
    match s.doing, s.dl with
    | .idle, some f => some { s with want := requeue f true room s.want, dl := none }
    | _, _ => none

/-- A worker that has just connected. -/
def Lane.start (fs : FolderState) : Lane := ⟨fs, [], [], [], none, .idle, [], []⟩

/-! ## Invariant -/

/-- The content of a record is under a conflict name, or could not be put there. -/
def Kept (s : Lane) (r : SyncMeta) : Prop :=
  (∃ c ∈ s.copies, c.contentHash = r.contentHash ∧ c.size = r.size) ∨ r ∈ s.refused

/-- A record that is still there was decided on after the last write to it. -/
def Bounded (s : Lane) (basis : Option SyncMeta) : Prop :=
  ∀ r, basis = some r → r.sequence ≤ s.fs.sequence

/-- The record that was decided on is kept, if it is still there. -/
def Handled (s : Lane) (basis : Option SyncMeta) : Prop :=
  ∀ r, basis = some r → s.record n = some r → Kept s r

/-- A fetch as the table has decided it; of a conflict only what is still marked or handled. -/
structure FetchOk (s : Lane) (f : Fetch) : Prop where
  bounded : Bounded s f.basis
  decided : syncClassifyIncoming f.basis mode f.want.fi = .fetch ∨
    syncClassifyIncoming f.basis mode f.want.fi = .conflict ∧
      (f.want.conflict = true ∨ Handled n s f.basis)

/-- A fetch that may go ahead. -/
structure Ready (s : Lane) (f : Fetch) : Prop where
  bounded : Bounded s f.basis
  decided : syncClassifyIncoming f.basis mode f.want.fi = .fetch ∨
    syncClassifyIncoming f.basis mode f.want.fi = .conflict ∧ Handled n s f.basis

def DoingOk (s : Lane) : Doing → Prop
  | .idle => True
  | .decided act w b => act = syncClassifyIncoming b mode w.fi ∧ Bounded s b
  | .deleting m b => syncClassifyIncoming b mode m = .delete
  | .flagging _ _ => True
  | .starting f => FetchOk n mode s f
  | .moving f h _ => FetchOk n mode s f ∧ ∀ r, f.basis = some r → s.record n = some r → r = h
  | .opening f => Ready n mode s f

structure LaneInv (s : Lane) : Prop where
  want : ∀ f ∈ s.want, FetchOk n mode s f
  dl : ∀ f, s.dl = some f → Ready n mode s f
  doing : DoingOk n mode s s.doing

variable {n mode}

/-! ### What other writers can do to it -/

/-- A record after a write is as it was, or newer than everything before. -/
theorem record_of_writerOk {fs fs' : FolderState} (h : FolderState.WriterOk fs fs') {r : SyncMeta}
    (hr : fs'.record n = some r) : fs.sequence < r.sequence ∨ fs.record n = some r := by
  obtain ⟨u, hu, rfl⟩ := Option.map_eq_some_iff.mp hr
  obtain ⟨hmem, hname⟩ := fs'.mem_of_find hu
  rcases h.slot u hmem with hlt | ⟨t, ht, hsame⟩
  · exact Or.inl hlt
  · refine Or.inr ?_
    have hn : t.name = n := (congrArg SyncMeta.name hsame.1).trans hname
    have hfind : fs.find n = some t := hn ▸ fs.find_of_mem ht
    rw [FolderState.record, hfind, Option.map_some, hsame.1]

/-- A later state: other writers wrote, and conflict copies came. -/
structure Later (s t : Lane) : Prop where
  fs : FolderState.WriterOk s.fs t.fs
  copies : s.copies ⊆ t.copies
  refused : s.refused ⊆ t.refused

section Later
variable {s t : Lane}

theorem Later.kept (h : Later s t) {r : SyncMeta} (hk : Kept s r) : Kept t r := by
  rcases hk with ⟨c, hc, hsame⟩ | hr
  · exact Or.inl ⟨c, h.copies hc, hsame⟩
  · exact Or.inr (h.refused hr)

theorem Later.bounded (h : Later s t) {b : Option SyncMeta} (hb : Bounded s b) : Bounded t b :=
  fun r hr => Int.le_trans (hb r hr) h.fs.seq

/-- A record that was decided on does not come back. -/
theorem Later.record (h : Later s t) {b : Option SyncMeta} (hb : Bounded s b) {r : SyncMeta}
    (hr : b = some r) (hrec : t.record n = some r) : s.record n = some r := by
  have hle := hb r hr
  rcases record_of_writerOk h.fs hrec with hlt | hold
  · omega
  · exact hold

theorem Later.handled (h : Later s t) {b : Option SyncMeta} (hb : Bounded s b)
    (hh : Handled n s b) : Handled n t b :=
  fun r hr hrec => h.kept (hh r hr (h.record hb hr hrec))

theorem Later.fetchOk (h : Later s t) {f : Fetch} (hf : FetchOk n mode s f) :
    FetchOk n mode t f := by
  refine ⟨h.bounded hf.bounded, ?_⟩
  rcases hf.decided with hd | ⟨hc, hm | hh⟩
  · exact Or.inl hd
  · exact Or.inr ⟨hc, Or.inl hm⟩
  · exact Or.inr ⟨hc, Or.inr (h.handled hf.bounded hh)⟩

theorem Later.ready (h : Later s t) {f : Fetch} (hf : Ready n mode s f) : Ready n mode t f := by
  refine ⟨h.bounded hf.bounded, ?_⟩
  rcases hf.decided with hd | ⟨hc, hh⟩
  · exact Or.inl hd
  · exact Or.inr ⟨hc, h.handled hf.bounded hh⟩

theorem Later.doing (h : Later s t) {d : Doing} (hd : DoingOk n mode s d) :
    DoingOk n mode t d := by
  cases d with
  | idle => trivial
  | decided act w b => exact ⟨hd.1, h.bounded hd.2⟩
  | deleting m b => exact hd
  | flagging m b => trivial
  | starting f => exact h.fetchOk hd
  | moving f held blocks =>
    exact ⟨h.fetchOk hd.1, fun r hr hrec => hd.2 r hr (h.record hd.1.bounded hr hrec)⟩
  | opening f => exact h.ready hd

theorem Later.of_eq (hfs : t.fs = s.fs) (hc : t.copies = s.copies) (hr : t.refused = s.refused) :
    Later s t :=
  ⟨hfs ▸ FolderState.WriterOk.refl s.fs, hc ▸ List.Subset.refl _, hr ▸ List.Subset.refl _⟩

theorem Later.of_write (hfs : FolderState.WriterOk s.fs t.fs) (hc : t.copies = s.copies)
    (hr : t.refused = s.refused) : Later s t :=
  ⟨hfs, hc ▸ List.Subset.refl _, hr ▸ List.Subset.refl _⟩

/-- **Frame.** What was queued or in flight is carried over; only what is new has to be shown. -/
theorem LaneInv.next (hi : LaneInv n mode s) (hl : Later s t)
    (hw : ∀ f ∈ t.want, f ∈ s.want ∨ FetchOk n mode t f)
    (hd : ∀ f, t.dl = some f → s.dl = some f ∨ Ready n mode t f)
    (hdo : DoingOk n mode t t.doing) : LaneInv n mode t := by
  refine ⟨fun f hf => ?_, fun f hf => ?_, hdo⟩
  · rcases hw f hf with h | h
    · exact hl.fetchOk (hi.want f h)
    · exact h
  · rcases hd f hf with h | h
    · exact hl.ready (hi.dl f h)
    · exact h

/-- Nothing is queued or started. -/
theorem LaneInv.turn (hi : LaneInv n mode s) (hl : Later s t) (hw : t.want ⊆ s.want)
    (hd : t.dl = s.dl) (hdo : DoingOk n mode t t.doing) : LaneInv n mode t :=
  hi.next hl (fun _ hf => Or.inl (hw hf)) (fun _ hf => Or.inl (hd ▸ hf)) hdo

end Later

/-- What is requeued has been handled. -/
theorem fetchOk_requeue {s : Lane} {f : Fetch} (hf : Ready n mode s f) {q : List Fetch}
    (hq : ∀ f ∈ q, FetchOk n mode s f) (retryable room : Bool) :
    ∀ g ∈ requeue f retryable room q, FetchOk n mode s g := by
  intro g hg
  unfold requeue at hg
  split at hg
  · rcases List.mem_cons.mp hg with rfl | hg
    · refine ⟨hf.bounded, ?_⟩
      rcases hf.decided with hd | ⟨hc, hh⟩
      · exact Or.inl hd
      · exact Or.inr ⟨hc, Or.inr hh⟩
    · exact hq g hg
  · exact hq g hg

/-- A fetch that is put on the queue when it has just been decided on. -/
theorem fetchOk_decided {s : Lane} {fi : SyncMeta} {b : Option SyncMeta} (hashes : List Hash)
    {conflict : Bool} (hb : Bounded s b)
    (hact : syncClassifyIncoming b mode fi = if conflict then .conflict else .fetch) :
    FetchOk n mode s ⟨⟨0, fi, hashes, conflict, 0⟩, b⟩ := by
  refine ⟨hb, ?_⟩
  cases conflict with
  | false => exact Or.inl hact
  | true => exact Or.inr ⟨hact, Or.inl rfl⟩

theorem bounded_record (s : Lane) : Bounded s (s.record n) := by
  intro r hr
  obtain ⟨u, hu, rfl⟩ := Option.map_eq_some_iff.mp hr
  exact (s.fs.seqOk u (s.fs.mem_of_find hu).1).2

/-- A conflict was decided on over a live record. -/
theorem live_of_conflict {b : Option SyncMeta} {fi : SyncMeta}
    (h : syncClassifyIncoming b mode fi = .conflict) {r : SyncMeta} (hr : b = some r) :
    r.deleted = false := by
  subst hr
  have hv := verdict_classify r fi mode
  rw [h] at hv
  cases hv with
  | conflict live _ => exact live

/-! ### Steps -/

section Steps
variable {s t : Lane}

theorem laneInv_enqueue (hi : LaneInv n mode s) {w : Wanted} {conflict : Bool}
    {b : Option SyncMeta} (hb : Bounded s b)
    (hact : syncClassifyIncoming b mode w.fi = if conflict then .conflict else .fetch)
    (place : Place) : LaneInv n mode (s.enqueue w conflict b place) := by
  unfold Lane.enqueue
  split
  · exact hi.turn (.of_eq rfl rfl rfl) (List.Subset.refl _) rfl trivial
  · split
    · exact hi.turn (.of_eq rfl rfl rfl) (List.Subset.refl _) rfl trivial
    · cases place with
      | queue =>
        refine hi.next (.of_eq rfl rfl rfl) (fun f hf => ?_) (fun _ h => Or.inl h) trivial
        rcases List.mem_cons.mp hf with rfl | hf
        · exact Or.inr (fetchOk_decided w.hashes hb hact)
        · exact Or.inl hf
      | spill => exact hi.turn (.of_eq rfl rfl rfl) (List.Subset.refl _) rfl trivial
      | nowhere =>
        exact hi.turn (.of_eq rfl rfl rfl) (List.Subset.refl _) rfl trivial

theorem laneInv_act (hi : LaneInv n mode s) (place : Place) (room : Bool)
    (h : laneStep n mode s (.act place room) = some t) : LaneInv n mode t := by
  have hdo := hi.doing
  cases hdoing : s.doing with
  | decided act w b =>
    rw [hdoing] at hdo
    obtain ⟨hact, hb⟩ := hdo
    simp only [laneStep, hdoing, Option.some.injEq] at h
    subst h
    cases act with
    | ignore => exact hi.turn (.of_eq rfl rfl rfl) (List.Subset.refl _) rfl trivial
    | fetch => exact laneInv_enqueue hi hb hact.symm place
    | conflict => exact laneInv_enqueue hi hb hact.symm place
    | adopt =>
      exact hi.turn (.of_write (s.fs.writerOk_adopt n w.fi) rfl rfl) (List.Subset.refl _) rfl trivial
    | delete =>
      rw [Lane.carryOut]
      split
      · exact hi.turn (.of_eq rfl rfl rfl) (List.Subset.refl _) rfl trivial
      · exact hi.turn (.of_eq rfl rfl rfl) (List.Subset.refl _) rfl hact.symm
  | _ => simp [laneStep, hdoing] at h

theorem laneInv_recheck (hi : LaneInv n mode s) (h : laneStep n mode s .recheck = some t) :
    LaneInv n mode t := by
  simp only [laneStep] at h
  split at h
  · rename_i m rest hdoing hdef
    split at h
    · rename_i hc
      rw [Option.some.injEq] at h
      subst h
      exact hi.turn (.of_eq rfl rfl rfl) (List.Subset.refl _) rfl hc
    · rw [Option.some.injEq] at h
      subst h
      exact hi.turn (.of_eq rfl rfl rfl) (List.Subset.refl _) rfl (hdoing ▸ trivial)
  · simp at h

theorem laneInv_removed (hi : LaneInv n mode s) (ok : Bool) (mem : UpsertMem)
    (h : laneStep n mode s (.removed ok mem) = some t) : LaneInv n mode t := by
  simp only [laneStep] at h
  split at h
  · rename_i m b hdoing
    rw [Option.some.injEq] at h
    subst h
    cases ok with
    | false => exact hi.turn (.of_eq rfl rfl rfl) (List.Subset.refl _) rfl trivial
    | true =>
      exact hi.turn (.of_write (s.fs.writerOk_store m [] mem) rfl rfl) (List.Subset.refl _) rfl trivial
  · simp at h

theorem laneInv_flagged (hi : LaneInv n mode s) (mem : UpsertMem)
    (h : laneStep n mode s (.flagged mem) = some t) : LaneInv n mode t := by
  simp only [laneStep] at h
  split at h
  · rename_i m b hdoing
    rw [Option.some.injEq] at h
    subst h
    exact hi.turn (.of_write (s.fs.writerOk_store (unstorableRecord m) [] mem) rfl rfl)
      (List.Subset.refl _) rfl trivial
  · simp at h

/-- What the decision wants is queued. -/
theorem LaneInv.queued (hi : LaneInv n mode s) (hidle : s.doing = .idle) {w : Wanted} (rest : List Wanted)
    {conflict : Bool}
    (hact : syncClassifyIncoming (s.record n) mode w.fi = if conflict then .conflict else .fetch) :
    LaneInv n mode { s with
      parked := rest
      want := ⟨⟨0, w.fi, w.hashes, conflict, 0⟩, s.record n⟩ :: s.want } := by
  have hdoing : ∀ t, DoingOk n mode t s.doing := fun t => hidle ▸ trivial
  refine hi.next (.of_eq rfl rfl rfl) (fun f hf => ?_) (fun _ hf => Or.inl hf) (hdoing _)
  rcases List.mem_cons.mp hf with rfl | hf
  · exact Or.inr (fetchOk_decided w.hashes (bounded_record s) hact)
  · exact Or.inl hf

theorem laneInv_refill (hi : LaneInv n mode s) (drop : Bool)
    (h : laneStep n mode s (.refill drop) = some t) : LaneInv n mode t := by
  simp only [laneStep] at h
  split at h
  · rename_i w rest hdoing hparked
    have hidle : DoingOk n mode t s.doing := hdoing ▸ trivial
    split at h
    · rw [Option.some.injEq] at h
      subst h
      exact hi.turn (.of_eq rfl rfl rfl) (List.Subset.refl _) rfl hidle
    · split at h
      · rename_i hc
        rw [Option.some.injEq] at h
        subst h
        exact hi.queued hdoing rest hc
      · rename_i hc
        rw [Option.some.injEq] at h
        subst h
        exact hi.queued hdoing rest hc
      · rw [Option.some.injEq] at h
        subst h
        exact hi.turn (.of_eq rfl rfl rfl) (List.Subset.refl _) rfl hidle
  · simp at h

theorem laneInv_start (hi : LaneInv n mode s) (gone : Bool)
    (h : laneStep n mode s (.start gone) = some t) : LaneInv n mode t := by
  simp only [laneStep] at h
  split at h
  · rename_i f rest hdoing hdl hwant
    have hrest : rest ⊆ s.want := hwant ▸ List.subset_cons_self f rest
    split at h
    · rw [Option.some.injEq] at h
      subst h
      exact hi.turn (.of_eq rfl rfl rfl) hrest rfl (hdoing ▸ trivial)
    · rw [Option.some.injEq] at h
      subst h
      have hf : FetchOk n mode s f := hi.want f (hwant ▸ List.mem_cons_self)
      have hl : Later s { s with want := rest, doing := .starting f } := .of_eq rfl rfl rfl
      exact hi.turn hl hrest rfl (hl.fetchOk hf)
  · simp at h

/-- A conflict that is not moved aside concerns a record that is no longer there. -/
theorem ready_of_unmoved {f : Fetch} (hf : FetchOk n mode s f)
    (hgone : ∀ r, s.record n = some r → r.deleted = true) : Ready n mode s f := by
  refine ⟨hf.bounded, ?_⟩
  rcases hf.decided with hd | ⟨hd, -⟩
  · exact Or.inl hd
  · refine Or.inr ⟨hd, fun r hr hrec => ?_⟩
    have hlive := live_of_conflict hd hr
    rw [hgone r hrec] at hlive
    exact absurd hlive (by simp)

theorem laneInv_fit (hi : LaneInv n mode s) (fits : Bool)
    (h : laneStep n mode s (.fit fits) = some t) : LaneInv n mode t := by
  have hdo := hi.doing
  have hl : ∀ d, Later s { s with doing := d } := fun d => .of_eq rfl rfl rfl
  simp only [laneStep] at h
  split at h
  · rename_i f hdoing
    rw [hdoing] at hdo
    split at h
    · rw [Option.some.injEq] at h
      subst h
      exact hi.turn (hl _) (List.Subset.refl _) rfl trivial
    · split at h
      · split at h
        · rename_i u hu
          have hrec : s.record n = some u.record := by
            rw [Lane.record, FolderState.record, hu, Option.map_some]
          split at h
          · rename_i hdel
            rw [Option.some.injEq] at h
            subst h
            refine hi.turn (hl _) (List.Subset.refl _) rfl ((hl _).ready (ready_of_unmoved hdo ?_))
            intro r hr
            rw [← Option.some.inj (hrec.symm.trans hr)]
            exact hdel
          · rw [Option.some.injEq] at h
            subst h
            refine hi.turn (hl _) (List.Subset.refl _) rfl ⟨(hl _).fetchOk hdo, fun r _ hr => ?_⟩
            exact (Option.some.inj (hrec.symm.trans hr)).symm
        · rename_i hu
          rw [Option.some.injEq] at h
          subst h
          refine hi.turn (hl _) (List.Subset.refl _) rfl ((hl _).ready (ready_of_unmoved hdo ?_))
          intro r hr
          rw [Lane.record, FolderState.record, hu] at hr
          exact absurd hr (by simp)
      · rename_i hc
        rw [Option.some.injEq] at h
        subst h
        refine hi.turn (hl _) (List.Subset.refl _) rfl ((hl _).ready ⟨hdo.bounded, ?_⟩)
        rcases hdo.decided with hd | ⟨hd, hm | hh⟩
        · exact Or.inl hd
        · exact absurd hm hc
        · exact Or.inr ⟨hd, hh⟩
  · simp at h

/-- The file is moved aside, or that fails; either way it is on the books. -/
theorem laneInv_moved (hi : LaneInv n mode s) (cn : Name) (granted : Bool) (stamp : Nat)
    (mem : UpsertMem) (h : laneStep n mode s (.moved cn granted stamp mem) = some t) :
    LaneInv n mode t := by
  have hdo := hi.doing
  simp only [laneStep] at h
  split at h
  · rename_i f held blocks hdoing
    rw [hdoing] at hdo
    obtain ⟨hf, hheld⟩ := hdo
    have hready : ∀ u : Lane, Later s u → Kept u held → Ready n mode u f := by
      intro u hl hk
      refine ⟨hl.bounded hf.bounded, ?_⟩
      rcases hf.decided with hd | ⟨hd, -⟩
      · exact Or.inl hd
      · refine Or.inr ⟨hd, fun r hr hrec => ?_⟩
        rw [hheld r hr (hl.record hf.bounded hr hrec)]
        exact hk
    split at h
    · simp at h
    · split at h
      · rw [Option.some.injEq] at h
        subst h
        have hl : Later s { s with
            fs := s.fs.store (conflictCopy held cn s.fs.shortId stamp 0) blocks mem
            doing := .opening f
            copies := conflictCopy held cn s.fs.shortId stamp 0 :: s.copies } :=
          ⟨s.fs.writerOk_store _ blocks mem, List.subset_cons_self .., List.Subset.refl _⟩
        exact hi.turn hl (List.Subset.refl _) rfl
          (hready _ hl (Or.inl ⟨_, List.mem_cons_self, rfl, rfl⟩))
      · rw [Option.some.injEq] at h
        subst h
        have hl : Later s { s with doing := .opening f, refused := held :: s.refused } :=
          ⟨FolderState.WriterOk.refl s.fs, List.Subset.refl _, List.subset_cons_self ..⟩
        exact hi.turn hl (List.Subset.refl _) rfl (hready _ hl (Or.inr List.mem_cons_self))
  · simp at h

theorem laneInv_opened (hi : LaneInv n mode s) (ok room : Bool)
    (h : laneStep n mode s (.opened ok room) = some t) : LaneInv n mode t := by
  have hdo := hi.doing
  simp only [laneStep] at h
  split at h
  · rename_i f hdoing
    rw [hdoing] at hdo
    have hnext : Ready n mode s ⟨{ f.want with attempts := f.want.attempts + 1 }, f.basis⟩ :=
      ⟨hdo.bounded, hdo.decided⟩
    split at h
    · rw [Option.some.injEq] at h
      subst h
      have hl : Later s { s with
          dl := some ⟨{ f.want with attempts := f.want.attempts + 1 }, f.basis⟩, doing := .idle } :=
        .of_eq rfl rfl rfl
      refine hi.next hl (fun _ hf => Or.inl hf) (fun g hg => Or.inr ?_) trivial
      rw [← Option.some.inj hg]
      exact hl.ready hnext
    · rw [Option.some.injEq] at h
      subst h
      have hl : Later s { s with
          want := requeue ⟨{ f.want with attempts := f.want.attempts + 1 }, f.basis⟩ true room s.want
          doing := .idle } := .of_eq rfl rfl rfl
      exact hi.next hl (fun g hg => Or.inr (hl.fetchOk (fetchOk_requeue hnext hi.want _ _ g hg)))
        (fun _ hf => Or.inl hf) trivial
  · simp at h

theorem laneInv_finish (hi : LaneInv n mode s) (ok retryable room : Bool) (mem : UpsertMem)
    (h : laneStep n mode s (.finish ok retryable room mem) = some t) : LaneInv n mode t := by
  simp only [laneStep] at h
  split at h
  · rename_i f hdoing hdl
    split at h
    · rw [Option.some.injEq] at h
      subst h
      exact hi.next (.of_write (s.fs.writerOk_store f.want.fi f.want.hashes mem) rfl rfl)
        (fun _ hf => Or.inl hf) (fun g hg => absurd hg (by simp)) (hdoing ▸ trivial)
    · rw [Option.some.injEq] at h
      subst h
      have hl : Later s { s with want := requeue f retryable room s.want, dl := none } :=
        .of_eq rfl rfl rfl
      exact hi.next hl (fun g hg => Or.inr (hl.fetchOk (fetchOk_requeue (hi.dl f hdl) hi.want _ _ g hg)))
        (fun g hg => absurd hg (by simp)) (hdoing ▸ trivial)
  · simp at h

/-- **Step.** -/
theorem laneInv_step (hi : LaneInv n mode s) (e : LaneEvent) (h : laneStep n mode s e = some t) :
    LaneInv n mode t := by
  cases e with
  | write w =>
    rw [laneStep, Option.some.injEq] at h
    subst h
    have hl : Later s { s with fs := s.fs.write w } := .of_write (s.fs.writerOk_write w) rfl rfl
    exact hi.turn hl (List.Subset.refl _) rfl (hl.doing hi.doing)
  | index w =>
    rw [laneStep] at h
    split at h
    · rw [Option.some.injEq] at h
      subst h
      exact hi.turn (.of_eq rfl rfl rfl) (List.Subset.refl _) rfl ⟨rfl, bounded_record s⟩
    · simp at h
  | act place room => exact laneInv_act hi place room h
  | recheck => exact laneInv_recheck hi h
  | removed ok mem => exact laneInv_removed hi ok mem h
  | flagged mem => exact laneInv_flagged hi mem h
  | refill drop => exact laneInv_refill hi drop h
  | start gone => exact laneInv_start hi gone h
  | fit fits => exact laneInv_fit hi fits h
  | moved cn granted stamp mem => exact laneInv_moved hi cn granted stamp mem h
  | opened ok room => exact laneInv_opened hi ok room h
  | finish ok retryable room mem => exact laneInv_finish hi ok retryable room mem h
  | abort room =>
    simp only [laneStep] at h
    split at h
    · rename_i f hdoing hdl
      rw [Option.some.injEq] at h
      subst h
      have hl : Later s { s with want := requeue f true room s.want, dl := none } :=
        .of_eq rfl rfl rfl
      exact hi.next hl (fun g hg => Or.inr (hl.fetchOk (fetchOk_requeue (hi.dl f hdl) hi.want _ _ g hg)))
        (fun g hg => absurd hg (by simp)) (hdoing ▸ trivial)
    · simp at h

end Steps

/-! ## What a worker replaces -/

def LaneEvent.isWorker : LaneEvent → Bool
  | .write _ => false
  | _ => true

/-- The record that the worker's next lock section was decided on. -/
def Lane.basis (s : Lane) : Option SyncMeta :=
  match s.doing with
  | .idle => s.dl.bind Fetch.basis
  | .decided _ _ b | .deleting _ b | .flagging _ b => b
  | .starting _ | .moving _ _ _ | .opening _ => none

/-- The new record equals or dominates the old one; or there was nothing in the old one to
lose, or it was kept, as far as that was possible; or there are no vectors to go by. -/
def Keeps (s : Lane) (old new : SyncMeta) : Prop :=
  syncVersionCompare old.version new.version = .equal ∨
    syncVersionCompare old.version new.version = .theirs ∨
    haveVectors old new = false ∨ old.deleted = true ∨ syncContentSame old new = true ∨
    new.invalid = true ∨ Kept s old

/-- A store that changes a record of the name puts its own there. -/
theorem record_store {fs : FolderState} {m o r : SyncMeta} {blocks : List Hash} {mem : UpsertMem}
    (hr : (fs.store m blocks mem).record n = some r) (ho : fs.record n = some o) (hne : r ≠ o) :
    r = { m with sequence := fs.sequence + 1 } := by
  obtain ⟨u, hu, rfl⟩ := Option.map_eq_some_iff.mp hr
  by_cases hn : n = m.name
  · subst hn
    rw [fs.eq_slotFor_of_find hu]
    rfl
  · have hsame : fs.find n = some u := (fs.find_store_of_ne hn blocks mem).symm.trans hu
    rw [FolderState.record, hsame, Option.map_some, Option.some.injEq] at ho
    exact absurd ho hne

section Replace
variable {s t : Lane} {o r : SyncMeta}

theorem keeps_adopt (w : Wanted) (hact : syncClassifyIncoming (some o) mode w.fi = .adopt)
    (ho : s.record n = some o) (hr : (s.fs.adopt n w.fi).record n = some r) (hne : r ≠ o) :
    Keeps s o r := by
  obtain ⟨u, hu, rfl⟩ := Option.map_eq_some_iff.mp ho
  have hv := verdict_classify u.record w.fi mode
  rw [hact] at hv
  cases hv with
  | adopt live same =>
    unfold FolderState.adopt at hr
    rw [hu] at hr
    simp only [live, Bool.false_eq_true, ↓reduceIte] at hr
    have hrec := record_store hr ho hne
    obtain ⟨-, c, hc, -⟩ := (syncContentSame_iff _ _).mp same
    refine Or.inr (Or.inr (Or.inr (Or.inr (Or.inl ?_))))
    rw [hrec, syncContentSame_iff]
    exact ⟨rfl, c, hc, hc⟩

theorem keeps_delete (m : SyncMeta) (mem : UpsertMem)
    (hact : syncClassifyIncoming (some o) mode m = .delete) (ho : s.record n = some o)
    (hr : (s.fs.store m [] mem).record n = some r) (hne : r ≠ o) : Keeps s o r := by
  have hrec := record_store hr ho hne
  have hv := verdict_classify o m mode
  rw [hact] at hv
  subst hrec
  cases hv with
  | delete _ rel =>
    rcases rel with hnov | htheirs
    · exact Or.inr (Or.inr (Or.inl hnov))
    · exact Or.inr (Or.inl htheirs)

theorem keeps_finish {f : Fetch} (mem : UpsertMem) (hf : Ready n mode s f)
    (hb : f.basis = some o) (ho : s.record n = some o)
    (hr : (s.fs.store f.want.fi f.want.hashes mem).record n = some r) (hne : r ≠ o) :
    Keeps s o r := by
  have hrec := record_store hr ho hne
  subst hrec
  rcases hf.decided with hd | ⟨-, hh⟩
  · rw [hb] at hd
    have hv := verdict_classify o f.want.fi mode
    rw [hd] at hv
    cases hv with
    | fetch _ rel =>
      rcases rel with hnov | htheirs | hdel
      · exact Or.inr (Or.inr (Or.inl hnov))
      · exact Or.inr (Or.inl htheirs)
      · exact Or.inr (Or.inr (Or.inr (Or.inl hdel)))
  · exact Or.inr (Or.inr (Or.inr (Or.inr (Or.inr (Or.inr (hh o hb ho))))))

end Replace

/-- **Writes.** What a lock section of the worker can do to the index. -/
theorem laneStep_fs {s t : Lane} {e : LaneEvent} (he : e.isWorker = true)
    (h : laneStep n mode s e = some t) :
    (t.fs = s.fs ∨ ∃ m blocks mem, m.name ≠ n ∧ t.fs = s.fs.store m blocks mem) ∨
    (∃ w b, s.doing = .decided .adopt w b ∧ t.fs = s.fs.adopt n w.fi) ∨
    (∃ m b mem, s.doing = .deleting m b ∧ t.fs = s.fs.store m [] mem) ∨
    (∃ m mem, t.fs = s.fs.store (unstorableRecord m) [] mem) ∨
    (∃ f mem, s.doing = .idle ∧ s.dl = some f ∧
      t.fs = s.fs.store f.want.fi f.want.hashes mem) := by
  cases e with
  | write w => simp [LaneEvent.isWorker] at he
  | act place room =>
    cases hdoing : s.doing with
    | decided act w b =>
      simp only [laneStep, hdoing, Option.some.injEq] at h
      subst h
      have henq : ∀ conflict, (s.enqueue w conflict b place).fs = s.fs := by
        intro conflict
        unfold Lane.enqueue
        repeat' split
        all_goals rfl
      cases act with
      | ignore => exact Or.inl (Or.inl rfl)
      | fetch => exact Or.inl (Or.inl (henq false))
      | conflict => exact Or.inl (Or.inl (henq true))
      | adopt => exact Or.inr (Or.inl ⟨w, b, rfl, rfl⟩)
      | delete =>
        refine Or.inl (Or.inl ?_)
        rw [Lane.carryOut]
        split <;> rfl
    | _ => simp [laneStep, hdoing] at h
  | removed ok mem =>
    cases hdoing : s.doing with
    | deleting m b =>
      simp only [laneStep, hdoing, Option.some.injEq] at h
      subst h
      cases ok with
      | false => exact Or.inl (Or.inl rfl)
      | true => exact Or.inr (Or.inr (Or.inl ⟨m, b, mem, rfl, rfl⟩))
    | _ => simp [laneStep, hdoing] at h
  | flagged mem =>
    cases hdoing : s.doing with
    | flagging m b =>
      simp only [laneStep, hdoing, Option.some.injEq] at h
      subst h
      exact Or.inr (Or.inr (Or.inr (Or.inl ⟨m, mem, rfl⟩)))
    | _ => simp [laneStep, hdoing] at h
  | finish ok retryable room mem =>
    simp only [laneStep] at h
    split at h
    · rename_i f hdoing hdl
      split at h
      · rw [Option.some.injEq] at h
        subst h
        exact Or.inr (Or.inr (Or.inr (Or.inr ⟨f, mem, hdoing, hdl, rfl⟩)))
      · rw [Option.some.injEq] at h
        subst h
        exact Or.inl (Or.inl rfl)
    · simp at h
  | moved cn granted stamp mem =>
    simp only [laneStep] at h
    split at h
    · split at h
      · simp at h
      · rename_i hcn
        split at h
        · rw [Option.some.injEq] at h
          subst h
          exact Or.inl (Or.inr ⟨_, _, mem, hcn, rfl⟩)
        · rw [Option.some.injEq] at h
          subst h
          exact Or.inl (Or.inl rfl)
    · simp at h
  | _ =>
    refine Or.inl (Or.inl ?_)
    simp only [laneStep] at h
    repeat' split at h
    all_goals first
      | (rw [Option.some.injEq] at h
         rw [← h])
      | simp at h

/-- **Nothing is lost on the way.** In every interleaving of the worker's lock sections for a
name with any writes of others, whenever a lock section replaces the record it was decided on,
the new record keeps the old one. -/
theorem replaced_keeps (n : Name) (mode : FolderMode) (fs : FolderState) (es : List LaneEvent)
    (s t : Lane) (hrun : Machine.run (laneStep n mode) (Lane.start fs) es = some s)
    (e : LaneEvent) (he : e.isWorker = true) (hstep : laneStep n mode s e = some t)
    (o r : SyncMeta) (ho : s.record n = some o) (hr : t.record n = some r) (hne : r ≠ o)
    (hbasis : s.basis = some o) : Keeps s o r := by
  have hi : LaneInv n mode s := Machine.run_inv (fun s e t hs h => laneInv_step hs e h) hrun
    ⟨fun f hf => absurd hf List.not_mem_nil, fun f hf => absurd hf (by simp [Lane.start]), trivial⟩
  have hdo := hi.doing
  rw [Lane.record] at hr
  rcases laneStep_fs he hstep with (hfs | ⟨m, blocks, mem, hn, hfs⟩) | ⟨w, b, hdoing, hfs⟩ |
    ⟨m, b, mem, hdoing, hfs⟩ | ⟨m, mem, hfs⟩ | ⟨f, mem, hdoing, hdl, hfs⟩
  · rw [hfs] at hr
    exact absurd (Option.some.inj (hr.symm.trans ho)) hne
  · have hsame : t.fs.record n = s.fs.record n := by
      rw [hfs, FolderState.record, s.fs.find_store_of_ne (Ne.symm hn) blocks mem]
      rfl
    exact absurd (Option.some.inj (hr.symm.trans (hsame.trans ho))) hne
  · rw [hdoing] at hdo
    rw [Lane.basis, hdoing] at hbasis
    dsimp only at hbasis
    subst hbasis
    rw [hfs] at hr
    exact keeps_adopt w hdo.1.symm ho hr hne
  · rw [hdoing] at hdo
    rw [Lane.basis, hdoing] at hbasis
    dsimp only at hbasis
    subst hbasis
    rw [hfs] at hr
    exact keeps_delete m mem hdo ho hr hne
  · rw [hfs] at hr
    rw [record_store hr ho hne]
    exact Or.inr (Or.inr (Or.inr (Or.inr (Or.inr (Or.inl rfl)))))
  · rw [Lane.basis, hdoing] at hbasis
    simp only [hdl, Option.bind_some] at hbasis
    rw [hfs] at hr
    exact keeps_finish mem (hi.dl f hdl) hbasis ho hr hne

/-! ### Records that are replaced by others than newer ones -/

/-- Our record of the file `x`. -/
def laneRecord (deleted : Bool) : SyncMeta :=
  { SyncMeta.zero [120] with
    size := 1
    modifiedS := 100
    blockSize := 131072
    contentHash := if deleted then none else some (sampleHash 7)
    version := BepVector.single 1 1
    deleted := deleted }

def laneIndex (deleted : Bool) : FolderState :=
  (FolderState.empty 1).store (laneRecord deleted) [] ⟨true, true⟩

/-- The peer's record of it. -/
def laneOffer (modifiedS blockSize : Int) (content : UInt8) (version : BepVector) : Wanted where
  fi := { SyncMeta.zero [120] with
    size := 1
    modifiedS := modifiedS
    blockSize := blockSize
    contentHash := some (sampleHash content)
    version := version }
  hashes := [sampleHash 3]

/-- The worker fetches what it is offered; a file that has to be moved aside cannot be. -/
def fetchEvents (w : Wanted) : List LaneEvent :=
  [.index w, .act .queue true, .start false, .fit true, .opened true true]

def refusedEvents (w : Wanted) : List LaneEvent :=
  [.index w, .act .queue true, .start false, .fit true, .moved [121] false 0 ⟨true, true⟩,
    .opened true true]

/-- A lock section of the worker replaces the record it was decided on by one that neither
equals nor dominates it, and there is no conflict copy. -/
def Overrides (fs : FolderState) (es : List LaneEvent) (e : LaneEvent) : Prop :=
  ∃ s t o r, Machine.run (laneStep [120] .sendReceive) (Lane.start fs) es = some s ∧
    e.isWorker = true ∧ laneStep [120] .sendReceive s e = some t ∧ s.record [120] = some o ∧
    t.record [120] = some r ∧ r ≠ o ∧ s.basis = some o ∧
    syncVersionCompare o.version r.version ≠ .equal ∧
    syncVersionCompare o.version r.version ≠ .theirs ∧ s.copies = []

/-- Concurrent records of the same content, a concurrent tombstone, a peer without a vector, a
conflict whose losing file cannot be renamed, and one whose winner cannot be stored. -/
theorem replaced_concurrent :
    Overrides (laneIndex false) [.index (laneOffer 100 131072 7 (BepVector.single 2 5))]
      (.act .queue true) ∧
    Overrides (laneIndex true) (fetchEvents (laneOffer 200 131072 8 (BepVector.single 2 5)))
      (.finish true true true ⟨true, true⟩) ∧
    Overrides (laneIndex false) (fetchEvents (laneOffer 200 131072 8 BepVector.empty))
      (.finish true true true ⟨true, true⟩) ∧
    Overrides (laneIndex false) (refusedEvents (laneOffer 200 131072 8 (BepVector.single 2 5)))
      (.finish true true true ⟨true, true⟩) ∧
    Overrides (laneIndex false)
      [.index (laneOffer 200 2097152 8 (BepVector.single 2 5)), .act .queue true]
      (.flagged ⟨true, true⟩) :=
  ⟨⟨_, _, _, _, rfl, rfl, rfl, rfl, rfl, by decide, rfl, by decide, by decide, rfl⟩,
    ⟨_, _, _, _, rfl, rfl, rfl, rfl, rfl, by decide, rfl, by decide, by decide, rfl⟩,
    ⟨_, _, _, _, rfl, rfl, rfl, rfl, rfl, by decide, rfl, by decide, by decide, rfl⟩,
    ⟨_, _, _, _, rfl, rfl, rfl, rfl, rfl, by decide, rfl, by decide, by decide, rfl⟩,
    ⟨_, _, _, _, rfl, rfl, rfl, rfl, rfl, by decide, rfl, by decide, by decide, rfl⟩⟩

/-- The peer's next version replaces ours, and keeps it. -/
theorem replaced_newer : ∃ s o r, s.record [120] = some o ∧ r.version = ⟨[⟨1, 1⟩, ⟨2, 5⟩], by decide⟩ ∧
    Keeps s o r :=
  ⟨_, _, _, rfl, rfl, replaced_keeps [120] .sendReceive (laneIndex false)
    (fetchEvents (laneOffer 200 131072 8 ⟨[⟨1, 1⟩, ⟨2, 5⟩], by decide⟩)) _ _ rfl
    (.finish true true true ⟨true, true⟩) rfl rfl _ _ rfl rfl (by decide) rfl⟩

end Amisync

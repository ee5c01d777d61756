import Amisync.Claims

/-!
# An Index of one folder and the transfer of another (`handle_index`)

The worker has one transfer, one claim and one queue for all its folders.
`handle_index` is given here with all of them, branch by branch; what it does to
the rest of the session is as in `Session`.

* `Worker`: a session with the window of its transfer and its claim.
* `session_loop`: without those the loop is that of `Session`.
* `Kept`, `kept_enqueue`, `kept_carryOut`: what leaves the transfer and the queue of another folder alone.
* `handleIndex_undisturbed_iff`: when a whole message does.
-/

namespace Amisync.Neighbours

open Claims (ClaimTable)

/-- `claimFidx` is the folder of the claim the worker holds; the tables are shared. -/
structure Worker (W : Type*) where
  me : W
  session : Session
  download : Download
  claimFidx : Option FolderIdx
  claims : FolderIdx → ClaimTable W

abbrev Entry := Wanted × Session.Answers × List (Nat × Bool × Session.Answers)

/-! ## The handler -/

namespace Worker

variable {W : Type*} [DecidableEq W]

def releaseClaim (s : Worker W) : Worker W :=
  match s.claimFidx with
  | none => s
  | some f =>
    { s with claims := Function.update s.claims f ((s.claims f).unclaim s.me), claimFidx := none }

/-- The window is closed, the claim given back, and the file queued again. -/
def abortDownload (s : Worker W) : Worker W :=
  let s := { s with download := s.download.abort }.releaseClaim
  { s with session := s.session.abortDownload }

/-- A deletion that is not applied. The transfer is looked up by its name alone. -/
def noteGone (s : Worker W) (f : FolderIdx) (n : Name) : Worker W :=
  let s := if s.session.dl.any (fun w => w.name = n) then s.abortDownload else s
  { s with session := s.session.addGone f n }

def handleFile (cfg : Setup) (s : Worker W) (f : FolderIdx) (w : Wanted) (a : Session.Answers) :
    Worker W × Bool :=
  let act := syncClassifyIncoming (s.session.record (f, w.fi.name)) (cfg.mode f) w.fi
  let gone := hsetDrop (s.session.gone f) w.fi.name
  let s := if w.fi.deleted then s
    else { s with session := { s.session with gone := Function.update s.session.gone f gone } }
  let s := if w.fi.deleted && act ≠ .delete then s.noteGone f w.fi.name else s
  let r := s.session.carryOut f w a act
  ({ s with session := r.1 }, r.2)

/-- One round of the loop. -/
def handleRecord (cfg : Setup) (s : Worker W) (f : FolderIdx) (e : Entry) : Worker W × Bool :=
  let w := e.1
  if w.fi.invalid then (s, true)
  else if !pathNameSafe w.fi.name then (s, true)
  else
    let s := { s with session := s.session.stallClear (f, w.fi.name) }
    if w.fi.type = .directory then
      ({ s with session := s.session.handleDir cfg f w.fi e.2.1 e.2.2 }, true)
    else if w.fi.type ≠ .file then (s, true)
    else if !w.fi.deleted && cfg.ign f w.fi.name then (s, true)
    else s.handleFile cfg f (w.withContent cfg.sha) e.2.1

def receive (cfg : Setup) (s : Worker W) (f : FolderIdx) (e : Entry) : Worker W × Bool :=
  let r := s.handleRecord cfg f e
  let k : Key := (f, e.1.fi.name)
  ({ r.1 with session := r.1.session.note k (e.1.withContent cfg.sha) (s.session.waiting k) }, r.2)

def loop (cfg : Setup) (f : FolderIdx) : Worker W → List Entry → Worker W
  | s, [] => s
  | s, e :: rest =>
    let r := s.receive cfg f e
    if r.2 then loop cfg f r.1 rest else r.1

/-- What comes after the loop: parked deletions of any folder, then those of the list. -/
structure Rest where
  drains : List (FolderIdx × Bool × Session.Answers)
  picks : List (Nat × Bool × Session.Answers)

def handleIndex (cfg : Setup) (s : Worker W) (f : FolderIdx) (entries : List Entry) (rest : Rest) :
    Worker W :=
  let s := loop cfg f s entries
  let drained := rest.drains.foldl (fun t d => t.drainOne cfg d.1 d.2.1 d.2.2) s.session
  { s with session := drained.flushDeferred cfg rest.picks }

end Worker

/-! ## Without window and claim -/

section Refines
variable {W : Type*} [DecidableEq W] (cfg : Setup) (s : Worker W) (f : FolderIdx)

theorem session_abortDownload : s.abortDownload.session = s.session.abortDownload := by
  unfold Worker.abortDownload Worker.releaseClaim
  dsimp only
  split <;> rfl

theorem session_noteGone (n : Name) : (s.noteGone f n).session = s.session.noteGone f n := by
  unfold Worker.noteGone Session.noteGone
  dsimp only
  split
  · rw [session_abortDownload]
  · rfl

theorem session_handleFile (w : Wanted) (a : Session.Answers) :
    (s.handleFile cfg f w a).1.session = (s.session.handleFile cfg f w a).1 ∧
      (s.handleFile cfg f w a).2 = (s.session.handleFile cfg f w a).2 := by
  unfold Worker.handleFile Session.handleFile
  cases hdel : w.fi.deleted with
  | false => simp
  | true =>
    simp only [if_true, Bool.true_and, decide_eq_true_eq]
    by_cases hact : syncClassifyIncoming (s.session.record (f, w.fi.name)) (cfg.mode f) w.fi = .delete
    · simp [hact]
    · simp [hact, session_noteGone]

theorem session_handleRecord (e : Entry) :
    (s.handleRecord cfg f e).1.session = (s.session.handleRecord cfg f e.1 e.2.1 e.2.2).1 ∧
      (s.handleRecord cfg f e).2 = (s.session.handleRecord cfg f e.1 e.2.1 e.2.2).2 := by
  unfold Worker.handleRecord Session.handleRecord
  dsimp only
  split
  · exact ⟨rfl, rfl⟩
  · split
    · exact ⟨rfl, rfl⟩
    · split
      · exact ⟨rfl, rfl⟩
      · split
        · exact ⟨rfl, rfl⟩
        · split
          · exact ⟨rfl, rfl⟩
          · exact session_handleFile cfg _ f _ e.2.1

theorem session_receive (e : Entry) :
    (s.receive cfg f e).1.session = (s.session.receive cfg f e.1 e.2.1 e.2.2).1 ∧
      (s.receive cfg f e).2 = (s.session.receive cfg f e.1 e.2.1 e.2.2).2 := by
  obtain ⟨hsession, hmore⟩ := session_handleRecord cfg s f e
  unfold Worker.receive Session.receive
  dsimp only
  rw [hsession]
  exact ⟨rfl, hmore⟩

/-- The loop of `Session` is this one, seen without window and claim. -/
theorem session_loop (entries : List Entry) :
    (s.loop cfg f entries).session = s.session.handleIndex cfg f entries := by
  induction entries generalizing s with
  | nil => rfl
  | cons e rest ih =>
    obtain ⟨hsession, hmore⟩ := session_receive cfg s f e
    obtain ⟨w, a, picks⟩ := e
    rw [Worker.loop, Session.handleIndex]
    dsimp only at hsession hmore ⊢
    rw [hmore]
    split
    · rw [ih, hsession]
    · exact hsession

end Refines

/-! ## What leaves transfer and queue alone -/

/-- Neither the transfer nor the queue is touched. -/
def Same (s t : Session) : Prop := t.dl = s.dl ∧ t.want = s.want

/-- The transfer is not touched, nor what folder `g` has in the queue. -/
def Kept (g : FolderIdx) (s t : Session) : Prop :=
  t.dl = s.dl ∧ t.want.filter (fun w => w.folderIdx = g) = s.want.filter fun w => w.folderIdx = g

section Sessions
variable {s t u : Session} {g : FolderIdx}

theorem Same.refl (s : Session) : Same s s := ⟨rfl, rfl⟩

theorem Same.trans (h : Same s t) (h' : Same t u) : Same s u :=
  ⟨h'.1.trans h.1, h'.2.trans h.2⟩

theorem Same.kept (h : Same s t) : Kept g s t := ⟨h.1, by rw [h.2]⟩

theorem Kept.trans (h : Kept g s t) (h' : Kept g t u) : Kept g s u :=
  ⟨h'.1.trans h.1, h'.2.trans h.2⟩

theorem same_stallAdd (s : Session) (k : Key) : Same s (s.stallAdd k) := by
  unfold Session.stallAdd
  split
  · exact Same.refl s
  · split <;> exact ⟨rfl, rfl⟩

theorem same_addGone (s : Session) (f : FolderIdx) (n : Name) : Same s (s.addGone f n) := by
  unfold Session.addGone
  dsimp only
  split <;> exact ⟨rfl, rfl⟩

theorem same_applyPeerDir (s : Session) (f : FolderIdx) (d : SyncMeta) (a : Session.Answers) :
    Same s (s.applyPeerDir f d a) := by
  unfold Session.applyPeerDir
  split
  · exact Same.refl s
  · split
    · exact same_stallAdd s _
    · split <;> exact ⟨rfl, rfl⟩

theorem same_applyPeerDelete (s : Session) (f : FolderIdx) (m : SyncMeta) (a : Session.Answers) :
    Same s (s.applyPeerDelete f m a) := by
  unfold Session.applyPeerDelete
  split <;> exact ⟨rfl, rfl⟩

theorem same_applyPeerDirDelete (s : Session) (f : FolderIdx) (d : SyncMeta) (a : Session.Answers) :
    Same s (s.applyPeerDirDelete f d a).1 := by
  unfold Session.applyPeerDirDelete
  split
  · exact Same.refl s
  · split <;> exact ⟨rfl, rfl⟩

theorem same_deferPush {f : FolderIdx} {m : SyncMeta} (h : s.deferPush f m = some t) : Same s t := by
  unfold Session.deferPush at h
  split at h
  · simp at h
  · obtain rfl := Option.some.inj h
    exact ⟨rfl, rfl⟩

theorem same_applyDeferred (cfg : Setup) (s : Session) (f : FolderIdx) (m : SyncMeta)
    (a : Session.Answers) : Same s (s.applyDeferred cfg f m a).1 := by
  unfold Session.applyDeferred
  split
  · exact same_applyPeerDirDelete s f m a
  · split
    · exact same_applyPeerDelete s f m a
    · exact Same.refl s

theorem same_flushOne (cfg : Setup) (s : Session) (i : Nat) (giveUp : Bool) (a : Session.Answers) :
    Same s (s.flushOne cfg i giveUp a) := by
  unfold Session.flushOne
  split
  · exact Same.refl s
  · rename_i f m hm
    have h := same_applyDeferred cfg s f m a
    dsimp only
    split
    · exact h.trans ⟨rfl, rfl⟩
    · exact h

theorem same_flushDeferred (cfg : Setup) (s : Session) (picks : List (Nat × Bool × Session.Answers)) :
    Same s (s.flushDeferred cfg picks) := by
  unfold Session.flushDeferred
  induction picks generalizing s with
  | nil => exact Same.refl s
  | cons p picks ih => exact (same_flushOne cfg s p.1 p.2.1 p.2.2).trans (ih _)

theorem same_drainOne (cfg : Setup) (s : Session) (f : FolderIdx) (readable : Bool)
    (a : Session.Answers) : Same s (s.drainOne cfg f readable a) := by
  unfold Session.drainOne
  split
  · exact Same.refl s
  · rename_i m rest hrest
    split
    · exact ⟨rfl, rfl⟩
    · generalize hs : ({ s with spillDel := Function.update s.spillDel f rest } : Session) = s₁
      have h₁ : Same s s₁ := hs ▸ ⟨rfl, rfl⟩
      have h := h₁.trans (same_applyDeferred cfg s₁ f m a)
      dsimp only
      split
      · exact h
      · cases hp : (s₁.applyDeferred cfg f m a).1.deferPush f m with
        | none => exact h
        | some t => exact h.trans (same_deferPush hp)

theorem same_drains (cfg : Setup) (s : Session) (drains : List (FolderIdx × Bool × Session.Answers)) :
    Same s (drains.foldl (fun t d => t.drainOne cfg d.1 d.2.1 d.2.2) s) := by
  induction drains generalizing s with
  | nil => exact Same.refl s
  | cons d drains ih => exact (same_drainOne cfg s d.1 d.2.1 d.2.2).trans (ih _)

theorem same_handleDir (cfg : Setup) (s : Session) (f : FolderIdx) (d : SyncMeta) (a : Session.Answers)
    (picks : List (Nat × Bool × Session.Answers)) : Same s (s.handleDir cfg f d a picks) := by
  unfold Session.handleDir
  split
  · exact Same.refl s
  · split
    · exact same_applyPeerDir s f d a
    · split
      · rename_i t ht
        exact same_deferPush ht
      · have hflush := same_flushDeferred cfg s picks
        dsimp only
        split
        · rename_i t ht
          exact hflush.trans (same_deferPush ht)
        · split
          · exact hflush.trans ⟨rfl, rfl⟩
          · exact (hflush.trans ⟨rfl, rfl⟩).trans (same_applyPeerDirDelete _ f d a)

/-- What is queued for one folder is not queued for another. -/
theorem kept_enqueue {f : FolderIdx} (hfg : f ≠ g) (s : Session) (w : Wanted) (conflict : Bool)
    (a : Session.Answers) : Kept g s (s.enqueue f w conflict a).1 := by
  unfold Session.enqueue
  split
  · exact (Same.refl s).kept
  · split
    · exact ⟨rfl, rfl⟩
    · split
      · rename_i q hq
        have hcons : q = ⟨f, w.fi, w.hashes, conflict, 0⟩ :: s.want := by
          unfold syncWantPushAgain at hq
          split at hq
          · simp at hq
          · split at hq
            · simp at hq
            · exact (Option.some.inj hq).symm
        refine ⟨rfl, ?_⟩
        dsimp only
        rw [hcons, List.filter_cons_of_neg (by simpa using hfg)]
      · split <;> exact ⟨rfl, rfl⟩

theorem kept_carryOut {f : FolderIdx} (hfg : f ≠ g) (s : Session) (w : Wanted) (a : Session.Answers)
    (act : SyncAction) : Kept g s (s.carryOut f w a act).1 := by
  cases act with
  | ignore => exact (Same.refl s).kept
  | adopt => exact ⟨rfl, rfl⟩
  | delete =>
    unfold Session.carryOut
    dsimp only
    split
    · rename_i t ht
      exact (same_deferPush ht).kept
    · split
      · exact ⟨rfl, rfl⟩
      · exact (Same.trans ⟨rfl, rfl⟩ (same_applyPeerDelete _ f w.fi a)).kept
  | fetch => exact kept_enqueue hfg s w false a
  | conflict => exact kept_enqueue hfg s w true a

end Sessions

/-! ## One entry -/

section Workers
variable {W : Type*} {s t u : Worker W} {f g : FolderIdx} {d : WantFile}

/-- The transfer goes on as it was, under its claim, and the queue of its folder is as it was. -/
def Undisturbed (g : FolderIdx) (s t : Worker W) : Prop :=
  Kept g s.session t.session ∧ t.download = s.download ∧ t.claimFidx = s.claimFidx ∧ t.claims = s.claims

theorem Undisturbed.trans (h : Undisturbed g s t) (h' : Undisturbed g t u) : Undisturbed g s u :=
  ⟨h.1.trans h'.1, h'.2.1.trans h.2.1, h'.2.2.1.trans h.2.2.1, h'.2.2.2.trans h.2.2.2⟩

variable [DecidableEq W]

/-- The handler comes to the line that drops the transfer: a file of its name is deleted and our
record is not the one that goes. -/
def Hits (cfg : Setup) (s : Worker W) (f : FolderIdx) (d : WantFile) (e : Entry) : Prop :=
  e.1.fi.invalid = false ∧ pathNameSafe e.1.fi.name = true ∧ e.1.fi.type = .file ∧
    e.1.fi.deleted = true ∧ e.1.fi.name = d.name ∧
    syncClassifyIncoming (s.session.record (f, e.1.fi.name)) (cfg.mode f) e.1.fi ≠ .delete

instance (cfg : Setup) (s : Worker W) (f : FolderIdx) (d : WantFile) (e : Entry) :
    Decidable (Hits cfg s f d e) := inferInstanceAs (Decidable (_ ∧ _))

theorem dl_requeueDownload (s : Session) (w : WantFile) (retryable : Bool) :
    (s.requeueDownload w retryable).dl = s.dl := by
  unfold Session.requeueDownload
  split
  · split
    · rfl
    · exact (same_stallAdd s _).1
  · exact (same_stallAdd s _).1

theorem dl_abortDownload (s : Worker W) : s.abortDownload.session.dl = none := by
  unfold Worker.abortDownload
  generalize ({ s with download := s.download.abort } : Worker W).releaseClaim = s₁
  dsimp only
  unfold Session.abortDownload
  split
  · assumption
  · exact dl_requeueDownload _ _ _

theorem withContent_deleted (sha : Bytes → Hash) (w : Wanted) :
    (w.withContent sha).fi.deleted = w.fi.deleted ∧
      (w.fi.deleted = true → w.withContent sha = w) := by
  unfold Wanted.withContent
  split
  · rename_i h
    refine ⟨rfl, ?_⟩
    intro hd
    simp [hd] at h
  · exact ⟨rfl, fun _ => rfl⟩

/-- The name of the transfer, deleted: it is dropped. -/
theorem dl_handleFile_of_hit (cfg : Setup) (w : Wanted) (a : Session.Answers)
    (hd : s.session.dl = some d) (hdel : w.fi.deleted = true) (hname : w.fi.name = d.name)
    (hact : syncClassifyIncoming (s.session.record (f, w.fi.name)) (cfg.mode f) w.fi ≠ .delete)
    (hfg : f ≠ g) : (s.handleFile cfg f w a).1.session.dl = none := by
  have hany : s.session.dl.any (fun x => x.name = w.fi.name) = true := by
    rw [hd]
    simp [hname]
  have hgone : (s.noteGone f w.fi.name).session.dl = none := by
    unfold Worker.noteGone
    rw [if_pos hany]
    exact (same_addGone _ f w.fi.name).1.trans (dl_abortDownload s)
  unfold Worker.handleFile
  simp only [hdel, if_true, Bool.true_and, decide_eq_true hact]
  exact (kept_carryOut hfg _ w a _).1.trans hgone

/-- Any other name, and any record that is not such a deletion: the transfer goes on. -/
theorem undisturbed_handleFile (cfg : Setup) (w : Wanted) (a : Session.Answers)
    (hmiss : w.fi.deleted = true →
      syncClassifyIncoming (s.session.record (f, w.fi.name)) (cfg.mode f) w.fi ≠ .delete →
      s.session.dl.any (fun x => x.name = w.fi.name) = false)
    (hfg : f ≠ g) : Undisturbed g s (s.handleFile cfg f w a).1 := by
  unfold Worker.handleFile
  cases hdel : w.fi.deleted with
  | false =>
    simp only [Bool.false_and, Bool.false_eq_true, if_false]
    exact ⟨Kept.trans ⟨rfl, rfl⟩ (kept_carryOut hfg _ w a _), rfl, rfl, rfl⟩
  | true =>
    by_cases hact : syncClassifyIncoming (s.session.record (f, w.fi.name)) (cfg.mode f) w.fi = .delete
    · simp only [hact, ne_eq, not_true_eq_false, decide_false, Bool.and_false, Bool.false_eq_true,
        if_false, if_true]
      exact ⟨kept_carryOut hfg _ w a _, rfl, rfl, rfl⟩
    · simp only [hact, ne_eq, not_false_eq_true, decide_true, Bool.and_self, if_true]
      have hgone : Undisturbed g s (s.noteGone f w.fi.name) := by
        unfold Worker.noteGone
        rw [hmiss hdel hact]
        exact ⟨(same_addGone _ f w.fi.name).kept, rfl, rfl, rfl⟩
      exact hgone.trans ⟨kept_carryOut hfg _ w a _, rfl, rfl, rfl⟩

/-- **Entry.** What does not hit the transfer leaves it alone. -/
theorem undisturbed_receive (cfg : Setup) (e : Entry)
    (hmiss : ∀ d, s.session.dl = some d → ¬ Hits cfg s f d e) (hfg : f ≠ g) :
    Undisturbed g s (s.receive cfg f e).1 := by
  have hrecord : Undisturbed g s (s.handleRecord cfg f e).1 := by
    unfold Worker.handleRecord
    dsimp only
    split
    · exact ⟨(Same.refl _).kept, rfl, rfl, rfl⟩
    · rename_i hvalid
      split
      · exact ⟨(Same.refl _).kept, rfl, rfl, rfl⟩
      · rename_i hsafe
        split
        · exact ⟨(Same.trans ⟨rfl, rfl⟩ (same_handleDir cfg _ f e.1.fi e.2.1 e.2.2)).kept, rfl, rfl, rfl⟩
        · split
          · exact ⟨⟨rfl, rfl⟩, rfl, rfl, rfl⟩
          · rename_i htype
            split
            · exact ⟨⟨rfl, rfl⟩, rfl, rfl, rfl⟩
            · obtain ⟨hdel, hsame⟩ := withContent_deleted cfg.sha e.1
              refine Undisturbed.trans ⟨⟨rfl, rfl⟩, rfl, rfl, rfl⟩ (undisturbed_handleFile cfg _ _ ?_ hfg)
              intro hdeleted hact
              rw [hdel] at hdeleted
              rw [hsame hdeleted] at hact ⊢
              by_contra hany
              rw [Bool.not_eq_false, Option.any_eq_true] at hany
              obtain ⟨d, hd, hname⟩ := hany
              exact hmiss d hd ⟨by simpa using hvalid, by simpa using hsafe, by simpa using htype,
                hdeleted, by simpa [eq_comm] using hname, hact⟩
  exact hrecord.trans ⟨⟨rfl, rfl⟩, rfl, rfl, rfl⟩

theorem dl_receive_of_hit (cfg : Setup) (e : Entry) (hd : s.session.dl = some d)
    (hit : Hits cfg s f d e) (hfg : f ≠ g) : (s.receive cfg f e).1.session.dl = none := by
  obtain ⟨hvalid, hsafe, htype, hdel, hname, hact⟩ := hit
  have hsame := (withContent_deleted cfg.sha e.1).2 hdel
  show (s.handleRecord cfg f e).1.session.dl = none
  unfold Worker.handleRecord
  dsimp only
  rw [hvalid, hsafe, htype, hdel, hsame]
  exact dl_handleFile_of_hit cfg e.1 e.2.1 hd hdel hname hact hfg

/-! ## A whole message -/

/-- No entry that the loop comes to hits the transfer. -/
def Spares (cfg : Setup) (f : FolderIdx) (d : WantFile) : Worker W → List Entry → Prop
  | _, [] => True
  | s, e :: rest =>
    ¬ Hits cfg s f d e ∧ ((s.receive cfg f e).2 = true → Spares cfg f d (s.receive cfg f e).1 rest)

/-- A transfer that was dropped is not taken up again. -/
theorem dl_loop_of_none (cfg : Setup) (entries : List Entry) (hd : s.session.dl = none) (hfg : f ≠ g) :
    (s.loop cfg f entries).session.dl = none := by
  induction entries generalizing s with
  | nil => exact hd
  | cons e rest ih =>
    have hstep : (s.receive cfg f e).1.session.dl = none := by
      have h : Undisturbed g s (s.receive cfg f e).1 := by
        refine undisturbed_receive cfg e ?_ hfg
        intro x hx
        rw [hd] at hx
        simp at hx
      exact h.1.1.trans hd
    rw [Worker.loop]
    split
    · exact ih hstep
    · exact hstep

theorem loop_undisturbed_iff (cfg : Setup) (entries : List Entry) (hd : s.session.dl = some d)
    (hfg : f ≠ g) : Undisturbed g s (s.loop cfg f entries) ↔ Spares cfg f d s entries := by
  induction entries generalizing s with
  | nil => exact ⟨fun _ => trivial, fun _ => ⟨(Same.refl _).kept, rfl, rfl, rfl⟩⟩
  | cons e rest ih =>
    rw [Worker.loop, Spares]
    by_cases hit : Hits cfg s f d e
    · have hnone := dl_receive_of_hit cfg e hd hit hfg
      constructor
      · intro h
        have hdl := h.1.1
        rw [hd] at hdl
        split at hdl
        · rw [dl_loop_of_none cfg rest hnone hfg] at hdl
          simp at hdl
        · rw [hnone] at hdl
          simp at hdl
      · exact fun h => absurd hit h.1
    · have hstep := undisturbed_receive (g := g) cfg e
        (fun x hx => Option.some.inj (hd.symm.trans hx) ▸ hit) hfg
      have hd' : (s.receive cfg f e).1.session.dl = some d := hstep.1.1.trans hd
      cases hmore : (s.receive cfg f e).2 with
      | false => simp [hit, hstep]
      | true =>
        simp only [if_true, hit, not_false_eq_true, true_and, forall_const]
        rw [← ih hd']
        constructor
        · intro h
          exact ⟨⟨h.1.1.trans hstep.1.1.symm, h.1.2.trans hstep.1.2.symm⟩,
            h.2.1.trans hstep.2.1.symm, h.2.2.1.trans hstep.2.2.1.symm,
            h.2.2.2.trans hstep.2.2.2.symm⟩
        · exact hstep.trans

/-- A message without a deletion of that file name spares the transfer. -/
theorem spares_of_other_names (cfg : Setup) {entries : List Entry}
    (h : ∀ e ∈ entries, e.1.fi.deleted = true → e.1.fi.type = .file → e.1.fi.name ≠ d.name) :
    Spares cfg f d s entries := by
  induction entries generalizing s with
  | nil => trivial
  | cons e rest ih =>
    refine ⟨?_, ?_⟩
    · rintro ⟨-, -, htype, hdel, hname, -⟩
      exact h e List.mem_cons_self hdel htype hname
    · intro _
      exact ih fun e' he' => h e' (List.mem_cons_of_mem _ he')

/-- **Index.** A message for one folder leaves the transfer of another alone, with its window, its
claim and what else is queued there, exactly when it holds no deletion that hits the transfer. -/
theorem handleIndex_undisturbed_iff (cfg : Setup) (s : Worker W) {f : FolderIdx} {d : WantFile}
    (hd : s.session.dl = some d) (hfd : f ≠ d.folderIdx) (entries : List Entry)
    (rest : Worker.Rest) :
    Undisturbed d.folderIdx s (s.handleIndex cfg f entries rest) ↔ Spares cfg f d s entries := by
  have hrest : ∀ t : Session, Same t
      ((rest.drains.foldl (fun t d => t.drainOne cfg d.1 d.2.1 d.2.2) t).flushDeferred cfg rest.picks) :=
    fun t => (same_drains cfg t rest.drains).trans (same_flushDeferred cfg _ rest.picks)
  have hsame := hrest (s.loop cfg f entries).session
  rw [← loop_undisturbed_iff cfg entries hd hfd]
  constructor
  · intro h
    exact ⟨⟨hsame.1.symm.trans h.1.1, hsame.kept.2.symm.trans h.1.2⟩, h.2⟩
  · intro h
    exact ⟨h.1.trans hsame.kept, h.2⟩

end Workers

/-! ## Two folders with a file of one name -/

def quietAnswers : Session.Answers := ⟨true, true, true, true, true, none, 0, true, ⟨true, true⟩⟩

def quietSetup : Setup := ⟨fun _ => sampleHash 0, fun _ => .sendReceive, fun _ _ => false⟩

/-- A file of one name in the folder of the transfer. -/
def samplePending : WantFile := ⟨1, { SyncMeta.zero [97] with version := .single 7 1 }, [], false, 1⟩

/-- It is in flight, under a claim. -/
def busyWorker : Worker Unit where
  me := ()
  session := { Session.start fun _ => .empty 1 with dl := some samplePending }
  download := ⟨.active, 0, false, 0, [], [], [], [], 1, []⟩
  claimFidx := some 1
  claims := fun f => if f = 1 then (ClaimTable.empty.claim [97] ()).1 else .empty

/-- A deletion of that name in the other folder, which holds no such file. -/
def otherDeletion (n : Name) : Entry :=
  (⟨{ SyncMeta.zero n with deleted := true, version := .single 7 2 }, []⟩, quietAnswers, [])

/-- The transfer of folder 1 is dropped by a deletion in folder 0. -/
theorem namesake_dropped :
    ¬ ∀ (cfg : Setup) (s : Worker Unit) (f : FolderIdx) (d : WantFile), s.session.dl = some d →
      f ≠ d.folderIdx → ∀ (entries : List Entry) (rest : Worker.Rest),
      Undisturbed d.folderIdx s (s.handleIndex cfg f entries rest) := by
  intro h
  have hkept := h quietSetup busyWorker 0 samplePending rfl (by decide) [otherDeletion [97]] ⟨[], []⟩
  have hdl := hkept.1.1
  exact absurd hdl (by decide)

/-- The deletion of another name does nothing to it. -/
theorem handleIndex_undisturbed_other_name :
    Undisturbed 1 busyWorker
      (busyWorker.handleIndex quietSetup 0 [otherDeletion [98]] ⟨[], []⟩) :=
  (handleIndex_undisturbed_iff quietSetup busyWorker (d := samplePending) rfl (by decide)
    [otherDeletion [98]] ⟨[], []⟩).mpr (by
      refine spares_of_other_names quietSetup ?_
      rintro e he - -
      rw [List.mem_singleton.mp he]
      decide)

end Amisync.Neighbours

import Amisync.FoldState
import Amisync.Lib.Machine

/-!
# Announcing a folder (`announce_folder`)

One session's announce passes, record by record, with the folder's writers
running between any two of them. A pass takes the lock once for its snapshot,
once for every slot it looks at, and once at the end.

* `visitEntry_spec`: a record handed to the batch is sent or stays in the batch,
  whatever fits and whatever is flushed on the way.
* `annInv_step`: what one event keeps. A slot the pass has gone by holds a record
  that was handed on, unless the prune generation has moved since.
* `announce_complete`: after every run, each record up to the cursor has been
  sent as it is now, or is one the pass withholds.
-/

namespace Amisync

def wkIndexBatch : Nat := 256

/-- A record as it goes out: its metadata and the block hashes the buffer takes. -/
abbrev Entry := SyncMeta × List Hash

def entryOf (s : Slot) : Entry := (s.record, s.blocks.take folderMaxBlocks)

/-- An Index (`update` false) or an IndexUpdate. -/
structure IndexMsg where
  update : Bool
  entries : List Entry
  deriving DecidableEq, Repr

/-- Records the pass leaves out: changes of our own in a receive-only folder, and live
files without a block list. -/
def withheld (mode : FolderMode) (shortId : Nat) (s : Slot) : Bool :=
  (mode == .receiveOnly && syncVersionHas s.record.version shortId) ||
    (s.record.type == .file && !s.record.deleted && !s.record.invalid && s.blocks.isEmpty)

/-- The locals of one pass; slot `i` is the next to be looked at. -/
structure Pass where
  snapshot : Int
  num : Nat
  pgen : Nat
  i : Nat
  first : Bool
  batch : List Entry

structure Announcer where
  fs : FolderState
  cursor : Int
  announced : Bool
  sent : List IndexMsg
  pass : Option Pass
  closed : Bool

/-- A fresh session on an index. -/
def Announcer.connect (fs : FolderState) : Announcer := ⟨fs, 0, false, [], none, false⟩

/-- How a record's turn goes: whether the batch takes it, whether an empty batch does, and
whether the transport accepts what is sent. -/
structure AddOutcome where
  fits : Bool
  fitsEmpty : Bool
  sendOk : Bool

namespace Announcer

def send (s : Announcer) (first : Bool) (entries : List Entry) : Announcer :=
  { s with sent := s.sent ++ [⟨!first, entries⟩], announced := true }

/-- Send the batch and start an empty one. -/
def flush (ok : Bool) (s : Announcer) (p : Pass) : Option (Announcer × Pass) :=
  if ok then some (s.send p.first p.batch, { p with first := false, batch := [] }) else none

/-- A batch of `WK_INDEX_BATCH` entries goes out at once. -/
def flushFull (ok : Bool) (s : Announcer) (p : Pass) : Option (Announcer × Pass) :=
  if wkIndexBatch ≤ p.batch.length then s.flush ok p else some (s, p)

/-- Pack one entry; `none` is a transport error. -/
def visitEntry (o : AddOutcome) (s : Announcer) (p : Pass) (e : Entry) : Option (Announcer × Pass) :=
  if o.fits then s.flushFull o.sendOk { p with batch := p.batch ++ [e] }
  else
    (if p.batch = [] then some (s, p) else s.flush o.sendOk p).bind fun (s', p') =>
      if o.fitsEmpty then s'.flushFull o.sendOk { p' with batch := p'.batch ++ [e] }
      else s'.flush o.sendOk { p' with batch := [e] }

def close (s : Announcer) : Announcer := { s with pass := none, closed := true }

/-- The snapshot, or nothing to do. -/
def begin (s : Announcer) : Option Announcer :=
  if s.closed || s.pass.isSome then none
  else if s.announced && decide (s.fs.sequence ≤ s.cursor) then some s
  else some { s with pass := some ⟨s.fs.sequence, s.fs.files.length, s.fs.pruneGen, 0,
    !s.announced, []⟩ }

/-- One turn of the loop. -/
def visit (mode : FolderMode) (o : AddOutcome) (s : Announcer) : Option Announcer :=
  match s.pass with
  | none => none
  | some p =>
    if p.i < p.num then
      match s.fs.files[p.i]? with
      | none => some { s with pass := some { p with i := p.i + 1 } }
      | some slot =>
        if s.cursor < slot.record.sequence ∧ slot.record.sequence ≤ p.snapshot ∧
            withheld mode s.fs.shortId slot = false then
          match s.visitEntry o p (entryOf slot) with
          | none => some s.close
          | some (s', p') => some { s' with pass := some { p' with i := p'.i + 1 } }
        else some { s with pass := some { p with i := p.i + 1 } }
    else none

/-- `establish_folder`: an empty Index where nothing was announced yet. -/
def establish (ok : Bool) (s : Announcer) : Option Announcer :=
  if s.announced then some s
  else if ok then some (s.send true []) else none

/-- The end of the pass: the last batch, and the cursor unless a slot may have moved. -/
def finish (ok : Bool) (s : Announcer) : Option Announcer :=
  match s.pass with
  | none => none
  | some p =>
    if p.num ≤ p.i then
      match ((if p.batch = [] then some (s, p) else s.flush ok p).bind fun (s', _) =>
          s'.establish ok) with
      | none => some s.close
      | some s' =>
        let moved := s'.fs.pruneGen ≠ p.pgen ∨ s'.fs.files.length < p.num
        some { s' with
          cursor := if ¬ moved ∧ s'.cursor < p.snapshot then p.snapshot else s'.cursor
          pass := none }
    else none

end Announcer

inductive AnnEvent where
  | begin
  | visit (o : AddOutcome)
  | finish (ok : Bool)
  | write (w : FolderState.Writer)

def annStep (mode : FolderMode) (s : Announcer) : AnnEvent → Option Announcer
  | .begin => s.begin
  | .visit o => s.visit mode o
  | .finish ok => s.finish ok
  | .write w => some { s with fs := s.fs.write w }

/-! ## What has been told -/

/-- The peer has been sent the record. -/
def Sent (s : Announcer) (e : Entry) : Prop := ∃ m ∈ s.sent, e ∈ m.entries

/-- It has been sent or waits in the batch. -/
def Told (s : Announcer) (p : Pass) (e : Entry) : Prop := Sent s e ∨ e ∈ p.batch

/-- The part of a state the loop body does not touch, and what it does to the rest. -/
structure Carries (s : Announcer) (p : Pass) (s' : Announcer) (p' : Pass) : Prop where
  fs : s'.fs = s.fs
  cursor : s'.cursor = s.cursor
  snapshot : p'.snapshot = p.snapshot
  num : p'.num = p.num
  pgen : p'.pgen = p.pgen
  i : p'.i = p.i
  sent : ∀ e, Sent s e → Sent s' e
  told : ∀ e, Told s p e → Told s' p' e

theorem Carries.refl (s : Announcer) (p : Pass) : Carries s p s p :=
  ⟨rfl, rfl, rfl, rfl, rfl, rfl, fun _ h => h, fun _ h => h⟩

theorem Carries.trans {s t u : Announcer} {p q r : Pass} (h : Carries s p t q)
    (h' : Carries t q u r) : Carries s p u r where
  fs := h'.fs.trans h.fs
  cursor := h'.cursor.trans h.cursor
  snapshot := h'.snapshot.trans h.snapshot
  num := h'.num.trans h.num
  pgen := h'.pgen.trans h.pgen
  i := h'.i.trans h.i
  sent := fun e he => h'.sent e (h.sent e he)
  told := fun e he => h'.told e (h.told e he)

theorem sent_send {s : Announcer} {first : Bool} {entries : List Entry} {e : Entry}
    (h : Sent s e ∨ e ∈ entries) : Sent (s.send first entries) e := by
  rcases h with ⟨m, hm, he⟩ | he
  · exact ⟨m, List.mem_append_left _ hm, he⟩
  · exact ⟨_, List.mem_append_right _ (List.mem_singleton.mpr rfl), he⟩

/-- After a flush everything told has been sent. -/
theorem flush_carries {ok : Bool} {s s' : Announcer} {p p' : Pass}
    (h : s.flush ok p = some (s', p')) :
    Carries s p s' p' ∧ p'.batch = [] ∧ ∀ e, Told s p e → Sent s' e := by
  unfold Announcer.flush at h
  split at h
  · rw [Option.some.injEq, Prod.mk.injEq] at h
    obtain ⟨rfl, rfl⟩ := h
    have hsent : ∀ e, Told s p e → Sent (s.send p.first p.batch) e := fun e he => sent_send he
    exact ⟨⟨rfl, rfl, rfl, rfl, rfl, rfl, fun e he => sent_send (Or.inl he),
      fun e he => Or.inl (hsent e he)⟩, rfl, hsent⟩
  · simp at h

theorem flushFull_carries {ok : Bool} {s s' : Announcer} {p p' : Pass}
    (h : s.flushFull ok p = some (s', p')) : Carries s p s' p' := by
  unfold Announcer.flushFull at h
  split at h
  · exact (flush_carries h).1
  · rw [Option.some.injEq, Prod.mk.injEq] at h
    obtain ⟨rfl, rfl⟩ := h
    exact Carries.refl s p

/-- Putting an entry into the batch tells it. -/
theorem carries_add (s : Announcer) (p : Pass) (batch : List Entry)
    (hb : ∀ x ∈ p.batch, x ∈ batch) : Carries s p s { p with batch := batch } :=
  ⟨rfl, rfl, rfl, rfl, rfl, rfl, fun _ h => h, fun e he => he.imp id (hb e)⟩

/-- **Batch lemma.** -/
theorem visitEntry_spec {o : AddOutcome} {s s' : Announcer} {p p' : Pass} {e : Entry}
    (h : s.visitEntry o p e = some (s', p')) : Carries s p s' p' ∧ Told s' p' e := by
  unfold Announcer.visitEntry at h
  split at h
  · have hc := flushFull_carries h
    exact ⟨(carries_add s p (p.batch ++ [e]) fun x hx => List.mem_append_left _ hx).trans hc,
      hc.told e (Or.inr (by simp))⟩
  · obtain ⟨⟨t, q⟩, hflush, hrest⟩ := Option.bind_eq_some_iff.mp h
    have hcarry : Carries s p t q ∧ q.batch = [] := by
      split at hflush
      · rename_i hnil
        rw [Option.some.injEq, Prod.mk.injEq] at hflush
        obtain ⟨rfl, rfl⟩ := hflush
        exact ⟨Carries.refl s p, hnil⟩
      · exact ⟨(flush_carries hflush).1, (flush_carries hflush).2.1⟩
    obtain ⟨h1, hq⟩ := hcarry
    dsimp only at hrest
    split at hrest
    · have hc := flushFull_carries hrest
      exact ⟨(h1.trans (carries_add t q (q.batch ++ [e]) fun x hx =>
        List.mem_append_left _ hx)).trans hc, hc.told e (Or.inr (by simp))⟩
    · have hc := (flush_carries hrest).1
      exact ⟨(h1.trans (carries_add t q [e] (by simp [hq]))).trans hc,
        hc.told e (Or.inr (by simp))⟩

/-! ## The invariant -/

/-- The record of the slot has reached the peer, or is one the pass leaves out. -/
def Settles (mode : FolderMode) (s : Announcer) (P : Entry → Prop) (slot : Slot) : Prop :=
  P (entryOf slot) ∨ withheld mode s.fs.shortId slot = true

/-- During a pass: as long as no slot has moved, a record of the snapshot is in a slot the
pass reaches, and once the pass has gone by it has been told. -/
structure PassInv (mode : FolderMode) (s : Announcer) (p : Pass) : Prop where
  snap : p.snapshot ≤ s.fs.sequence
  gen : p.pgen ≤ s.fs.pruneGen
  reach : s.fs.pruneGen = p.pgen → ∀ (i : Nat) slot, s.fs.files[i]? = some slot →
    slot.record.sequence ≤ p.snapshot → i < p.num
  passed : s.fs.pruneGen = p.pgen → ∀ (i : Nat) slot, s.fs.files[i]? = some slot →
    i < p.i → s.cursor < slot.record.sequence → slot.record.sequence ≤ p.snapshot →
    Settles mode s (Told s p) slot

structure AnnInv (mode : FolderMode) (s : Announcer) : Prop where
  cursor : s.cursor ≤ s.fs.sequence
  done : ∀ slot ∈ s.fs.files, slot.record.sequence ≤ s.cursor → Settles mode s (Sent s) slot
  pass : ∀ p, s.pass = some p → PassInv mode s p

theorem annInv_connect (mode : FolderMode) (fs : FolderState) :
    AnnInv mode (Announcer.connect fs) where
  cursor := fs.nonneg
  done := by
    intro slot hs hle
    have h1 := (fs.seqOk slot hs).1
    have h0 : slot.record.sequence ≤ 0 := hle
    omega
  pass := fun p hp => by simp [Announcer.connect] at hp

/-- A slot with the same record settles the same way. -/
theorem settles_of_same {mode : FolderMode} {s s' : Announcer} {P P' : Entry → Prop} {x y : Slot}
    (hxy : FolderState.SameSlot x y) (hid : s'.fs.shortId = s.fs.shortId)
    (hP : ∀ e, P e → P' e) (h : Settles mode s P x) : Settles mode s' P' y := by
  obtain ⟨hrec, hblocks⟩ := hxy
  have he : entryOf y = entryOf x := by rw [entryOf, entryOf, hrec, hblocks]
  have hw : withheld mode s'.fs.shortId y = withheld mode s.fs.shortId x := by
    rw [withheld, withheld, hrec, hblocks, hid]
  unfold Settles
  rw [he, hw]
  exact h.imp (hP _) id

/-- **Writer step.** -/
theorem annInv_write {mode : FolderMode} {s : Announcer} (h : AnnInv mode s)
    (w : FolderState.Writer) : AnnInv mode { s with fs := s.fs.write w } := by
  have hw := FolderState.writerOk_write s.fs w
  refine ⟨Int.le_trans h.cursor hw.seq, fun slot hs hle => ?_, fun p hp => ?_⟩
  · rcases hw.slot slot hs with hnew | ⟨t, ht, hsame⟩
    · have hc := h.cursor
      dsimp only at hle
      omega
    · have hle' : t.record.sequence ≤ s.cursor := by rw [hsame.1]; exact hle
      exact settles_of_same hsame hw.shortId (fun _ he => he) (h.done t ht hle')
  · have hpi := h.pass p hp
    refine ⟨Int.le_trans hpi.snap hw.seq, Nat.le_trans hpi.gen hw.gen, fun hg i slot hs hle => ?_,
      fun hg i slot hs hi hlt hle => ?_⟩
    all_goals
      have hgen : (s.fs.write w).pruneGen = s.fs.pruneGen :=
        Nat.le_antisymm (hg ▸ hpi.gen) hw.gen
      have hg' : s.fs.pruneGen = p.pgen := hgen.symm.trans hg
      rcases hw.stay hgen i slot hs with hnew | ⟨t, ht, hsame⟩
    · have := hpi.snap
      omega
    · exact hpi.reach hg' i t ht (by rw [hsame.1]; exact hle)
    · have := hpi.snap
      omega
    · exact settles_of_same hsame hw.shortId (fun _ he => he)
        (hpi.passed hg' i t ht hi (by rw [hsame.1]; exact hlt) (by rw [hsame.1]; exact hle))

theorem annInv_begin {mode : FolderMode} {s t : Announcer} (h : AnnInv mode s)
    (hstep : s.begin = some t) : AnnInv mode t := by
  unfold Announcer.begin at hstep
  split at hstep
  · simp at hstep
  · split at hstep
    · exact Option.some.inj hstep ▸ h
    · rw [Option.some.injEq] at hstep
      subst hstep
      refine ⟨h.cursor, h.done, fun p hp => ?_⟩
      rw [Option.some.injEq] at hp
      subst hp
      refine ⟨Int.le_refl _, Nat.le_refl _, fun _ i slot hs _ => ?_, fun _ i slot _ hi => ?_⟩
      · exact (List.getElem?_eq_some_iff.mp hs).1
      · exact absurd hi (Nat.not_lt_zero i)

/-- A closed session keeps what it has told. -/
theorem annInv_close {mode : FolderMode} {s : Announcer} (h : AnnInv mode s) :
    AnnInv mode s.close :=
  ⟨h.cursor, h.done, fun p hp => by simp [Announcer.close] at hp⟩

/-- The state after the loop body, if the slot just looked at is settled. -/
theorem annInv_advance {mode : FolderMode} {s s' : Announcer} {p p' : Pass} (h : AnnInv mode s)
    (hp : s.pass = some p) (hc : Carries s p s' p')
    (hslot : ∀ slot, s.fs.files[p.i]? = some slot → s.cursor < slot.record.sequence →
      slot.record.sequence ≤ p.snapshot → Settles mode s (Told s' p') slot) :
    AnnInv mode { s' with pass := some { p' with i := p'.i + 1 } } := by
  have hpi := h.pass p hp
  refine ⟨by rw [hc.cursor, hc.fs]; exact h.cursor, fun slot hs hle => ?_, fun q hq => ?_⟩
  · rw [hc.fs] at hs
    rw [hc.cursor] at hle
    exact settles_of_same ⟨rfl, rfl⟩ (congrArg FolderState.shortId hc.fs) hc.sent
      (h.done slot hs hle)
  · rw [Option.some.injEq] at hq
    subst hq
    refine ⟨by rw [hc.snapshot, hc.fs]; exact hpi.snap, by rw [hc.pgen, hc.fs]; exact hpi.gen,
      fun hg i slot hs hle => ?_, fun hg i slot hs hi hlt hle => ?_⟩
    · rw [hc.fs, hc.pgen] at hg
      rw [hc.fs] at hs
      rw [hc.snapshot] at hle
      rw [hc.num]
      exact hpi.reach hg i slot hs hle
    · rw [hc.fs, hc.pgen] at hg
      rw [hc.fs] at hs
      rw [hc.cursor] at hlt
      rw [hc.snapshot] at hle
      dsimp only at hi
      rw [hc.i] at hi
      have hid : s'.fs.shortId = s.fs.shortId := congrArg FolderState.shortId hc.fs
      rcases Nat.lt_or_ge i p.i with hlt' | hge
      · exact settles_of_same ⟨rfl, rfl⟩ hid hc.told (hpi.passed hg i slot hs hlt' hlt hle)
      · have hi' : i = p.i := by omega
        subst hi'
        exact settles_of_same ⟨rfl, rfl⟩ hid (fun _ he => he) (hslot slot hs hlt hle)

/-- **Loop step.** -/
theorem annInv_visit {mode : FolderMode} {o : AddOutcome} {s t : Announcer} (h : AnnInv mode s)
    (hstep : s.visit mode o = some t) : AnnInv mode t := by
  unfold Announcer.visit at hstep
  split at hstep
  · simp at hstep
  · rename_i p hp
    split at hstep
    · split at hstep
      · rename_i hnone
        rw [Option.some.injEq] at hstep
        subst hstep
        refine annInv_advance h hp (Carries.refl s p) fun slot hs => ?_
        rw [hnone] at hs
        simp at hs
      · rename_i slot hslot
        split at hstep
        · rename_i hcond
          split at hstep
          · rw [Option.some.injEq] at hstep
            exact hstep ▸ annInv_close h
          · rename_i s' p' hv
            rw [Option.some.injEq] at hstep
            subst hstep
            obtain ⟨hc, htold⟩ := visitEntry_spec hv
            refine annInv_advance h hp hc fun slot' hs' _ _ => ?_
            rw [hslot, Option.some.injEq] at hs'
            exact Or.inl (hs' ▸ htold)
        · rename_i hcond
          rw [Option.some.injEq] at hstep
          subst hstep
          refine annInv_advance h hp (Carries.refl s p) fun slot' hs' hlt hle => ?_
          rw [hslot, Option.some.injEq] at hs'
          subst hs'
          cases hw : withheld mode s.fs.shortId slot with
          | true => exact Or.inr hw
          | false => exact absurd ⟨hlt, hle, hw⟩ hcond
    · simp at hstep

/-- What the last flush and the empty Index leave. -/
theorem finish_sends {ok : Bool} {s t : Announcer} {p : Pass}
    (h : ((if p.batch = [] then some (s, p) else s.flush ok p).bind fun (s', _) =>
      s'.establish ok) = some t) :
    t.fs = s.fs ∧ t.cursor = s.cursor ∧ ∀ e, Told s p e → Sent t e := by
  obtain ⟨⟨u, q⟩, hflush, hest⟩ := Option.bind_eq_some_iff.mp h
  have hu : u.fs = s.fs ∧ u.cursor = s.cursor ∧ ∀ e, Told s p e → Sent u e := by
    split at hflush
    · rename_i hnil
      rw [Option.some.injEq, Prod.mk.injEq] at hflush
      obtain ⟨rfl, rfl⟩ := hflush
      refine ⟨rfl, rfl, fun e he => he.resolve_right ?_⟩
      simp [hnil]
    · obtain ⟨hc, -, hsent⟩ := flush_carries hflush
      exact ⟨hc.fs, hc.cursor, hsent⟩
  unfold Announcer.establish at hest
  dsimp only at hest
  split at hest
  · rw [Option.some.injEq] at hest
    exact hest ▸ hu
  · split at hest
    · rw [Option.some.injEq] at hest
      subst hest
      exact ⟨hu.1, hu.2.1, fun e he => sent_send (Or.inl (hu.2.2 e he))⟩
    · simp at hest

/-- **Last step.** The cursor moves only over records that were told. -/
theorem annInv_finish {mode : FolderMode} {ok : Bool} {s t : Announcer} (h : AnnInv mode s)
    (hstep : s.finish ok = some t) : AnnInv mode t := by
  unfold Announcer.finish at hstep
  split at hstep
  · simp at hstep
  · rename_i p hp
    have hpi := h.pass p hp
    split at hstep
    · rename_i hdone
      split at hstep
      · rw [Option.some.injEq] at hstep
        exact hstep ▸ annInv_close h
      · rename_i u hu
        obtain ⟨hfs, hcur, hsent⟩ := finish_sends hu
        have hid : u.fs.shortId = s.fs.shortId := congrArg FolderState.shortId hfs
        rw [Option.some.injEq] at hstep
        subst hstep
        refine ⟨?_, fun slot hs hle => ?_, fun q hq => by simp at hq⟩
        · dsimp only
          rw [hfs, hcur]
          split
          · exact hpi.snap
          · exact h.cursor
        · dsimp only at hs hle
          rw [hfs] at hs
          rw [hfs, hcur] at hle
          by_cases hold : slot.record.sequence ≤ s.cursor
          · exact settles_of_same ⟨rfl, rfl⟩ hid (fun e he => hsent e (Or.inl he))
              (h.done slot hs hold)
          · split at hle
            · rename_i hmoved
              have hg : s.fs.pruneGen = p.pgen := by
                by_contra hne
                exact hmoved.1 (Or.inl hne)
              obtain ⟨i, hi⟩ := List.getElem?_of_mem hs
              have hlt := hpi.reach hg i slot hi hle
              exact settles_of_same ⟨rfl, rfl⟩ hid hsent
                (hpi.passed hg i slot hi (by omega) (by omega) hle)
            · exact absurd hle hold
    · simp at hstep

/-- **Step lemma.** -/
theorem annInv_step {mode : FolderMode} {s t : Announcer} {e : AnnEvent} (h : AnnInv mode s)
    (hstep : annStep mode s e = some t) : AnnInv mode t := by
  cases e with
  | begin => exact annInv_begin h hstep
  | visit o => exact annInv_visit h hstep
  | finish ok => exact annInv_finish h hstep
  | write w =>
    have ht : { s with fs := s.fs.write w } = t := Option.some.inj hstep
    exact ht ▸ annInv_write h w

/-- **Announce completeness.** In every interleaving of the session's passes with the
folder's writers, each record stored up to the cursor has been sent as it is now, or is one
the pass withholds. -/
theorem announce_complete (mode : FolderMode) (fs : FolderState) (es : List AnnEvent)
    (s : Announcer) (hrun : Machine.run (annStep mode) (Announcer.connect fs) es = some s) :
    ∀ slot ∈ s.fs.files, slot.record.sequence ≤ s.cursor →
      (∃ m ∈ s.sent, entryOf slot ∈ m.entries) ∨ withheld mode s.fs.shortId slot = true :=
  (Machine.run_inv (fun _ _ _ hs hstep => annInv_step hs hstep) hrun (annInv_connect mode fs)).done

/-- A record of the index with one block, for concrete runs. -/
def plainRecord (c : UInt8) (deleted : Bool) : SyncMeta :=
  { SyncMeta.zero [c] with
    deleted := deleted
    version := BepVector.single 2 5
    contentHash := some (sampleHash c) }

/-- Three records, the middle one a tombstone. The prune behind the first turn moves the
third record into a slot the pass may have passed; the cursor waits for the second pass. -/
def pruneRun : List AnnEvent :=
  [.write (.store (plainRecord 97 true) [] ⟨true, true⟩),
    .write (.store (plainRecord 98 false) [sampleHash 1] ⟨true, true⟩),
    .write (.store (plainRecord 99 false) [sampleHash 2] ⟨true, true⟩),
    .begin, .visit ⟨true, true, true⟩, .write (.pruneTombstones 10), .visit ⟨true, true, true⟩,
    .visit ⟨true, true, true⟩, .finish true,
    .begin, .visit ⟨true, true, true⟩, .visit ⟨false, false, true⟩, .finish true]

theorem announce_complete_pruned : ∃ s,
    Machine.run (annStep .sendReceive) (Announcer.connect (FolderState.empty 1)) pruneRun = some s ∧
      s.cursor = 3 ∧ s.fs.files.map Slot.name = [[99], [98]] ∧
      ∀ slot ∈ s.fs.files, slot.record.sequence ≤ s.cursor →
        (∃ m ∈ s.sent, entryOf slot ∈ m.entries) ∨ withheld .sendReceive s.fs.shortId slot = true :=
  ⟨_, rfl, rfl, rfl, announce_complete .sendReceive (FolderState.empty 1) pruneRun _ rfl⟩

end Amisync

import Amisync.Session
import Mathlib.Algebra.Order.BigOperators.Group.Finset

/-!
# Nothing pending

Whatever the peer sends and however transfers end, the last record of a name is
queued, parked, in flight or listed as given up, until there is nothing left to
fetch of it.

* `Queued`, `Counted`: where a record can be, and what the published number counts.
* `Spares`: a step that concerns other names, as one name sees it.
* `Facts`: what is known of the name itself; `facts_enqueue`, `facts_start`,
  `facts_finish`: a step that concerns it.
* `tracked_step`: every step keeps the last record of a name accounted for.
* `published_up_to_date`: so there is nothing left when nothing is pending.
* `published_behind`: deletions, colliding hashes and a full list are not counted.
-/

namespace Amisync

open Keyed Session

/-! ## Where a record can be -/

/-- A record of the name is queued, in flight or parked. -/
def Queued (s : Session) (k : Key) (fi : SyncMeta) : Prop :=
  (∃ w ∈ s.want, w.key = k ∧ w.fi = fi) ∨ (∃ w, s.dl = some w ∧ w.key = k ∧ w.fi = fi) ∨
    ∃ w ∈ s.spill k.1, w.fi.name = k.2 ∧ w.fi = fi

/-- A deletion of the name waits. -/
def Deferred (s : Session) (k : Key) : Prop :=
  (∃ m, (k.1, m) ∈ s.defer ∧ m.name = k.2) ∨ ∃ m ∈ s.spillDel k.1, m.name = k.2

/-- The name is in the published number, or has been left out for want of room. -/
def Counted (s : Session) (k : Key) : Prop :=
  (∃ fi, Queued s k fi) ∨ k ∈ s.stalled ∨ s.unlisted k = true

theorem not_queued_of_waiting {s : Session} {k : Key} (h : s.waiting k = false) :
    (∀ fi, ¬ Queued s k fi) ∧ ¬ Deferred s k := by
  unfold waiting at h
  simp only [Bool.or_eq_false_iff] at h
  obtain ⟨⟨⟨⟨hw, hd⟩, hs⟩, hdef⟩, hsd⟩ := h
  constructor
  · rintro fi (⟨w, hmem, hk, -⟩ | ⟨w, hdl, hk, -⟩ | ⟨w, hmem, hk, -⟩)
    · rw [List.any_eq_false] at hw
      exact hw w hmem (by simp [hk])
    · rw [hdl] at hd
      simp [hk] at hd
    · rw [List.any_eq_false] at hs
      exact hs w hmem (by simp [hk])
  · rintro (⟨m, hmem, hn⟩ | ⟨m, hmem, hn⟩)
    · rw [List.any_eq_false] at hdef
      exact hdef (k.1, m) hmem (by simp [hn])
    · rw [List.any_eq_false] at hsd
      exact hsd m hmem (by simp [hn])

/-! ## What a step leaves alone -/

/-- A step that is not the receipt of a record of the name. -/
structure Past (k : Key) (s t : Session) : Prop where
  latest : t.latest k = s.latest k
  contested : t.contested k = s.contested k
  overflow : s.wantOverflow = true → t.wantOverflow = true

theorem Past.refl (k : Key) (s : Session) : Past k s s := ⟨rfl, rfl, id⟩

theorem Past.trans {k : Key} {s t u : Session} (h : Past k s t) (h' : Past k t u) : Past k s u :=
  ⟨h'.latest.trans h.latest, h'.contested.trans h.contested, h'.overflow ∘ h.overflow⟩

/-- A step as seen by a name that it does not concern: nothing of the name is new, and what was
counted still is. -/
structure Spares (k : Key) (s t : Session) : Prop where
  past : Past k s t
  queued : ∀ fi, Queued t k fi → Queued s k fi
  counted : t.wantOverflow = false → Counted s k → Counted t k
  deferred : Deferred t k → Deferred s k
  gone : hsetHas (t.gone k.1) k.2 = true → hsetHas (s.gone k.1) k.2 = true
  record : t.record k = s.record k

theorem Spares.refl (k : Key) (s : Session) : Spares k s s :=
  ⟨.refl k s, fun _ h => h, fun _ h => h, id, id, rfl⟩

theorem Spares.trans {k : Key} {s t u : Session} (h : Spares k s t) (h' : Spares k t u) :
    Spares k s u := by
  refine ⟨h.past.trans h'.past, fun fi hf => h.queued fi (h'.queued fi hf), fun ho hc => ?_,
    h.deferred ∘ h'.deferred, h.gone ∘ h'.gone, h'.record.trans h.record⟩
  refine h'.counted ho (h.counted ?_ hc)
  cases ht : t.wantOverflow with
  | false => rfl
  | true => exact absurd (h'.past.overflow ht) (by simp [ho])

section Other
variable {k k' : Key} {s : Session}

theorem record_store_of_ne {f : FolderIdx} {m : SyncMeta} (hne : (f, m.name) ≠ k)
    (blocks : List Hash) (mem : UpsertMem) : (s.store f m blocks mem).record k = s.record k := by
  unfold Session.record Session.store
  dsimp only
  by_cases hf : k.1 = f
  · have hn : k.2 ≠ m.name := fun e => hne (Prod.ext hf.symm e.symm)
    rw [hf, Function.update_self]
    unfold FolderState.record
    rw [(s.index f).find_store_of_ne hn]
  · rw [Function.update_of_ne hf]

theorem spares_store {f : FolderIdx} {m : SyncMeta} (hne : (f, m.name) ≠ k) (blocks : List Hash)
    (mem : UpsertMem) : Spares k s (s.store f m blocks mem) :=
  ⟨⟨rfl, rfl, id⟩, fun _ h => h, fun _ h => h, id, id, record_store_of_ne hne blocks mem⟩

theorem record_adopt_of_ne {f : FolderIdx} {fi : SyncMeta} (hne : (f, fi.name) ≠ k) :
    (s.adopt f fi).record k = s.record k := by
  unfold Session.record Session.adopt
  dsimp only
  by_cases hf : k.1 = f
  · have hn : k.2 ≠ fi.name := fun e => hne (Prod.ext hf.symm e.symm)
    rw [hf, Function.update_self, FolderState.record, (s.index f).find_adopt_of_ne hn]
    rfl
  · rw [Function.update_of_ne hf]

theorem spares_adopt {f : FolderIdx} {fi : SyncMeta} (hne : (f, fi.name) ≠ k) :
    Spares k s (s.adopt f fi) :=
  ⟨⟨rfl, rfl, id⟩, fun _ h => h, fun _ h => h, id, id, record_adopt_of_ne hne⟩

theorem spares_stallAdd (k' : Key) : Spares k s (s.stallAdd k') := by
  unfold stallAdd
  split
  · exact .refl k s
  · split
    · refine ⟨⟨rfl, rfl, id⟩, fun _ h => h, fun _ hc => ?_, id, id, rfl⟩
      rcases hc with h | h | h
      · exact Or.inl h
      · exact Or.inr (Or.inl h)
      · refine Or.inr (Or.inr ?_)
        show Function.update s.unlisted k' true k = true
        rw [Function.update_apply]
        split
        · rfl
        · exact h
    · refine ⟨⟨rfl, rfl, id⟩, fun _ h => h, fun _ hc => ?_, id, id, rfl⟩
      rcases hc with h | h | h
      · exact Or.inl h
      · exact Or.inr (Or.inl (List.mem_append_left _ h))
      · exact Or.inr (Or.inr h)

/-- What is given up is counted, or left out. -/
theorem counted_stallAdd (s : Session) (k : Key) : Counted (s.stallAdd k) k := by
  unfold stallAdd
  split
  · exact Or.inr (Or.inl ‹_›)
  · split
    · refine Or.inr (Or.inr ?_)
      show Function.update s.unlisted k true k = true
      rw [Function.update_self]
    · refine Or.inr (Or.inl ?_)
      show k ∈ s.stalled ++ [k]
      simp

theorem spares_stallClear (hne : k ≠ k') : Spares k s (s.stallClear k') := by
  refine ⟨⟨rfl, rfl, id⟩, fun _ h => h, fun _ hc => ?_, id, id, rfl⟩
  rcases hc with h | h | h
  · exact Or.inl h
  · exact Or.inr (Or.inl ((mem_dropFirst_of_ne s.stalled hne).mpr h))
  · refine Or.inr (Or.inr ?_)
    show Function.update s.unlisted k' false k = true
    rw [Function.update_of_ne hne]
    exact h

/-! ### Transfers that end early -/

theorem syncWantPushAgain_some {q q' : List WantFile} {w : WantFile}
    (h : syncWantPushAgain q w = some q') : q' = w :: q := by
  unfold syncWantPushAgain at h
  split at h
  · simp at h
  · split at h
    · simp at h
    · exact (Option.some.inj h).symm

/-- What is tried again is queued, counted or left out; nothing else happens. -/
theorem requeue_cases (s : Session) (w : WantFile) (retryable : Bool) :
    s.requeueDownload w retryable = { s with want := { w with conflict := false } :: s.want } ∨
      s.requeueDownload w retryable = s.stallAdd w.key := by
  unfold requeueDownload
  split
  · split
    · rename_i q hq
      rw [syncWantPushAgain_some hq]
      exact Or.inl rfl
    · exact Or.inr rfl
  · exact Or.inr rfl

theorem counted_requeue (s : Session) (w : WantFile) (retryable : Bool) :
    Counted (s.requeueDownload w retryable) w.key := by
  rcases requeue_cases s w retryable with h | h
  · rw [h]
    exact Or.inl ⟨w.fi, Or.inl ⟨_, List.mem_cons_self, rfl, rfl⟩⟩
  · rw [h]
    exact counted_stallAdd s w.key

/-- A queue with one more entry. -/
theorem queued_cons {w : WantFile} {fi : SyncMeta}
    (h : Queued { s with want := w :: s.want } k fi) : Queued s k fi ∨ w.key = k ∧ w.fi = fi := by
  rcases h with ⟨v, hv, hk⟩ | h | h
  · rcases List.mem_cons.mp hv with rfl | hv
    · exact Or.inr hk
    · exact Or.inl (Or.inl ⟨v, hv, hk⟩)
  · exact Or.inl (Or.inr (Or.inl h))
  · exact Or.inl (Or.inr (Or.inr h))

theorem counted_cons (w : WantFile) (h : Counted s k) :
    Counted { s with want := w :: s.want } k := by
  rcases h with ⟨fi, ⟨v, hv, hk⟩ | h | h⟩ | h | h
  · exact Or.inl ⟨fi, Or.inl ⟨v, List.mem_cons_of_mem _ hv, hk⟩⟩
  · exact Or.inl ⟨fi, Or.inr (Or.inl h)⟩
  · exact Or.inl ⟨fi, Or.inr (Or.inr h)⟩
  · exact Or.inr (Or.inl h)
  · exact Or.inr (Or.inr h)

theorem spares_push {w : WantFile} (hne : w.key ≠ k) :
    Spares k s { s with want := w :: s.want } :=
  ⟨⟨rfl, rfl, id⟩, fun _ h => (queued_cons h).resolve_right fun e => hne e.1,
    fun _ h => counted_cons w h, id, id, rfl⟩

/-- Another name's transfer is tried again. -/
theorem spares_requeue {w : WantFile} (hne : w.key ≠ k) (retryable : Bool) :
    Spares k s (s.requeueDownload w retryable) := by
  rcases requeue_cases s w retryable with h | h
  · rw [h]
    exact spares_push hne
  · rw [h]
    exact spares_stallAdd w.key

/-- The transfer in flight ends; if it is of the name, it is tried again or given up. -/
theorem spares_end {w : WantFile} (hdl : s.dl = some w) (retryable : Bool) :
    Spares k s ({ s with dl := none }.requeueDownload w retryable) := by
  have hsub : ∀ fi, Queued { s with dl := none } k fi → Queued s k fi := by
    rintro fi (h | ⟨v, hv, -⟩ | h)
    · exact Or.inl h
    · exact absurd hv (by simp)
    · exact Or.inr (Or.inr h)
  have hsup : Counted s k → w.key = k ∨ Counted { s with dl := none } k := by
    rintro (⟨fi, h | ⟨v, hv, hk, -⟩ | h⟩ | h | h)
    · exact Or.inr (Or.inl ⟨fi, Or.inl h⟩)
    · rw [hdl, Option.some.injEq] at hv
      exact Or.inl (hv ▸ hk)
    · exact Or.inr (Or.inl ⟨fi, Or.inr (Or.inr h)⟩)
    · exact Or.inr (Or.inr (Or.inl h))
    · exact Or.inr (Or.inr (Or.inr h))
  have hown : w.key = k → Counted ({ s with dl := none }.requeueDownload w retryable) k := by
    rintro rfl
    exact counted_requeue _ w retryable
  rcases requeue_cases { s with dl := none } w retryable with h | h
  · rw [h] at hown ⊢
    refine ⟨⟨rfl, rfl, id⟩, fun fi hf => ?_, fun _ hc => ?_, id, id, rfl⟩
    · rcases queued_cons hf with hf | ⟨hk, rfl⟩
      · exact hsub fi hf
      · exact Or.inr (Or.inl ⟨w, hdl, hk, rfl⟩)
    · rcases hsup hc with hk | hc
      · exact hown hk
      · exact counted_cons _ hc
  · rw [h] at hown ⊢
    have hst : Spares k { s with dl := none } ({ s with dl := none }.stallAdd w.key) :=
      spares_stallAdd w.key
    refine ⟨⟨hst.past.latest, hst.past.contested, hst.past.overflow⟩,
      fun fi hf => hsub fi (hst.queued fi hf), fun ho hc => ?_, hst.deferred, hst.gone, hst.record⟩
    rcases hsup hc with hk | hc
    · exact hown hk
    · exact hst.counted ho hc

theorem spares_abort (k : Key) (s : Session) : Spares k s s.abortDownload := by
  unfold abortDownload
  cases hdl : s.dl with
  | none => exact .refl k s
  | some w => exact spares_end hdl true

/-! ### Deletions of other names -/

theorem spares_deferPush {f : FolderIdx} {m : SyncMeta} (hne : (f, m.name) ≠ k) {t : Session}
    (h : s.deferPush f m = some t) : Spares k s t := by
  unfold deferPush at h
  split at h
  · simp at h
  · rw [Option.some.injEq] at h
    subst h
    refine ⟨⟨rfl, rfl, id⟩, fun _ h => h, fun _ h => h, ?_, id, rfl⟩
    rintro (⟨d, hd, hn⟩ | h)
    · rcases List.mem_append.mp hd with hd | hd
      · exact Or.inl ⟨d, hd, hn⟩
      · rw [List.mem_singleton, Prod.mk.injEq] at hd
        obtain ⟨hf, rfl⟩ := hd
        exact absurd (Prod.ext hf.symm hn) hne
    · exact Or.inr h

theorem spares_spillDelete {f : FolderIdx} {m : SyncMeta} (hne : (f, m.name) ≠ k) (a : Answers) :
    Spares k s (s.spillDelete f m a) := by
  refine ⟨⟨rfl, rfl, id⟩, fun _ h => h, fun _ h => h, ?_, id, rfl⟩
  rintro (h | ⟨d, hd, hn⟩)
  · exact Or.inl h
  · have hd' : d ∈ Function.update s.spillDel f (if a.spill then s.spillDel f ++ [m] else []) k.1 :=
      hd
    rw [Function.update_apply] at hd'
    split at hd'
    · rename_i hf
      split at hd'
      · rcases List.mem_append.mp hd' with hd' | hd'
        · exact Or.inr ⟨d, hf ▸ hd', hn⟩
        · rw [List.mem_singleton] at hd'
          subst hd'
          exact absurd (Prod.ext hf.symm hn) hne
      · exact absurd hd' List.not_mem_nil
    · exact Or.inr ⟨d, hd', hn⟩

theorem spares_applyPeerDelete {f : FolderIdx} {m : SyncMeta} (hne : (f, m.name) ≠ k)
    (a : Answers) : Spares k s (s.applyPeerDelete f m a) := by
  unfold applyPeerDelete
  split
  · exact spares_store hne [] a.mem
  · exact .refl k s

theorem spares_applyPeerDirDelete {f : FolderIdx} {m : SyncMeta} (hne : (f, m.name) ≠ k)
    (a : Answers) : Spares k s (s.applyPeerDirDelete f m a).1 := by
  unfold applyPeerDirDelete
  split
  · exact .refl k s
  · split
    · exact spares_store hne [] a.mem
    · exact .refl k s

theorem spares_applyDeferred {cfg : Setup} {f : FolderIdx} {m : SyncMeta} (hne : (f, m.name) ≠ k)
    (a : Answers) : Spares k s (s.applyDeferred cfg f m a).1 := by
  unfold applyDeferred
  split
  · exact spares_applyPeerDirDelete hne a
  · split
    · exact spares_applyPeerDelete hne a
    · exact .refl k s

/-- Entries leave the list. -/
theorem spares_eraseIdx (i : Nat) : Spares k s { s with defer := s.defer.eraseIdx i } := by
  refine ⟨⟨rfl, rfl, id⟩, fun _ h => h, fun _ h => h, ?_, id, rfl⟩
  rintro (⟨d, hd, hn⟩ | h)
  · exact Or.inl ⟨d, List.mem_of_mem_eraseIdx hd, hn⟩
  · exact Or.inr h

theorem spares_flushOne {cfg : Setup} (hcalm : ¬ Deferred s k) (i : Nat) (giveUp : Bool)
    (a : Answers) : Spares k s (s.flushOne cfg i giveUp a) := by
  unfold flushOne
  cases hi : s.defer[i]? with
  | none => exact .refl k s
  | some d =>
    obtain ⟨f, m⟩ := d
    have hne : (f, m.name) ≠ k := by
      rintro rfl
      exact hcalm (Or.inl ⟨m, List.mem_of_getElem? hi, rfl⟩)
    dsimp only
    split
    · exact (spares_applyDeferred hne a).trans (spares_eraseIdx i)
    · exact spares_applyDeferred hne a

theorem spares_flush {cfg : Setup} (hcalm : ¬ Deferred s k) (picks : List (Nat × Bool × Answers)) :
    Spares k s (s.flushDeferred cfg picks) := by
  unfold flushDeferred
  induction picks generalizing s with
  | nil => exact .refl k s
  | cons p picks ih =>
    have h : Spares k s (s.flushOne cfg p.1 p.2.1 p.2.2) := spares_flushOne hcalm p.1 p.2.1 p.2.2
    exact h.trans (ih fun hd => hcalm (h.deferred hd))

theorem spares_drainOne {cfg : Setup} (hcalm : ¬ Deferred s k) (f : FolderIdx) (readable : Bool)
    (a : Answers) : Spares k s (s.drainOne cfg f readable a) := by
  unfold drainOne
  cases hsp : s.spillDel f with
  | nil => exact .refl k s
  | cons m rest =>
    have hne : (f, m.name) ≠ k := by
      rintro rfl
      exact hcalm (Or.inr ⟨m, hsp ▸ List.mem_cons_self, rfl⟩)
    have hpop : ∀ l, l ⊆ s.spillDel f → ∀ o, (s.wantOverflow = true → o = true) →
        Spares k s { s with spillDel := Function.update s.spillDel f l, wantOverflow := o } := by
      intro l hl o ho
      refine ⟨⟨rfl, rfl, ho⟩, fun _ h => h, fun _ h => h, ?_, id, rfl⟩
      rintro (h | ⟨d, hd, hn⟩)
      · exact Or.inl h
      · have hd' : d ∈ Function.update s.spillDel f l k.1 := hd
        rw [Function.update_apply] at hd'
        split at hd'
        · rename_i hf
          exact Or.inr ⟨d, hf ▸ hl hd', hn⟩
        · exact Or.inr ⟨d, hd', hn⟩
    dsimp only
    split
    · exact hpop [] (List.nil_subset _) true fun _ => rfl
    · have hrest := hpop rest (hsp ▸ List.subset_cons_self m rest) s.wantOverflow id
      have happ : Spares k s ({ s with spillDel := Function.update s.spillDel f rest }.applyDeferred
          cfg f m a).1 := hrest.trans (spares_applyDeferred hne a)
      split
      · exact happ
      · cases hp : ({ s with spillDel := Function.update s.spillDel f rest }.applyDeferred
            cfg f m a).1.deferPush f m with
        | none => exact happ
        | some t => exact happ.trans (spares_deferPush hne hp)

/-! ### Records of other names -/

theorem spares_note (hne : k ≠ k') (w : Wanted) (waiting : Bool) :
    Spares k s (s.note k' w waiting) :=
  ⟨⟨Function.update_of_ne hne _ _, Function.update_of_ne hne _ _, id⟩, fun _ h => h, fun _ h => h,
    id, id, rfl⟩

theorem hsetHas_hsetAdd {cap : Nat} {h : HSet} {n m : Name} (hne : nameHash m ≠ nameHash n)
    (hv : hsetHas (hsetAdd cap h m).1 n = true) : hsetHas h n = true := by
  unfold hsetAdd at hv
  split at hv
  · exact hv
  · split at hv
    · exact hv
    · unfold hsetHas at hv ⊢
      simpa [hne.symm] using hv

theorem hsetHas_hsetDrop {h : HSet} {n m : Name} (hv : hsetHas (hsetDrop h m) n = true) :
    hsetHas h n = true := by
  unfold hsetHas hsetDrop at *
  by_cases he : nameHash n = nameHash m
  · have hnot := (nodup_dropFirst h.nodup (nameHash m)).2
    rw [he] at hv
    exact absurd (by simpa using hv) hnot
  · rw [decide_eq_true_eq] at hv ⊢
    exact (mem_dropFirst_of_ne h.hashes he).mp hv

theorem not_hsetHas_hsetDrop (h : HSet) (n : Name) : hsetHas (hsetDrop h n) n = false := by
  unfold hsetHas hsetDrop
  exact decide_eq_false (nodup_dropFirst h.nodup (nameHash n)).2

/-- The spill of a folder is given up. -/
theorem queued_of_closed {f : FolderIdx} {t : Session} {fi : SyncMeta} (h : Queued t k fi)
    (hw : t.want = s.want) (hd : t.dl = s.dl) (hs : t.spill = Function.update s.spill f []) :
    Queued s k fi := by
  rcases h with h | h | ⟨w, hm, hw'⟩
  · exact Or.inl (hw ▸ h)
  · exact Or.inr (Or.inl (hd ▸ h))
  · rw [hs, Function.update_apply] at hm
    split at hm
    · exact absurd hm List.not_mem_nil
    · exact Or.inr (Or.inr ⟨w, hm, hw'⟩)

theorem spares_addGone {f : FolderIdx} {n : Name} (hne : f = k.1 → nameHash n ≠ nameHash k.2) :
    Spares k s (s.addGone f n) := by
  unfold addGone
  dsimp only
  split
  · refine ⟨⟨rfl, rfl, fun _ => rfl⟩, fun fi hf => queued_of_closed hf rfl rfl rfl,
      fun ho => absurd ho (by simp), id, fun hg => ?_, rfl⟩
    dsimp only at hg
    rw [Function.update_apply] at hg
    split at hg
    · simp [hsetHas, HSet.empty] at hg
    · exact hg
  · refine ⟨⟨rfl, rfl, id⟩, fun _ h => h, fun _ h => h, id, fun hg => ?_, rfl⟩
    dsimp only at hg
    rw [Function.update_apply] at hg
    split at hg
    · rename_i hf
      rw [hf]
      exact hsetHas_hsetAdd (hne hf.symm) hg
    · exact hg

theorem spares_dropTransfer (k : Key) (s : Session) (n : Name) :
    Spares k s (if s.dl.any (fun w => w.name = n) then s.abortDownload else s) := by
  split
  · exact spares_abort k s
  · exact .refl k s

theorem spares_enqueue {f : FolderIdx} {w : Wanted} (hne : (f, w.fi.name) ≠ k) (conflict : Bool)
    (a : Answers) : Spares k s (s.enqueue f w conflict a).1 := by
  unfold enqueue
  split
  · exact .refl k s
  · split
    · exact spares_store (m := unstorableRecord w.fi) hne [] a.mem
    · split
      · rename_i q hq
        rw [syncWantPushAgain_some hq]
        exact spares_push hne
      · split
        · refine ⟨⟨rfl, rfl, id⟩, fun fi hf => ?_, fun _ hc => ?_, id, id, rfl⟩
          · rcases hf with h | h | ⟨v, hv, hn, hfi⟩
            · exact Or.inl h
            · exact Or.inr (Or.inl h)
            · have hv' : v ∈ Function.update s.spill f (s.spill f ++ [w]) k.1 := hv
              rw [Function.update_apply] at hv'
              split at hv'
              · rename_i hf
                rcases List.mem_append.mp hv' with hv' | hv'
                · exact Or.inr (Or.inr ⟨v, hf ▸ hv', hn, hfi⟩)
                · rw [List.mem_singleton] at hv'
                  subst hv'
                  exact absurd (Prod.ext hf.symm hn) hne
              · exact Or.inr (Or.inr ⟨v, hv', hn, hfi⟩)
          · rcases hc with ⟨fi, h | h | ⟨v, hv, hk⟩⟩ | h | h
            · exact Or.inl ⟨fi, Or.inl h⟩
            · exact Or.inl ⟨fi, Or.inr (Or.inl h)⟩
            · refine Or.inl ⟨fi, Or.inr (Or.inr ⟨v, ?_, hk⟩)⟩
              show v ∈ Function.update s.spill f (s.spill f ++ [w]) k.1
              rw [Function.update_apply]
              split
              · rename_i hf
                exact List.mem_append_left _ (hf ▸ hv)
              · exact hv
            · exact Or.inr (Or.inl h)
            · exact Or.inr (Or.inr h)
        · exact ⟨⟨rfl, rfl, fun _ => rfl⟩, fun fi hf => queued_of_closed hf rfl rfl rfl,
            fun ho => absurd ho (by simp), id, id, rfl⟩

theorem spares_carryOut {f : FolderIdx} {w : Wanted} (hne : (f, w.fi.name) ≠ k) (a : Answers)
    (act : SyncAction) : Spares k s (s.carryOut f w a act).1 := by
  cases act with
  | ignore => exact .refl k s
  | adopt => exact spares_adopt hne
  | fetch => exact spares_enqueue hne false a
  | conflict => exact spares_enqueue hne true a
  | delete =>
    rw [carryOut]
    cases hp : s.deferPush f w.fi with
    | some t => exact spares_deferPush hne hp
    | none =>
      dsimp only
      split
      · exact spares_spillDelete hne a
      · exact (spares_spillDelete hne a).trans (spares_applyPeerDelete hne a)

theorem spares_applyPeerDir {f : FolderIdx} {d : SyncMeta} (hne : (f, d.name) ≠ k) (a : Answers) :
    Spares k s (s.applyPeerDir f d a) := by
  unfold applyPeerDir
  split
  · exact .refl k s
  · split
    · exact spares_stallAdd _
    · split
      · exact spares_store hne [] a.mem
      · exact .refl k s

theorem spares_handleDir {cfg : Setup} (hcalm : ¬ Deferred s k) {f : FolderIdx} {d : SyncMeta}
    (hne : (f, d.name) ≠ k) (a : Answers) (picks : List (Nat × Bool × Answers)) :
    Spares k s (s.handleDir cfg f d a picks) := by
  unfold handleDir
  split
  · exact .refl k s
  · split
    · exact spares_applyPeerDir hne a
    · cases hp : s.deferPush f d with
      | some t => exact spares_deferPush hne hp
      | none =>
        have hflush : Spares k s (s.flushDeferred cfg picks) := spares_flush hcalm picks
        dsimp only
        cases hq : (s.flushDeferred cfg picks).deferPush f d with
        | some t => exact hflush.trans (spares_deferPush hne hq)
        | none =>
          have hspill : Spares k s ((s.flushDeferred cfg picks).spillDelete f d a) :=
            hflush.trans (spares_spillDelete hne a)
          dsimp only
          split
          · exact hspill
          · exact hspill.trans (spares_applyPeerDirDelete hne a)

/-! ### Steps that may concern any name -/

theorem past_applyDeferred (k : Key) (cfg : Setup) (s : Session) (f : FolderIdx) (m : SyncMeta)
    (a : Answers) : Past k s (s.applyDeferred cfg f m a).1 := by
  unfold applyDeferred applyPeerDirDelete applyPeerDelete
  repeat' split
  all_goals exact ⟨rfl, rfl, id⟩

theorem past_flushOne (k : Key) (cfg : Setup) (s : Session) (i : Nat) (giveUp : Bool)
    (a : Answers) : Past k s (s.flushOne cfg i giveUp a) := by
  unfold flushOne
  cases s.defer[i]? with
  | none => exact .refl k s
  | some d =>
    have happ := past_applyDeferred k cfg s d.1 d.2 a
    dsimp only
    split
    · exact happ.trans ⟨rfl, rfl, id⟩
    · exact happ

theorem past_flush (k : Key) (cfg : Setup) (s : Session) (picks : List (Nat × Bool × Answers)) :
    Past k s (s.flushDeferred cfg picks) := by
  unfold flushDeferred
  induction picks generalizing s with
  | nil => exact .refl k s
  | cons p picks ih => exact (past_flushOne k cfg s p.1 p.2.1 p.2.2).trans (ih _)

theorem past_deferPush (k : Key) {f : FolderIdx} {m : SyncMeta} {t : Session}
    (h : s.deferPush f m = some t) : Past k s t := by
  unfold deferPush at h
  split at h
  · simp at h
  · rw [Option.some.injEq] at h
    subst h
    exact ⟨rfl, rfl, id⟩

theorem past_drainOne (k : Key) (cfg : Setup) (s : Session) (f : FolderIdx) (readable : Bool)
    (a : Answers) : Past k s (s.drainOne cfg f readable a) := by
  unfold drainOne
  cases s.spillDel f with
  | nil => exact .refl k s
  | cons m rest =>
    dsimp only
    split
    · exact ⟨rfl, rfl, fun _ => rfl⟩
    · have hpop : Past k s { s with spillDel := Function.update s.spillDel f rest } := ⟨rfl, rfl, id⟩
      have happ := hpop.trans (past_applyDeferred k cfg _ f m a)
      split
      · exact happ
      · cases hp : ({ s with spillDel := Function.update s.spillDel f rest }.applyDeferred
            cfg f m a).1.deferPush f m with
        | none => exact happ
        | some t => exact happ.trans (past_deferPush k hp)

theorem past_handleDir (cfg : Setup) {f : FolderIdx} {d : SyncMeta} (hne : (f, d.name) ≠ k)
    (a : Answers) (picks : List (Nat × Bool × Answers)) :
    Past k s (s.handleDir cfg f d a picks) := by
  unfold handleDir
  split
  · exact .refl k s
  · split
    · exact (spares_applyPeerDir hne a).past
    · cases hp : s.deferPush f d with
      | some t => exact past_deferPush k hp
      | none =>
        have hflush := past_flush k cfg s picks
        dsimp only
        cases hq : (s.flushDeferred cfg picks).deferPush f d with
        | some t => exact hflush.trans (past_deferPush k hq)
        | none =>
          dsimp only
          split
          · exact hflush.trans (spares_spillDelete hne a).past
          · exact (hflush.trans (spares_spillDelete hne a).past).trans
              (spares_applyPeerDirDelete hne a).past

theorem spares_handleFile {cfg : Setup} {f : FolderIdx} {w : Wanted} (hne : (f, w.fi.name) ≠ k)
    (hcol : w.fi.deleted = true → f = k.1 → nameHash w.fi.name ≠ nameHash k.2) (a : Answers) :
    Spares k s (s.handleFile cfg f w a).1 := by
  have hdrop : Spares k s
      { s with gone := Function.update s.gone f (hsetDrop (s.gone f) w.fi.name) } := by
    refine ⟨⟨rfl, rfl, id⟩, fun _ h => h, fun _ h => h, id, fun hg => ?_, rfl⟩
    dsimp only at hg
    rw [Function.update_apply] at hg
    split at hg
    · rename_i hf
      rw [hf]
      exact hsetHas_hsetDrop hg
    · exact hg
  unfold handleFile
  cases hd : w.fi.deleted with
  | false =>
    simp only [Bool.false_eq_true, ↓reduceIte, Bool.false_and]
    exact hdrop.trans (spares_carryOut hne a _)
  | true =>
    simp only [↓reduceIte, Bool.true_and]
    split
    · exact ((spares_dropTransfer k s _).trans (spares_addGone (hcol hd))).trans
        (spares_carryOut hne a _)
    · exact spares_carryOut hne a _

/-- **Other names.** The record of another name leaves the history of the name alone, and the rest
too if no deletion of it waits. -/
theorem receive_other {cfg : Setup} {f : FolderIdx} {w : Wanted} (hne : (f, w.fi.name) ≠ k)
    (hcol : w.fi.deleted = true → f = k.1 → nameHash w.fi.name ≠ nameHash k.2) (a : Answers)
    (picks : List (Nat × Bool × Answers)) :
    Past k s (s.receive cfg f w a picks).1 ∧
      (¬ Deferred s k → Spares k s (s.receive cfg f w a picks).1) := by
  have hclear : Spares k s (s.stallClear (f, w.fi.name)) := spares_stallClear (Ne.symm hne)
  have hnote : ∀ t : Session, Spares k t
      (t.note (f, w.fi.name) (w.withContent cfg.sha) (s.waiting (f, w.fi.name))) :=
    fun t => spares_note (Ne.symm hne) _ _
  have hall : ∀ t : Session, Spares k s t → Past k s (t.note (f, w.fi.name) (w.withContent cfg.sha)
      (s.waiting (f, w.fi.name))) ∧ (¬ Deferred s k → Spares k s (t.note (f, w.fi.name)
        (w.withContent cfg.sha) (s.waiting (f, w.fi.name)))) :=
    fun t ht => ⟨(ht.trans (hnote t)).past, fun _ => ht.trans (hnote t)⟩
  unfold Session.receive handleRecord
  dsimp only
  split
  · exact hall s (.refl k s)
  · split
    · exact hall s (.refl k s)
    · split
      · refine ⟨(hclear.past.trans (past_handleDir cfg hne a picks)).trans (hnote _).past, fun hcalm => ?_⟩
        exact (hclear.trans (spares_handleDir (fun h => hcalm (hclear.deferred h)) hne a picks)).trans
          (hnote _)
      · split
        · exact hall _ hclear
        · split
          · exact hall _ hclear
          · refine hall _ (hclear.trans (spares_handleFile ?_ ?_ a))
            · rw [withContent_name]
              exact hne
            · rw [withContent_name, withContent_deleted]
              exact hcol

end Other

/-! ## The last record of a name -/

/-- A live file that is ours to fetch. -/
structure Admissible (cfg : Setup) (f : FolderIdx) (v : Wanted) : Prop where
  valid : v.fi.invalid = false
  safe : pathNameSafe v.fi.name = true
  file : v.fi.type = .file
  live : v.fi.deleted = false
  shown : cfg.ign f v.fi.name = false

/-- Nothing is left to fetch of the record, or it is recorded as one we cannot store. -/
def Done (cfg : Setup) (s : Session) (k : Key) (v : Wanted) : Prop :=
  Satisfied (s.record k) (cfg.mode k.1) v.fi ∨
    ∃ r, s.record k = some r ∧ r.invalid = true ∧ r.version = v.fi.version

/-- Whatever waits under the name is this record, and it is counted until it is done. -/
structure Facts (cfg : Setup) (s : Session) (k : Key) (v : Wanted) : Prop where
  name : v.fi.name = k.2
  live : v.fi.deleted = false
  shown : cfg.ign k.1 k.2 = false
  same : ∀ fi, Queued s k fi → fi = v.fi ∧ v.fi.contentHash.isSome = true
  calm : ¬ Deferred s k
  here : hsetHas (s.gone k.1) k.2 = false
  accounted : s.wantOverflow = false → Counted s k ∨ Done cfg s k v

def Tracked (cfg : Setup) (k : Key) (s : Session) : Prop :=
  ∀ v, s.latest k = some v → s.contested k = false → Admissible cfg k.1 v → Facts cfg s k v

section Track
variable {cfg : Setup} {k : Key} {s t : Session} {v : Wanted}

theorem Facts.spared (h : Facts cfg s k v) (hs : Spares k s t) : Facts cfg t k v := by
  refine ⟨h.name, h.live, h.shown, fun fi hf => h.same fi (hs.queued fi hf),
    fun hd => h.calm (hs.deferred hd), ?_, fun ho => ?_⟩
  · cases hg : hsetHas (t.gone k.1) k.2 with
    | false => rfl
    | true => exact absurd (hs.gone hg) (by simp [h.here])
  · have hso : s.wantOverflow = false := by
      cases hs' : s.wantOverflow with
      | false => rfl
      | true => exact absurd (hs.past.overflow hs') (by simp [ho])
    rcases h.accounted hso with hc | hd
    · exact Or.inl (hs.counted ho hc)
    · refine Or.inr ?_
      unfold Done at hd ⊢
      rw [hs.record]
      exact hd

/-- The history of the name is as it was. -/
theorem Tracked.mono (h : Tracked cfg k s) (hp : Past k s t)
    (hf : ∀ v, Facts cfg s k v → Facts cfg t k v) : Tracked cfg k t := by
  intro v hl hc ha
  exact hf v (h v (hp.latest ▸ hl) (hp.contested ▸ hc) ha)

/-! ### Its record in the index -/

theorem record_store_self {f : FolderIdx} {m : SyncMeta} (hk : (f, m.name) = k) (blocks : List Hash)
    {mem : UpsertMem} (hmem : mem.slot = true) :
    ∃ q, (s.store f m blocks mem).record k = some { m with sequence := q } := by
  subst hk
  refine ⟨(s.index f).sequence + 1, ?_⟩
  unfold Session.record Session.store
  dsimp only
  rw [Function.update_self, FolderState.record,
    (s.index f).find_store_of_room mem (Or.inr hmem) blocks]
  rfl

/-- A file that was stored is not fetched again. -/
theorem done_store {f : FolderIdx} (hk : (f, v.fi.name) = k) (hlive : v.fi.deleted = false)
    (hcontent : v.fi.contentHash.isSome = true) (blocks : List Hash) {mem : UpsertMem}
    (hmem : mem.slot = true) : Done cfg (s.store f v.fi blocks mem) k v := by
  obtain ⟨q, hq⟩ := record_store_self (s := s) hk blocks hmem
  refine Or.inl ?_
  rw [hq]
  refine satisfied_of_same _ hlive ?_
  obtain ⟨c, hc⟩ := Option.isSome_iff_exists.mp hcontent
  rw [syncContentSame_iff]
  exact ⟨rfl, c, hc, hc⟩

theorem done_unstorable {f : FolderIdx} (hk : (f, v.fi.name) = k) {mem : UpsertMem}
    (hmem : mem.slot = true) : Done cfg (s.store f (unstorableRecord v.fi) [] mem) k v := by
  obtain ⟨q, hq⟩ := record_store_self (s := s) (m := unstorableRecord v.fi) hk [] hmem
  exact Or.inr ⟨_, hq, rfl, rfl⟩

/-- A record that was adopted is not fetched. -/
theorem done_adopt {f : FolderIdx} (hk : (f, v.fi.name) = k)
    (hact : syncClassifyIncoming (s.record k) (cfg.mode f) v.fi = .adopt)
    (hlive : v.fi.deleted = false) : Done cfg (s.adopt f v.fi) k v := by
  subst hk
  cases hfind : (s.index f).find v.fi.name with
  | none =>
    have hnone : s.record (f, v.fi.name) = none := by
      rw [Session.record, FolderState.record, hfind]
      rfl
    rw [hnone] at hact
    simp only [syncClassifyIncoming, hlive] at hact
    split at hact <;> simp at hact
  | some u =>
    have hrec : s.record (f, v.fi.name) = some u.record := by
      rw [Session.record, FolderState.record, hfind]
      rfl
    rw [hrec] at hact
    have hv := verdict_classify u.record v.fi (cfg.mode f)
    rw [hact] at hv
    cases hv with
    | adopt live same =>
      have hnew : (s.adopt f v.fi).record (f, v.fi.name) =
          some { adoptRecord u.record v.fi ((s.index f).sequence + 1) with
            sequence := (s.index f).sequence + 1 } := by
        unfold Session.record Session.adopt
        dsimp only
        rw [Function.update_self, FolderState.record, (s.index f).find_adopt_self hfind live]
        rfl
      refine Or.inl ?_
      rw [hnew]
      refine satisfied_of_same _ live ?_
      rw [syncContentSame_iff] at same ⊢
      exact same

/-! ### Its receipt -/

/-- Nothing of the name waits, and the peer has not deleted it since. -/
structure Clear (s : Session) (k : Key) : Prop where
  idle : ∀ fi, ¬ Queued s k fi
  calm : ¬ Deferred s k
  here : hsetHas (s.gone k.1) k.2 = false

theorem facts_enqueue {f : FolderIdx} (hk : (f, v.fi.name) = k) (hclear : Clear s k)
    (hlive : v.fi.deleted = false) (hshown : cfg.ign k.1 k.2 = false)
    (hcontent : v.tooLarge = false → v.fi.contentHash.isSome = true) (conflict : Bool) {a : Answers}
    (hmem : a.mem.slot = true) : Facts cfg (s.enqueue f v conflict a).1 k v := by
  have hname : v.fi.name = k.2 := congrArg Prod.snd hk
  have hfree : (s.dl.any (fun d => d.folderIdx = f && d.name = v.fi.name) ||
      syncWantHas s.want f v.fi.name) = false := by
    rw [Bool.or_eq_false_iff]
    constructor
    · cases hdl : s.dl with
      | none => rfl
      | some w =>
        rw [Option.any_some]
        refine Bool.eq_false_iff.mpr fun hw => hclear.idle w.fi (Or.inr (Or.inl ⟨w, hdl, ?_, rfl⟩))
        simp only [Bool.and_eq_true, decide_eq_true_eq] at hw
        rw [← hk]
        exact Prod.ext hw.1 hw.2
    · unfold syncWantHas
      rw [List.any_eq_false]
      intro w hw hmatch
      refine hclear.idle w.fi (Or.inl ⟨w, hw, ?_, rfl⟩)
      simp only [Bool.and_eq_true, decide_eq_true_eq] at hmatch
      rw [← hk]
      exact Prod.ext hmatch.1 hmatch.2
  unfold enqueue
  rw [hfree, if_neg (by simp)]
  split
  · exact ⟨hname, hlive, hshown, fun fi hf => absurd hf (hclear.idle fi), hclear.calm, hclear.here,
      fun _ => Or.inr (done_unstorable hk hmem)⟩
  · rename_i hfits
    have hsome := hcontent (by simpa using hfits)
    split
    · rename_i q hq
      rw [syncWantPushAgain_some hq]
      refine ⟨hname, hlive, hshown, fun fi hf => ?_, hclear.calm, hclear.here, fun _ => Or.inl ?_⟩
      · rcases queued_cons hf with hf | ⟨-, rfl⟩
        · exact absurd hf (hclear.idle fi)
        · exact ⟨rfl, hsome⟩
      · exact Or.inl ⟨v.fi, Or.inl ⟨_, List.mem_cons_self, hk, rfl⟩⟩
    · split
      · refine ⟨hname, hlive, hshown, fun fi hf => ?_, hclear.calm, hclear.here, fun _ => Or.inl ?_⟩
        · rcases hf with h | h | ⟨w, hw, hn, rfl⟩
          · exact absurd (Or.inl h) (hclear.idle fi)
          · exact absurd (Or.inr (Or.inl h)) (hclear.idle fi)
          · have hw' : w ∈ Function.update s.spill f (s.spill f ++ [v]) k.1 := hw
            rw [← hk, Function.update_self] at hw'
            rcases List.mem_append.mp hw' with hw' | hw'
            · refine absurd (Or.inr (Or.inr ⟨w, ?_, hn, rfl⟩)) (hclear.idle w.fi)
              rw [← hk]
              exact hw'
            · rw [List.mem_singleton] at hw'
              exact ⟨congrArg Wanted.fi hw', hsome⟩
        · refine Or.inl ⟨v.fi, Or.inr (Or.inr ⟨v, ?_, hname, rfl⟩)⟩
          show v ∈ Function.update s.spill f (s.spill f ++ [v]) k.1
          rw [← hk, Function.update_self]
          simp
      · refine ⟨hname, hlive, hshown, fun fi hf => ?_, hclear.calm, hclear.here,
          fun ho => absurd ho (by simp)⟩
        have hold : Queued s k fi := queued_of_closed hf rfl rfl rfl
        exact absurd hold (hclear.idle fi)

theorem facts_handleFile {f : FolderIdx} (hk : (f, v.fi.name) = k) (hidle : ∀ fi, ¬ Queued s k fi)
    (hcalm : ¬ Deferred s k) (hlive : v.fi.deleted = false) (hshown : cfg.ign k.1 k.2 = false)
    (hcontent : v.tooLarge = false → v.fi.contentHash.isSome = true) {a : Answers}
    (hmem : a.mem.slot = true) : Facts cfg (s.handleFile cfg f v a).1 k v := by
  have hname : v.fi.name = k.2 := congrArg Prod.snd hk
  have hf : f = k.1 := congrArg Prod.fst hk
  unfold handleFile
  simp only [hlive, Bool.false_eq_true, ↓reduceIte, Bool.false_and]
  have hclear : Clear { s with gone := Function.update s.gone f (hsetDrop (s.gone f) v.fi.name) } k := by
    refine ⟨hidle, hcalm, ?_⟩
    dsimp only
    rw [← hf, Function.update_self, hname]
    exact not_hsetHas_hsetDrop _ _
  rw [hk]
  cases hact : syncClassifyIncoming (s.record k) (cfg.mode f) v.fi with
  | ignore =>
    refine ⟨hname, hlive, hshown, fun fi hq => absurd hq (hclear.idle fi), hclear.calm, hclear.here,
      fun _ => Or.inr (Or.inl ?_)⟩
    show Satisfied (s.record k) (cfg.mode k.1) v.fi
    rw [Satisfied, ← hf, hact]
    exact ⟨by simp, by simp⟩
  | adopt =>
    exact ⟨hname, hlive, hshown, fun fi hq => absurd hq (hclear.idle fi), hclear.calm, hclear.here,
      fun _ => Or.inr (done_adopt hk hact hlive)⟩
  | fetch => exact facts_enqueue hk hclear hlive hshown hcontent false hmem
  | conflict => exact facts_enqueue hk hclear hlive hshown hcontent true hmem
  | delete =>
    -- a live record deletes nothing
    cases hrec : s.record k with
    | none =>
      rw [hrec] at hact
      simp only [syncClassifyIncoming, hlive] at hact
      split at hact <;> simp at hact
    | some h =>
      rw [hrec] at hact
      have hv := verdict_classify h v.fi (cfg.mode f)
      rw [hact] at hv
      cases hv with
      | delete gone _ => simp [hlive] at gone

/-- **Own records.** The record of the name is the last one received, and accounted for if
nothing of the name was waiting. -/
theorem tracked_receive {f : FolderIdx} {w : Wanted} (hk : (f, w.fi.name) = k) {a : Answers}
    (hmem : a.mem.slot = true) (picks : List (Nat × Bool × Answers)) :
    Tracked cfg k (s.receive cfg f w a picks).1 := by
  intro v hl hc ha
  unfold Session.receive at hl hc ⊢
  dsimp only [Session.note] at hl hc ⊢
  rw [hk, Function.update_self, Option.some.injEq] at hl
  rw [hk, Function.update_self] at hc
  obtain ⟨hidle, hcalm⟩ := not_queued_of_waiting hc
  have hfile : (s.handleRecord cfg f w a picks).1 =
      ((s.stallClear k).handleFile cfg f v a).1 := by
    unfold handleRecord
    rw [← hl] at ha
    have h₁ := ha.valid
    have h₂ := ha.safe
    have h₃ := ha.file
    have h₅ := ha.shown
    rw [withContent_invalid] at h₁
    rw [withContent_name] at h₂ h₅
    rw [withContent_type] at h₃
    have hf : f = k.1 := congrArg Prod.fst hk
    rw [← hf] at h₅
    simp [h₁, h₂, h₃, h₅, hk, hl]
  have hlive : w.fi.deleted = false := by
    have h := ha.live
    rwa [← hl, withContent_deleted] at h
  have hkv : (f, v.fi.name) = k := by
    rw [← hl, withContent_name]
    exact hk
  have hshown : cfg.ign k.1 k.2 = false := by
    have h := ha.shown
    rwa [← hl, withContent_name, show w.fi.name = k.2 from congrArg Prod.snd hk] at h
  have hcontent : v.tooLarge = false → v.fi.contentHash.isSome = true := by
    rw [← hl]
    exact withContent_isSome cfg.sha w hlive
  have hidle' : ∀ fi, ¬ Queued (s.stallClear k) k fi := hidle
  have hfacts : Facts cfg ((s.stallClear k).handleFile cfg f v a).1 k v :=
    facts_handleFile hkv hidle' hcalm ha.live hshown hcontent hmem
  rw [hfile]
  exact ⟨hfacts.name, hfacts.live, hfacts.shown, hfacts.same, hfacts.calm, hfacts.here,
    hfacts.accounted⟩

/-! ### Its transfer -/

/-- The queue without its first entry. -/
theorem queued_pop {w : WantFile} {rest : List WantFile} (hw : s.want = w :: rest) {fi : SyncMeta}
    (h : Queued { s with want := rest } k fi) : Queued s k fi := by
  rcases h with ⟨x, hx, hk⟩ | h | h
  · exact Or.inl ⟨x, hw ▸ List.mem_cons_of_mem _ hx, hk⟩
  · exact Or.inr (Or.inl h)
  · exact Or.inr (Or.inr h)

theorem spares_pop {w : WantFile} {rest : List WantFile} (hw : s.want = w :: rest)
    (hne : w.key ≠ k) : Spares k s { s with want := rest } := by
  refine ⟨⟨rfl, rfl, id⟩, fun fi hf => queued_pop hw hf, fun _ hc => ?_, id, id, rfl⟩
  rcases hc with ⟨fi, ⟨x, hx, hk⟩ | h | h⟩ | h | h
  · rw [hw] at hx
    rcases List.mem_cons.mp hx with rfl | hx
    · exact absurd hk.1 hne
    · exact Or.inl ⟨fi, Or.inl ⟨x, hx, hk⟩⟩
  · exact Or.inl ⟨fi, Or.inr (Or.inl h)⟩
  · exact Or.inl ⟨fi, Or.inr (Or.inr h)⟩
  · exact Or.inr (Or.inl h)
  · exact Or.inr (Or.inr h)

/-- The conflict copy is of another name. -/
theorem spares_preserveLocal {a : Answers} (hcopy : a.copy ≠ some k.2) (k' : Key) :
    Spares k s (s.preserveLocal k' a) := by
  unfold preserveLocal
  split
  · rename_i u cn hu hcn
    split
    · exact .refl k s
    · refine spares_store (fun e => hcopy ?_) _ _
      rw [hcn]
      exact congrArg (fun q : Key => some q.2) e
  · exact .refl k s

theorem spares_dl {w : WantFile} (hdl : s.dl = none) (hne : w.key ≠ k) :
    Spares k s { s with dl := some w } := by
  refine ⟨⟨rfl, rfl, id⟩, fun fi hf => ?_, fun _ hc => ?_, id, id, rfl⟩
  · rcases hf with h | ⟨x, hx, hk⟩ | h
    · exact Or.inl h
    · rw [Option.some.injEq] at hx
      exact absurd (hx ▸ hk.1) hne
    · exact Or.inr (Or.inr h)
  · rcases hc with ⟨fi, h | ⟨x, hx, -⟩ | h⟩ | h | h
    · exact Or.inl ⟨fi, Or.inl h⟩
    · rw [hdl] at hx
      exact absurd hx (by simp)
    · exact Or.inl ⟨fi, Or.inr (Or.inr h)⟩
    · exact Or.inr (Or.inl h)
    · exact Or.inr (Or.inr h)

theorem preserveLocal_dl (s : Session) (k : Key) (a : Answers) : (s.preserveLocal k a).dl = s.dl := by
  unfold preserveLocal
  repeat' split
  all_goals rfl

theorem spares_moveAside {a : Answers} (hcopy : a.copy ≠ some k.2) (w : WantFile) :
    Spares k s (if w.conflict then s.preserveLocal w.key a else s) := by
  split
  · exact spares_preserveLocal hcopy w.key
  · exact .refl k s

/-- A file of another name is started. -/
theorem spares_startEntry {a : Answers} (hcopy : a.copy ≠ some k.2) {w : WantFile}
    (hdl : s.dl = none) (hne : w.key ≠ k) : Spares k s (s.startEntry w a) := by
  unfold startEntry
  split
  · exact .refl k s
  · split
    · exact spares_store (m := unstorableRecord w.fi) hne [] a.mem
    · have hmoved : Spares k s (if w.conflict then s.preserveLocal w.key a else s) :=
        spares_moveAside hcopy w
      have hidle : (if w.conflict then s.preserveLocal w.key a else s).dl = none := by
        split
        · rw [preserveLocal_dl]
          exact hdl
        · exact hdl
      dsimp only
      split
      · exact hmoved.trans (spares_dl hidle hne)
      · exact hmoved.trans (spares_requeue (w := { w with attempts := w.attempts + 1 }) hne true)

theorem startDownload_cons {a : Answers} {w : WantFile} {rest : List WantFile} (hdl : s.dl = none)
    (hw : s.want = w :: rest) :
    s.startDownload a = { s with want := rest }.startEntry w a := by
  unfold Session.startDownload
  split
  · rename_i w' rest' _ hw'
    obtain ⟨rfl, rfl⟩ := List.cons.inj (hw.symm.trans hw')
    rfl
  · rename_i hnot
    exact absurd hw (hnot w rest hdl)

/-- The facts that do not depend on where the record is. -/
theorem Facts.moved (h : Facts cfg s k v) (hq : ∀ fi, Queued t k fi → Queued s k fi)
    (hd : Deferred t k → Deferred s k) (hg : hsetHas (t.gone k.1) k.2 = true →
      hsetHas (s.gone k.1) k.2 = true) (ha : t.wantOverflow = false → Counted t k ∨ Done cfg t k v) :
    Facts cfg t k v := by
  refine ⟨h.name, h.live, h.shown, fun fi hf => h.same fi (hq fi hf), fun hd' => h.calm (hd hd'), ?_,
    ha⟩
  cases hgone : hsetHas (t.gone k.1) k.2 with
  | false => rfl
  | true => exact absurd (hg hgone) (by simp [h.here])

/-- The entry that was popped is the record itself. -/
theorem facts_startEntry (h : Facts cfg s k v) {a : Answers} (hmem : a.mem.slot = true)
    (hcopy : a.copy ≠ some k.2) {w : WantFile} {u : Session} (hk : w.key = k)
    (hheld : Queued s k w.fi) (hpop : ∀ fi, Queued u k fi → Queued s k fi)
    (hd : Deferred u k → Deferred s k) (hg : u.gone = s.gone) :
    Facts cfg (u.startEntry w a) k v := by
  obtain ⟨hfi, hcontent⟩ := h.same w.fi hheld
  have hkv : (w.folderIdx, v.fi.name) = k := by
    rw [← hfi]
    exact hk
  have hgone : hsetHas (u.gone k.1) k.2 = true → hsetHas (s.gone k.1) k.2 = true := hg ▸ id
  unfold startEntry
  split
  · rename_i hskip
    refine h.moved hpop hd hgone fun _ => Or.inr (Or.inl ?_)
    have hhere : hsetHas (u.gone w.folderIdx) w.name = false := by
      rw [hg, show w.folderIdx = k.1 from congrArg Prod.fst hk,
        show w.name = k.2 from congrArg Prod.snd hk]
      exact h.here
    rw [hhere, Bool.or_false, hk] at hskip
    cases hr : u.record k with
    | none => simp [alreadyHave, hr] at hskip
    | some r =>
      simp only [alreadyHave, hr, Option.any_some, Bool.and_eq_true, Bool.not_eq_true', hfi] at hskip
      exact satisfied_of_same _ hskip.1 hskip.2
  · split
    · refine h.moved hpop hd hgone fun _ => Or.inr ?_
      rw [hfi]
      exact done_unstorable hkv hmem
    · have hmoved : Spares k u (if w.conflict then u.preserveLocal w.key a else u) :=
        spares_moveAside hcopy w
      dsimp only
      split
      · refine h.moved (fun fi hq => ?_) (hd ∘ hmoved.deferred) (hgone ∘ hmoved.gone)
          fun _ => Or.inl (Or.inl ⟨w.fi, Or.inr (Or.inl ⟨_, rfl, hk, rfl⟩)⟩)
        rcases hq with hq | ⟨x, hx, -, rfl⟩ | hq
        · exact hpop fi (hmoved.queued fi (Or.inl hq))
        · rw [Option.some.injEq] at hx
          rw [← hx]
          exact hheld
        · exact hpop fi (hmoved.queued fi (Or.inr (Or.inr hq)))
      · generalize (if w.conflict then u.preserveLocal w.key a else u) = u' at hmoved ⊢
        have hcount := counted_requeue u' { w with attempts := w.attempts + 1 } true
        rw [show WantFile.key { w with attempts := w.attempts + 1 } = k from hk] at hcount
        rcases requeue_cases u' { w with attempts := w.attempts + 1 } true with he | he
        · rw [he] at hcount ⊢
          refine h.moved (fun fi hq => ?_) (hd ∘ hmoved.deferred) (hgone ∘ hmoved.gone)
            fun _ => Or.inl hcount
          rcases queued_cons hq with hq | ⟨-, rfl⟩
          · exact hpop fi (hmoved.queued fi hq)
          · exact hheld
        · rw [he] at hcount ⊢
          have hst : Spares k u (u'.stallAdd (WantFile.key { w with attempts := w.attempts + 1 })) :=
            hmoved.trans (spares_stallAdd _)
          exact h.moved (fun fi hq => hpop fi (hst.queued fi hq)) (hd ∘ hst.deferred)
            (hgone ∘ hst.gone) fun _ => Or.inl hcount

theorem facts_start (h : Facts cfg s k v) {a : Answers} (hmem : a.mem.slot = true)
    (hcopy : a.copy ≠ some k.2) : Facts cfg (s.startDownload a) k v := by
  cases hdl : s.dl with
  | some d =>
    have hsame : s.startDownload a = s := by
      unfold Session.startDownload
      rw [hdl]
    rw [hsame]
    exact h
  | none =>
    cases hw : s.want with
    | nil =>
      have hsame : s.startDownload a = s := by
        unfold Session.startDownload
        rw [hdl, hw]
      rw [hsame]
      exact h
    | cons w rest =>
      rw [startDownload_cons hdl hw]
      by_cases hk : w.key = k
      · exact facts_startEntry h hmem hcopy hk (Or.inl ⟨w, hw ▸ List.mem_cons_self, hk, rfl⟩)
          (fun fi hq => queued_pop hw hq) id rfl
      · exact h.spared ((spares_pop hw hk).trans (spares_startEntry hcopy hdl hk))

theorem facts_finish (h : Facts cfg s k v) (ok retryable : Bool) {mem : UpsertMem}
    (hmem : mem.slot = true) : Facts cfg (s.finalizeDownload ok retryable mem) k v := by
  unfold Session.finalizeDownload
  cases hdl : s.dl with
  | none => exact h
  | some w =>
    cases ok with
    | false => exact h.spared (spares_end hdl retryable)
    | true =>
      have hq : ∀ fi, Queued { (s.store w.folderIdx w.fi w.hashes mem).stallClear w.key with
          dl := none } k fi → Queued s k fi := by
        rintro fi (h | ⟨x, hx, -⟩ | h)
        · exact Or.inl h
        · exact absurd hx (by simp)
        · exact Or.inr (Or.inr h)
      by_cases hk : w.key = k
      · obtain ⟨hfi, hcontent⟩ := h.same w.fi (Or.inr (Or.inl ⟨w, hdl, hk, rfl⟩))
        refine h.moved hq id id fun _ => Or.inr ?_
        have hdone : Done cfg (s.store w.folderIdx v.fi w.hashes mem) k v :=
          done_store (hfi ▸ hk) h.live hcontent w.hashes hmem
        rw [← hfi] at hdone
        exact hdone
      · have hst : Spares k s ((s.store w.folderIdx w.fi w.hashes mem).stallClear w.key) :=
          (spares_store hk w.hashes mem).trans (spares_stallClear (Ne.symm hk))
        refine h.spared ⟨⟨hst.past.latest, hst.past.contested, hst.past.overflow⟩, hq, fun ho hc => ?_,
          hst.deferred, hst.gone, hst.record⟩
        rcases hst.counted ho hc with ⟨fi, hf | ⟨x, hx, hxk, -⟩ | hf⟩ | hc | hc
        · exact Or.inl ⟨fi, Or.inl hf⟩
        · have hxw : x = w := Option.some.inj (hx.symm.trans hdl)
          exact absurd (hxw ▸ hxk) hk
        · exact Or.inl ⟨fi, Or.inr (Or.inr hf)⟩
        · exact Or.inr (Or.inl hc)
        · exact Or.inr (Or.inr hc)

/-! ### Its way back from the spill -/

/-- The spill of a folder without its first entry. -/
theorem queued_unpark {f : FolderIdx} {w : Wanted} {rest : List Wanted} (hw : s.spill f = w :: rest)
    {fi : SyncMeta} (h : Queued { s with spill := Function.update s.spill f rest } k fi) :
    Queued s k fi := by
  rcases h with h | h | ⟨x, hx, hk⟩
  · exact Or.inl h
  · exact Or.inr (Or.inl h)
  · have hx' : x ∈ Function.update s.spill f rest k.1 := hx
    rw [Function.update_apply] at hx'
    split at hx'
    · rename_i hf
      exact Or.inr (Or.inr ⟨x, hf ▸ hw ▸ List.mem_cons_of_mem _ hx', hk⟩)
    · exact Or.inr (Or.inr ⟨x, hx', hk⟩)

theorem spares_unpark {f : FolderIdx} {w : Wanted} {rest : List Wanted} (hw : s.spill f = w :: rest)
    (hne : (f, w.fi.name) ≠ k) : Spares k s { s with spill := Function.update s.spill f rest } := by
  refine ⟨⟨rfl, rfl, id⟩, fun fi hf => queued_unpark hw hf, fun _ hc => ?_, id, id, rfl⟩
  rcases hc with ⟨fi, h | h | ⟨x, hx, hk⟩⟩ | h | h
  · exact Or.inl ⟨fi, Or.inl h⟩
  · exact Or.inl ⟨fi, Or.inr (Or.inl h)⟩
  · refine Or.inl ⟨fi, Or.inr (Or.inr ⟨x, ?_, hk⟩)⟩
    show x ∈ Function.update s.spill f rest k.1
    rw [Function.update_apply]
    split
    · rename_i hf
      rw [hf, hw] at hx
      rcases List.mem_cons.mp hx with rfl | hx
      · exact absurd (Prod.ext hf.symm hk.1) hne
      · exact hx
    · exact hx
  · exact Or.inr (Or.inl h)
  · exact Or.inr (Or.inr h)

theorem facts_refill (h : Facts cfg s k v) (f : FolderIdx) (readable : Bool) :
    Facts cfg (s.refillOne cfg f readable) k v := by
  unfold refillOne
  cases hw : s.spill f with
  | nil => exact h
  | cons w rest =>
    dsimp only
    split
    · exact h
    · split
      · exact h.moved (fun fi hq => queued_of_closed hq rfl rfl rfl) id id
          fun ho => absurd ho (by simp)
      · by_cases hk : (f, w.fi.name) = k
        · have hheld : Queued s k w.fi := by
            refine Or.inr (Or.inr ⟨w, ?_, congrArg Prod.snd hk, rfl⟩)
            rw [← hk, hw]
            exact List.mem_cons_self
          have hf : f = k.1 := congrArg Prod.fst hk
          have hn : w.fi.name = k.2 := congrArg Prod.snd hk
          obtain ⟨hfi, -⟩ := h.same w.fi hheld
          rw [if_neg (by rw [hf, hn, h.shown, h.here]; simp), hk]
          split
          · rename_i hact
            refine h.moved (fun fi hq => queued_unpark hw hq) id id fun _ => Or.inr (Or.inl ?_)
            show Satisfied (s.record k) (cfg.mode k.1) v.fi
            rw [← hf, ← hfi]
            exact hact
          · split
            · rename_i q hq
              rw [syncWantPushAgain_some hq]
              refine h.moved (fun fi hq => ?_) id id fun _ => Or.inl
                (Or.inl ⟨w.fi, Or.inl ⟨_, List.mem_cons_self, hk, rfl⟩⟩)
              rcases queued_cons (s := { s with spill := Function.update s.spill f rest }) hq with
                hq | ⟨-, rfl⟩
              · exact queued_unpark hw hq
              · exact hheld
            · exact h
        · have hpop : Spares k s { s with spill := Function.update s.spill f rest } :=
            spares_unpark hw hk
          split
          · exact h.spared hpop
          · split
            · exact h.spared hpop
            · split
              · rename_i q hq
                rw [syncWantPushAgain_some hq]
                exact h.spared (hpop.trans (spares_push hk))
              · exact h

end Track

/-! ## Every session -/

/-- **The conditions.** The index has memory for new records; no other name that the peer
deletes has the hash of the name; and no conflict copy is made under the name. -/
def Fair (k : Key) : Event → Prop
  | .index f records => ∀ r ∈ records, r.2.1.mem.slot = true ∧
      (r.1.fi.deleted = true → f = k.1 → nameHash r.1.fi.name = nameHash k.2 → r.1.fi.name = k.2)
  | .start a => a.mem.slot = true ∧ a.copy ≠ some k.2
  | .finish _ _ mem => mem.slot = true
  | _ => True

instance (k : Key) : DecidablePred (Fair k)
  | .index _ records => inferInstanceAs (Decidable (∀ r ∈ records, _ ∧ (_ → _ → _ → _)))
  | .start _ => inferInstanceAs (Decidable (_ ∧ _))
  | .finish _ _ _ => inferInstanceAs (Decidable (_ = _))
  | .abort => isTrue trivial
  | .refill _ _ => isTrue trivial
  | .flush _ => isTrue trivial
  | .drain _ _ _ => isTrue trivial

section Run
variable {cfg : Setup} {k : Key} {s : Session}

theorem past_requeue (k : Key) (s : Session) (w : WantFile) (retryable : Bool) :
    Past k s (s.requeueDownload w retryable) := by
  rcases requeue_cases s w retryable with h | h
  · rw [h]
    exact ⟨rfl, rfl, id⟩
  · rw [h]
    exact (spares_stallAdd w.key).past

theorem past_start (k : Key) (s : Session) (a : Answers) : Past k s (s.startDownload a) := by
  have hmoved : ∀ (u : Session) (w : WantFile),
      Past k u (if w.conflict then u.preserveLocal w.key a else u) := by
    intro u w
    unfold preserveLocal
    repeat' split
    all_goals exact ⟨rfl, rfl, id⟩
  unfold Session.startDownload
  split
  · rename_i w rest _ _
    have hpop : Past k s { s with want := rest } := ⟨rfl, rfl, id⟩
    refine hpop.trans ?_
    unfold startEntry
    split
    · exact .refl k _
    · split
      · exact ⟨rfl, rfl, id⟩
      · dsimp only
        split
        · exact (hmoved _ w).trans ⟨rfl, rfl, id⟩
        · exact (hmoved _ w).trans (past_requeue k _ _ true)
  · exact .refl k s

theorem past_finish (k : Key) (s : Session) (ok retryable : Bool) (mem : UpsertMem) :
    Past k s (s.finalizeDownload ok retryable mem) := by
  unfold Session.finalizeDownload
  cases hdl : s.dl with
  | none => exact .refl k s
  | some w =>
    cases ok with
    | true => exact ⟨rfl, rfl, id⟩
    | false => exact (spares_end hdl retryable).past

theorem past_refill (k : Key) (cfg : Setup) (s : Session) (f : FolderIdx) (readable : Bool) :
    Past k s (s.refillOne cfg f readable) := by
  unfold refillOne
  cases s.spill f with
  | nil => exact .refl k s
  | cons w rest =>
    dsimp only
    repeat' split
    all_goals first
      | exact ⟨rfl, rfl, id⟩
      | exact ⟨rfl, rfl, fun _ => rfl⟩

theorem tracked_index (f : FolderIdx)
    (records : List (Wanted × Answers × List (Nat × Bool × Answers)))
    (hfair : Fair k (.index f records)) (h : Tracked cfg k s) :
    Tracked cfg k (handleIndex cfg f s records) := by
  induction records generalizing s with
  | nil => exact h
  | cons r records ih =>
    obtain ⟨w, a, picks⟩ := r
    obtain ⟨hmem, hcol⟩ := hfair _ List.mem_cons_self
    have hnext : Tracked cfg k (s.receive cfg f w a picks).1 := by
      by_cases hk : (f, w.fi.name) = k
      · exact tracked_receive hk hmem picks
      · have hcol' : w.fi.deleted = true → f = k.1 → nameHash w.fi.name ≠ nameHash k.2 :=
          fun hd hf he => hk (Prod.ext hf (hcol hd hf he))
        have hother : Past k s (s.receive cfg f w a picks).1 ∧
            (¬ Deferred s k → Spares k s (s.receive cfg f w a picks).1) :=
          receive_other hk hcol' a picks
        exact h.mono hother.1 fun v hv => hv.spared (hother.2 hv.calm)
    rw [handleIndex]
    split
    · exact ih (fun r hr => hfair r (List.mem_cons_of_mem _ hr)) hnext
    · exact hnext

/-- **Step.** -/
theorem tracked_step (e : Event) (hfair : Fair k e) (h : Tracked cfg k s) :
    Tracked cfg k (step cfg s e) := by
  cases e with
  | index f records => exact tracked_index f records hfair h
  | start a =>
    exact h.mono (past_start k s a) fun v hv => facts_start hv hfair.1 hfair.2
  | finish ok retryable mem =>
    exact h.mono (past_finish k s ok retryable mem) fun v hv => facts_finish hv ok retryable hfair
  | abort => exact h.mono (spares_abort k s).past fun v hv => hv.spared (spares_abort k s)
  | refill f readable =>
    exact h.mono (past_refill k cfg s f readable) fun v hv => facts_refill hv f readable
  | flush picks => exact h.mono (past_flush k cfg s picks) fun v hv => hv.spared (spares_flush hv.calm picks)
  | drain f readable a =>
    exact h.mono (past_drainOne k cfg s f readable a) fun v hv =>
      hv.spared (spares_drainOne hv.calm f readable a)

theorem tracked_run (es : List Event) (hfair : ∀ e ∈ es, Fair k e) (h : Tracked cfg k s) :
    Tracked cfg k (run cfg s es) := by
  unfold Session.run
  induction es generalizing s with
  | nil => exact h
  | cons e es ih =>
    exact ih (fun e' he => hfair e' (List.mem_cons_of_mem _ he))
      (tracked_step e (hfair e List.mem_cons_self) h)

/-- Nothing that is counted is pending. -/
theorem not_counted_of_pending (h : s.pending = 0) (hu : s.unlisted k = false) : ¬ Counted s k := by
  unfold pending at h
  have hw : s.want = [] := List.length_eq_zero_iff.mp (by omega)
  have hst : s.stalled = [] := List.length_eq_zero_iff.mp (by omega)
  have hd : s.dl = none := by
    cases hdl : s.dl with
    | none => rfl
    | some w =>
      rw [hdl] at h
      simp at h
  have hsum : ∑ f, (s.spill f).length = 0 := by omega
  have hs : s.spill k.1 = [] :=
    List.length_eq_zero_iff.mp (Finset.sum_eq_zero_iff.mp hsum k.1 (Finset.mem_univ _))
  rintro (⟨fi, ⟨w, hm, -⟩ | ⟨w, hm, -⟩ | ⟨w, hm, -⟩⟩ | hm | hm)
  · rw [hw] at hm
    exact absurd hm List.not_mem_nil
  · rw [hd] at hm
    exact absurd hm (by simp)
  · rw [hs] at hm
    exact absurd hm List.not_mem_nil
  · rw [hst] at hm
    exact absurd hm List.not_mem_nil
  · rw [hu] at hm
    exact absurd hm (by simp)

end Run

/-- **Up to date.** After every session that meets the conditions for the name: when nothing is
pending and no overflow was flagged, nothing is left to fetch of the last record of the name, if
it is a live file that is ours to fetch, if nothing of the name was waiting when it came, and if
the name was not left out of a full list of files given up. -/
theorem published_up_to_date (cfg : Setup) (index : FolderIdx → FolderState) (es : List Event)
    (k : Key) (hfair : ∀ e ∈ es, Fair k e) (s : Session) (hs : run cfg (start index) es = s)
    (hpending : s.pending = 0) (hoverflow : s.wantOverflow = false) (v : Wanted)
    (hv : s.latest k = some v) (ha : Admissible cfg k.1 v) (hcontested : s.contested k = false)
    (hunlisted : s.unlisted k = false) : Done cfg s k v := by
  have hstart : Tracked cfg k (start index) := fun v hl => absurd hl (by simp [start])
  have htracked : Tracked cfg k s := hs ▸ tracked_run es hfair hstart
  have hfacts := htracked v hv hcontested ha
  rcases hfacts.accounted hoverflow with hc | hd
  · exact absurd hc (not_counted_of_pending hpending hunlisted)
  · exact hd

/-! ## What is not counted -/

def peerRecord (name : Name) (deleted invalid : Bool) : Wanted where
  fi := { SyncMeta.zero name with
    size := 1
    modifiedS := 100
    blockSize := 131072
    version := BepVector.single 2 5
    deleted := deleted
    invalid := invalid }
  hashes := if deleted then [] else [sampleHash 3]

def plainSetup : Setup where
  sha := fun _ => sampleHash 7
  mode := fun _ => .sendReceive
  ign := fun _ _ => false

def plainAnswers : Answers where
  mkdir := true
  removed := true
  addressable := true
  spill := true
  fits := true
  copy := none
  stamp := 0
  opened := true
  mem := ⟨true, true⟩

/-- An Index message of the first folder. -/
def indexOf (records : List Wanted) : Event :=
  .index 0 (records.map fun w => (w, plainAnswers, []))

/-- The records of the name in the messages of a session. -/
def offered (k : Key) (es : List Event) : List Wanted :=
  es.flatMap fun e => match e with
    | .index f records => (records.map Prod.fst).filter fun w => (f, w.fi.name) = k
    | _ => []

/-- Nothing is pending and nothing was flagged, and the last live record that was sent of the
name would have to be fetched. -/
def Behind (es : List Event) (k : Key) : Prop :=
  ∃ s v, run plainSetup (start fun _ => FolderState.empty 1) es = s ∧
    ((offered k es).filter fun w => !w.fi.deleted).getLast? = some v ∧
    pathNameSafe v.fi.name = true ∧ v.fi.type = .file ∧ s.pending = 0 ∧ s.wantOverflow = false ∧
    s.resync = false ∧ s.record k = none ∧
    syncClassifyIncoming (s.record k) .sendReceive (v.withContent plainSetup.sha).fi = .fetch

/-- `costarring` and `liquid` -/
def collidingNames : Name × Name :=
  ([99, 111, 115, 116, 97, 114, 114, 105, 110, 103], [108, 105, 113, 117, 105, 100])

/-- Nine files are given up, and the peer then deletes those that are listed. The queue is a stack:
the first file is the last that is tried. -/
def givenUpEvents : List Event :=
  let names : List Name := [97, 98, 99, 100, 101, 102, 103, 104, 105].map fun c => [c]
  indexOf (names.map fun n => peerRecord n false false) ::
    (names.flatMap fun _ => [.start plainAnswers, .finish false false ⟨true, true⟩]) ++
    [indexOf (names.tail.map fun n => peerRecord n true false)]

/-- A record that is not valid, a file that the peer deletes again, one whose hash is that of
another deletion, the ninth that is given up, and one that the index has no memory for. -/
theorem published_behind :
    Behind [indexOf [peerRecord [120] false true]] (0, [120]) ∧
    Behind [indexOf [peerRecord [120] false false], indexOf [peerRecord [120] true false],
      .start plainAnswers] (0, [120]) ∧
    Behind [indexOf [peerRecord collidingNames.1 false false],
      indexOf [peerRecord collidingNames.2 true false], .start plainAnswers]
      (0, collidingNames.1) ∧
    Behind givenUpEvents (0, [97]) ∧
    Behind [indexOf [peerRecord [120] false false], .start plainAnswers,
      .finish true true ⟨false, true⟩] (0, [120]) :=
  ⟨⟨_, _, rfl, rfl, by decide, rfl, by decide, rfl, rfl, rfl, by decide⟩,
    ⟨_, _, rfl, rfl, by decide, rfl, by decide, rfl, rfl, rfl, by decide⟩,
    ⟨_, _, rfl, rfl, by decide, rfl, by decide, rfl, rfl, rfl, by decide⟩,
    ⟨_, _, rfl, rfl, by decide, rfl, by decide, rfl, rfl, rfl, by decide⟩,
    ⟨_, _, rfl, rfl, by decide, rfl, by decide, rfl, rfl, rfl, by decide⟩⟩

/-- A file that is fetched is up to date. -/
theorem published_fetched : Done plainSetup (run plainSetup (start fun _ => FolderState.empty 1)
    [indexOf [peerRecord [120] false false], .start plainAnswers, .finish true true ⟨true, true⟩])
    (0, [120]) ((peerRecord [120] false false).withContent plainSetup.sha) :=
  published_up_to_date plainSetup (fun _ => FolderState.empty 1) _ (0, [120]) (by decide) _ rfl
    (by decide) rfl _ rfl ⟨rfl, by decide, rfl, rfl, rfl⟩ rfl rfl

end Amisync

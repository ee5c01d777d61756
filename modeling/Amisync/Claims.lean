import Amisync.Session
import Amisync.Lib.Machine
import Mathlib.Logic.Function.Basic

/-!
# One fetcher for each file (`foldstate.c`, `worker.c`)

All workers of the daemon offer to fetch the same files. Before a worker fetches
one it takes a claim on the name in the folder's table, and gives it back when
the fetch is over.

* `ClaimTable`: the sixteen slots of a folder. `claim`, `unclaim`: the two
  operations, each under the folder's semaphore.
* `claim_held`, `claim_new`: what a claim does, by whether the name is taken.
* `distinct_claim`, `distinct_unclaim`: no two active claims have one hash.
* `step`: the workers of a daemon from `sync_want_peek` to the end of a fetch,
  in any order of steps, their ends and restarts included.
* `inv_step`: a worker holds the claim of the file it is at, and no other.
* `claims_exclude`: no two workers have one file of a folder active.
-/

namespace Amisync.Claims

def foldstateMaxClaims : Nat := 16

/-! ## The table -/

section Table
variable {W : Type*}

/-- `none` is a free slot. -/
structure FolderClaim (W : Type*) where
  owner : Option W
  nameHash : UInt32
  deriving DecidableEq

structure ClaimTable (W : Type*) where
  slots : List (FolderClaim W)
  size : slots.length = foldstateMaxClaims
  deriving DecidableEq

def ClaimTable.empty : ClaimTable W := ⟨List.replicate foldstateMaxClaims ⟨none, 0⟩, rfl⟩

variable [DecidableEq W]

/-- The loop of `foldstate_claim` from slot `i` on; `slot` is the first free one before it. -/
def scan (h : UInt32) (owner : W) : List (FolderClaim W) → Nat → Option Nat → Option Nat × Bool
  | [], _, slot => (slot, false)
  | c :: cs, i, slot =>
    match c.owner with
    | none => scan h owner cs (i + 1) (if slot.isNone then some i else slot)
    | some o => if c.nameHash = h then (none, o = owner) else scan h owner cs (i + 1) slot

namespace ClaimTable

/-- `foldstate_claim` -/
def claim (t : ClaimTable W) (name : Name) (owner : W) : ClaimTable W × Bool :=
  match scan (nameHash name) owner t.slots 0 none with
  | (some i, _) => (⟨t.slots.set i ⟨some owner, nameHash name⟩, by rw [List.length_set, t.size]⟩, true)
  | (none, ok) => (t, ok)

/-- `foldstate_unclaim` -/
def unclaim (t : ClaimTable W) (owner : W) : ClaimTable W :=
  ⟨t.slots.map fun c => if c.owner = some owner then { c with owner := none } else c,
    by rw [List.length_map, t.size]⟩

/-- The claims that are held. -/
def active (t : ClaimTable W) : List (FolderClaim W) := t.slots.filter fun c => c.owner.isSome

/-- No two of them have one hash. -/
def Distinct (t : ClaimTable W) : Prop := (t.active.map FolderClaim.nameHash).Nodup

/-- `owner` has a claim on the name. -/
def Held (t : ClaimTable W) (name : Name) (owner : W) : Prop := ⟨some owner, nameHash name⟩ ∈ t.slots

instance (t : ClaimTable W) (name : Name) (owner : W) : Decidable (t.Held name owner) :=
  inferInstanceAs (Decidable (_ ∈ _))

end ClaimTable

/-! ## What the loop finds -/

/-- A held hash ends the loop, whatever slot was free before. -/
theorem scan_held {h : UInt32} {owner o : W} {cs : List (FolderClaim W)}
    (hd : ((cs.filter fun c => c.owner.isSome).map FolderClaim.nameHash).Nodup)
    (hc : (⟨some o, h⟩ : FolderClaim W) ∈ cs) (i : Nat) (slot : Option Nat) :
    scan h owner cs i slot = (none, decide (o = owner)) := by
  induction cs generalizing i slot with
  | nil => exact absurd hc List.not_mem_nil
  | cons c cs ih =>
    rw [scan]
    cases hco : c.owner with
    | none =>
      have hne : (⟨some o, h⟩ : FolderClaim W) ≠ c := by
        rintro rfl
        simp at hco
      have hmem := (List.mem_cons.mp hc).resolve_left hne
      rw [List.filter_cons_of_neg (by simp [hco])] at hd
      exact ih hd hmem _ _
    | some p =>
      rw [List.filter_cons_of_pos (by simp [hco]), List.map_cons, List.nodup_cons] at hd
      dsimp only
      rcases List.mem_cons.mp hc with rfl | hmem
      · rw [if_pos rfl]
        simp only [Option.some.injEq] at hco
        rw [hco]
      · have hne : c.nameHash ≠ h := by
          rintro rfl
          exact hd.1 (List.mem_map.mpr ⟨_, List.mem_filter.mpr ⟨hmem, rfl⟩, rfl⟩)
        rw [if_neg hne]
        exact ih hd.2 hmem _ _

/-- A hash that nobody holds leaves the first free slot. -/
theorem scan_new {h : UInt32} {owner : W} {cs : List (FolderClaim W)}
    (hc : ∀ c ∈ cs, c.owner.isSome → c.nameHash ≠ h) (i : Nat) (slot : Option Nat) :
    scan h owner cs i slot =
      (slot.or ((cs.findIdx? fun c => c.owner.isNone).map (· + i)), false) := by
  induction cs generalizing i slot with
  | nil => simp [scan]
  | cons c cs ih =>
    have hcs := fun d hd => hc d (List.mem_cons_of_mem _ hd)
    rw [scan, List.findIdx?_cons]
    cases hco : c.owner with
    | none =>
      rw [ih hcs]
      cases slot <;> simp
    | some p =>
      dsimp only
      rw [if_neg (hc c List.mem_cons_self (by simp [hco])), ih hcs]
      simp [Function.comp_def, Nat.add_assoc, Nat.add_comm 1]

/-! ## What the operations do -/

namespace ClaimTable
variable {t t' : ClaimTable W} {name : Name} {owner o : W}

/-- A name that is taken: the holder is told yes, everybody else no. -/
theorem claim_held (hd : t.Distinct) (h : t.Held name o) :
    t.claim name owner = (t, decide (o = owner)) := by
  rw [claim, scan_held hd h]

/-- A name that nobody has goes to the first free slot, if there is one. -/
theorem claim_new (h : ∀ c ∈ t.active, c.nameHash ≠ nameHash name) :
    t.claim name owner = match t.slots.findIdx? (fun c => c.owner.isNone) with
      | none => (t, false)
      | some i =>
        (⟨t.slots.set i ⟨some owner, nameHash name⟩, by rw [List.length_set, t.size]⟩, true) := by
  have hc : ∀ c ∈ t.slots, c.owner.isSome → c.nameHash ≠ nameHash name := fun c hc ho =>
    h c (List.mem_filter.mpr ⟨hc, ho⟩)
  rw [claim, scan_new hc]
  cases t.slots.findIdx? fun c => c.owner.isNone <;> rfl

omit [DecidableEq W] in
/-- A name is taken or not. -/
theorem held_or_new (t : ClaimTable W) (name : Name) :
    (∃ o, t.Held name o) ∨ ∀ c ∈ t.active, c.nameHash ≠ nameHash name := by
  by_cases h : ∀ c ∈ t.active, c.nameHash ≠ nameHash name
  · exact Or.inr h
  · simp only [not_forall, not_not] at h
    obtain ⟨c, hc, hh⟩ := h
    obtain ⟨hm, ho⟩ := List.mem_filter.mp hc
    obtain ⟨o, ho⟩ := Option.isSome_iff_exists.mp ho
    refine Or.inl ⟨o, ?_⟩
    rw [Held, ← ho, ← hh]
    exact hm

omit [DecidableEq W] in
/-- Two claims on one hash are one claim. -/
theorem eq_of_held (hd : t.Distinct) {c c' : FolderClaim W} (hc : c ∈ t.active) (hc' : c' ∈ t.active)
    (h : c.nameHash = c'.nameHash) : c = c' :=
  List.inj_on_of_nodup_map hd hc hc' h

omit [DecidableEq W] in
theorem mem_active_of_held (h : t.Held name owner) : ⟨some owner, nameHash name⟩ ∈ t.active :=
  List.mem_filter.mpr ⟨h, rfl⟩

omit [DecidableEq W] in
theorem owner_unique (hd : t.Distinct) (h : t.Held name owner) (h' : t.Held name o) : owner = o := by
  have he := eq_of_held hd (mem_active_of_held h) (mem_active_of_held h') rfl
  simpa using congrArg FolderClaim.owner he

/-- **Unclaim.** All the caller's claims are gone, and no others. -/
theorem active_unclaim (t : ClaimTable W) (owner : W) :
    (t.unclaim owner).active = t.active.filter fun c => c.owner ≠ some owner := by
  rw [active, active, unclaim]
  dsimp only
  induction t.slots with
  | nil => rfl
  | cons c cs ih =>
    rw [List.map_cons]
    by_cases ho : c.owner = some owner
    · simp [ho, ih]
    · cases hs : c.owner with
      | none => simp [hs, ih]
      | some p =>
        have hp : p ≠ owner := fun h => ho (by rw [hs, h])
        simp [hs, hp, ih]

theorem distinct_unclaim (hd : t.Distinct) (owner : W) : (t.unclaim owner).Distinct := by
  rw [Distinct, active_unclaim]
  exact hd.sublist (List.filter_sublist.map _)

omit [DecidableEq W] in
/-- A granted claim on a new name is one more among the active ones. -/
theorem active_set {i : Nat} {c : FolderClaim W} (hi : t.slots[i]? = some c) (hc : c.owner = none)
    (d : FolderClaim W) (hd : d.owner.isSome) :
    ((t.slots.set i d).filter fun c => c.owner.isSome).Perm (d :: t.active) := by
  have hlt := (List.getElem?_eq_some_iff.mp hi).1
  have hget := (List.getElem?_eq_some_iff.mp hi).2
  have hsplit : t.slots = t.slots.take i ++ c :: t.slots.drop (i + 1) := by
    rw [← hget, List.getElem_cons_drop, List.take_append_drop]
  rw [List.set_eq_take_append_cons_drop, if_pos hlt, active]
  conv_rhs => rw [hsplit]
  simp only [List.filter_append, List.filter_cons, hd, hc, if_true, Option.isSome_none,
    Bool.false_eq_true, if_false]
  exact List.perm_middle

/-- **Claim.** What a call leaves behind. -/
theorem claim_cases (hd : t.Distinct) (name : Name) (owner : W) :
    (t.claim name owner = (t, false)) ∨
    (t.claim name owner = (t, true) ∧ t.Held name owner) ∨
    (∃ t', t.claim name owner = (t', true) ∧
      t'.active.Perm (⟨some owner, nameHash name⟩ :: t.active) ∧
      ∀ c ∈ t.active, c.nameHash ≠ nameHash name) := by
  rcases t.held_or_new name with ⟨o, ho⟩ | hnew
  · rw [claim_held hd ho]
    by_cases h : o = owner
    · subst h
      exact Or.inr (Or.inl ⟨by simp, ho⟩)
    · exact Or.inl (by simp [h])
  · rw [claim_new hnew]
    cases hf : t.slots.findIdx? fun c => c.owner.isNone with
    | none => exact Or.inl rfl
    | some i =>
      obtain ⟨hlt, hfree, -⟩ := List.findIdx?_eq_some_iff_getElem.mp hf
      refine Or.inr (Or.inr ⟨_, rfl, ?_, hnew⟩)
      exact active_set (List.getElem?_eq_getElem hlt) (by simpa using hfree) _ rfl

theorem distinct_claim (hd : t.Distinct) (name : Name) (owner : W) :
    (t.claim name owner).1.Distinct := by
  rcases claim_cases hd name owner with h | ⟨h, -⟩ | ⟨t', h, hp, hnew⟩
  · rw [h]
    exact hd
  · rw [h]
    exact hd
  · rw [h, Distinct, (hp.map FolderClaim.nameHash).nodup_iff, List.map_cons, List.nodup_cons]
    refine ⟨fun hm => ?_, hd⟩
    obtain ⟨c, hc, hh⟩ := List.mem_map.mp hm
    exact hnew c hc hh

/-- The claims after a call that was granted. -/
theorem mem_active_claim (hd : t.Distinct) (h : (t.claim name owner).2 = true) (c : FolderClaim W) :
    c ∈ (t.claim name owner).1.active ↔ c = ⟨some owner, nameHash name⟩ ∨ c ∈ t.active := by
  rcases claim_cases hd name owner with he | ⟨he, hheld⟩ | ⟨t', he, hp, -⟩
  · rw [he] at h
    simp at h
  · rw [he]
    constructor
    · exact Or.inr
    · rintro (rfl | hc)
      · exact mem_active_of_held hheld
      · exact hc
  · rw [he, hp.mem_iff, List.mem_cons]

/-- A refusal changes nothing. -/
theorem claim_denied (hd : t.Distinct) (h : (t.claim name owner).2 = false) :
    (t.claim name owner).1 = t := by
  rcases claim_cases hd name owner with he | ⟨he, -⟩ | ⟨t', he, -, -⟩
  · rw [he]
  · rw [he]
  · rw [he] at h
    simp at h

omit [DecidableEq W] in
theorem distinct_empty : (empty : ClaimTable W).Distinct := by
  rw [Distinct, active, empty, List.filter_eq_nil_iff.mpr]
  · exact List.nodup_nil
  · intro c hc
    rw [List.eq_of_mem_replicate hc]
    simp

/-- A claim that is held stays held, whoever else asks. -/
theorem held_claim (hd : t.Distinct) (h : t.Held name o) (name' : Name) (owner : W) :
    (t.claim name' owner).1.Held name o := by
  rcases claim_cases hd name' owner with he | ⟨he, -⟩ | ⟨t', he, hp, -⟩
  · rw [he]
    exact h
  · rw [he]
    exact h
  · rw [he]
    exact (List.mem_filter.mp (hp.mem_iff.mpr (List.mem_cons_of_mem _ (mem_active_of_held h)))).1

theorem held_of_claim (hd : t.Distinct) (h : (t.claim name owner).2 = true) :
    (t.claim name owner).1.Held name owner :=
  (List.mem_filter.mp ((mem_active_claim hd h _).mpr (Or.inl rfl))).1

theorem held_unclaim (h : t.Held name o) (hne : o ≠ owner) : (t.unclaim owner).Held name o := by
  have hmem : (⟨some o, nameHash name⟩ : FolderClaim W) ∈ (t.unclaim owner).active := by
    rw [active_unclaim]
    exact List.mem_filter.mpr ⟨mem_active_of_held h, by simpa using hne⟩
  exact (List.mem_filter.mp hmem).1

/-! ## Runs of the two operations -/

inductive Op (W : Type*) where
  | claim (name : Name) (owner : W)
  | unclaim (owner : W)
  deriving DecidableEq

/-- One call of either, in any order of the callers. -/
def apply (t : ClaimTable W) : Op W → ClaimTable W
  | .claim name owner => (t.claim name owner).1
  | .unclaim owner => t.unclaim owner

theorem distinct_apply (hd : t.Distinct) (op : Op W) : (t.apply op).Distinct := by
  cases op with
  | claim name owner => exact distinct_claim hd name owner
  | unclaim owner => exact distinct_unclaim hd owner

theorem distinct_foldl (ops : List (Op W)) (hd : t.Distinct) : (ops.foldl apply t).Distinct := by
  induction ops generalizing t with
  | nil => exact hd
  | cons op ops ih => exact ih (distinct_apply hd op)

end ClaimTable

end Table

/-! ## The workers -/

/-- Where a worker is in `start_download` and after it. -/
inductive Place where
  /-- No fetch: before the peek, or past the end of one. -/
  | idle
  /-- The claim on the name at the top of the queue is granted. -/
  | claimed (k : Key)
  | popped (w : WantFile)
  | opening (w : WantFile)
  /-- `dl.active` is set. -/
  | active (w : WantFile)
  /-- The fetch is over and the claim is not released yet. `retry`: what `requeue_download` is
  called with after it, if it is called. -/
  | over (w : WantFile) (retry : Option Bool)
  /-- The process has ended; its block of memory may be another worker's next. -/
  | gone
  deriving DecidableEq

/-- The file that a worker is at. -/
def Place.key : Place → Option Key
  | .idle | .gone => none
  | .claimed k => some k
  | .popped w | .opening w | .active w | .over w _ => some w.key

structure Worker where
  want : List WantFile
  place : Place
  claimFidx : Option FolderIdx
  deriving DecidableEq

def Worker.spawned : Worker := ⟨[], .idle, none⟩

/-- What `start_download` finds out about the file it popped. -/
inductive Finding where
  | alreadyHere
  | deletedWhileQueued
  | nameTooLong
  | fetch
  deriving DecidableEq

inductive Action where
  /-- A record of the peer goes to the queue. -/
  | push (w : WantFile)
  | claim
  | pop
  | look (found : Finding)
  | openTemp (opened : Bool)
  /-- `finalize_download`: done, or not and worth a retry or not. -/
  | finish (retry : Option Bool)
  | abort
  | release
  /-- The worker ends, at rest or in the middle of a fetch. -/
  | quit
  | spawn
  deriving DecidableEq

section Workers
variable {W : Type*} [DecidableEq W]

structure State (W : Type*) where
  claims : FolderIdx → ClaimTable W
  workers : W → Worker

def State.init : State W := ⟨fun _ => .empty, fun _ => ⟨[], .gone, none⟩⟩

namespace State

def set (s : State W) (k : W) (w : Worker) : State W :=
  { s with workers := Function.update s.workers k w }

/-- `release_claim` -/
def releaseClaim (s : State W) (k : W) : State W :=
  match (s.workers k).claimFidx with
  | none => s
  | some f =>
    { claims := Function.update s.claims f ((s.claims f).unclaim k)
      workers := Function.update s.workers k { s.workers k with claimFidx := none } }

/-- `requeue_download`: what the queue becomes. -/
def requeued (q : List WantFile) (w : WantFile) (retryable : Bool) : List WantFile :=
  if retryable && w.attempts < wkMaxFetch then
    (syncWantPushAgain q { w with conflict := false }).getD q
  else q

/-- The call of `foldstate_claim` on what `sync_want_peek` shows. -/
def claimTop (s : State W) (k : W) : Option (State W) :=
  match (s.workers k).want with
  | [] => some s
  | w :: _ =>
    let r := (s.claims w.folderIdx).claim w.name k
    if r.2 then
      some {
        claims := Function.update s.claims w.folderIdx r.1
        workers := Function.update s.workers k
          { s.workers k with place := .claimed w.key, claimFidx := some w.folderIdx } }
    else some { s with claims := Function.update s.claims w.folderIdx r.1 }

/-- `release_claim`, and then the queue gets the file back if it is tried again. -/
def leave (s : State W) (k : W) (w : WantFile) (retry : Option Bool) : State W :=
  let s' := s.releaseClaim k
  let q := match retry with
    | none => (s'.workers k).want
    | some retryable => requeued (s'.workers k).want w retryable
  s'.set k { s'.workers k with want := q, place := .idle }

/-- One step of worker `k`. Between two steps of one worker any others may take theirs. -/
def step (s : State W) : W × Action → Option (State W)
  | (k, a) =>
    let m := s.workers k
    match m.place, a with
    | .idle, .push w | .active _, .push w =>
      some (s.set k { m with want := (syncWantPushAgain m.want w).getD m.want })
    | .idle, .claim => s.claimTop k
    | .claimed _, .pop =>
      match m.want with
      | [] => some ((s.releaseClaim k).set k { (s.releaseClaim k).workers k with place := .idle })
      | w :: rest => some (s.set k { m with want := rest, place := .popped w })
    | .popped w, .look .fetch => some (s.set k { m with place := .opening w })
    | .popped w, .look _ => some (s.leave k w none)
    | .opening w, .openTemp opened =>
      let w' := { w with attempts := w.attempts + 1 }
      some (s.set k { m with place := if opened then .active w' else .over w' (some true) })
    | .active w, .finish retry => some (s.set k { m with place := .over w retry })
    | .active w, .abort => some (s.set k { m with place := .over w (some true) })
    | .over w retry, .release => some (s.leave k w retry)
    | .idle, .quit | .active _, .quit =>
      some ((s.releaseClaim k).set k ⟨[], .gone, none⟩)
    | .gone, .spawn => some (s.set k .spawned)
    | _, _ => none

/-! ## What a worker holds -/

/-- The claims of worker `k` are the one on the file it is at. -/
structure Fits (claims : FolderIdx → ClaimTable W) (k : W) (m : Worker) : Prop where
  fidx : m.claimFidx = m.place.key.map Prod.fst
  held : ∀ key, m.place.key = some key → (claims key.1).Held key.2 k
  owned : ∀ f, ∀ c ∈ (claims f).active, c.owner = some k → m.claimFidx = some f
  top : ∀ key, m.place = .claimed key → ∃ w rest, m.want = w :: rest ∧ w.key = key

structure Inv (s : State W) : Prop where
  distinct : ∀ f, (s.claims f).Distinct
  fits : ∀ k, Fits s.claims k (s.workers k)

variable {s t : State W} {k j : W} {m : Worker} {claims : FolderIdx → ClaimTable W}

omit [DecidableEq W] in
/-- Two workers are never at the same file. -/
theorem Inv.eq_of_key (h : Inv s) {key : Key} (hj : (s.workers j).place.key = some key)
    (hk : (s.workers k).place.key = some key) : j = k :=
  ClaimTable.owner_unique (h.distinct key.1) ((h.fits j).held key hj) ((h.fits k).held key hk)

omit [DecidableEq W] in
/-- A worker that is at no file has no claim. -/
theorem Inv.none_owned (h : Inv s) (hk : (s.workers k).place.key = none) (f : FolderIdx) :
    ∀ c ∈ (s.claims f).active, c.owner ≠ some k := by
  intro c hc ho
  have hf := (h.fits k).owned f c hc ho
  rw [(h.fits k).fidx, hk] at hf
  exact absurd hf (by simp)

omit [DecidableEq W] in
theorem inv_init : Inv (State.init : State W) where
  distinct _ := ClaimTable.distinct_empty
  fits k :=
    { fidx := rfl
      held := fun key hk => absurd hk (by simp [State.init, Place.key])
      owned := fun f c hc ho => by
        obtain ⟨hm, -⟩ := List.mem_filter.mp hc
        rw [List.eq_of_mem_replicate hm] at ho
        exact absurd ho (by simp)
      top := fun key hk => absurd hk (by simp [State.init]) }

/-! ## What a step keeps -/

/-- Only worker `k` changes, and no claim. -/
theorem inv_set (h : Inv s) (hm : Fits s.claims k m) : Inv (s.set k m) where
  distinct := h.distinct
  fits j := by
    rw [set]
    by_cases hj : j = k
    · subst hj
      simpa using hm
    · simpa [hj] using h.fits j

/-- The claim of another worker leaves what `j` holds. -/
theorem Fits.claim (h : Fits claims j m) (hd : ∀ f, (claims f).Distinct) (hne : j ≠ k)
    (f : FolderIdx) (n : Name) :
    Fits (Function.update claims f ((claims f).claim n k).1) j m where
  fidx := h.fidx
  held key hk := by
    have hold := h.held key hk
    by_cases hf : key.1 = f
    · subst hf
      simpa using ClaimTable.held_claim (hd key.1) hold n k
    · simpa [hf] using hold
  owned f' c hc ho := by
    refine h.owned f' c ?_ ho
    by_cases hf : f' = f
    · subst hf
      rw [Function.update_self] at hc
      rcases hr : ((claims f').claim n k).2 with _ | _
      · rwa [ClaimTable.claim_denied (hd f') hr] at hc
      · rcases (ClaimTable.mem_active_claim (hd f') hr c).mp hc with rfl | hc
        · exact absurd (Option.some.inj ho).symm hne
        · exact hc
    · rwa [Function.update_of_ne hf] at hc
  top := h.top

/-- So does its release. -/
theorem Fits.unclaim (h : Fits claims j m) (hne : j ≠ k) (f : FolderIdx) :
    Fits (Function.update claims f ((claims f).unclaim k)) j m where
  fidx := h.fidx
  held key hk := by
    have hold := h.held key hk
    by_cases hf : key.1 = f
    · subst hf
      simpa using ClaimTable.held_unclaim hold hne
    · simpa [hf] using hold
  owned f' c hc ho := by
    refine h.owned f' c ?_ ho
    by_cases hf : f' = f
    · subst hf
      rw [Function.update_self, ClaimTable.active_unclaim] at hc
      exact (List.mem_filter.mp hc).1
    · rwa [Function.update_of_ne hf] at hc
  top := h.top

@[simp] theorem releaseClaim_worker (s : State W) (k : W) :
    (s.releaseClaim k).workers k = { s.workers k with claimFidx := none } := by
  rw [releaseClaim]
  split
  · rename_i hn
    rw [← hn]
  · simp

/-- **Release.** The worker has no claim left, and the others have theirs. -/
theorem inv_released (h : Inv s) (hp : m.place.key = none) (hc : m.claimFidx = none) :
    Inv ((s.releaseClaim k).set k m) := by
  have hnone : ∀ c : FolderIdx → ClaimTable W,
      (∀ f, ∀ d ∈ (c f).active, d.owner ≠ some k) → Fits c k m := fun c hown =>
    { fidx := by rw [hp, hc]; rfl
      held := fun key hk => absurd (hp.symm.trans hk) (by simp)
      owned := fun f d hd ho => absurd ho (hown f d hd)
      top := fun key hk => absurd hp (by rw [hk]; simp [Place.key]) }
  rw [releaseClaim]
  cases hf : (s.workers k).claimFidx with
  | none =>
    refine inv_set h (hnone _ fun f d hd ho => ?_)
    exact absurd ((h.fits k).owned f d hd ho) (by rw [hf]; simp)
  | some f =>
    constructor
    · intro g
      by_cases hg : g = f
      · subst hg
        simpa [set] using ClaimTable.distinct_unclaim (h.distinct g) k
      · simpa [set, hg] using h.distinct g
    · intro j
      by_cases hj : j = k
      · subst hj
        simp only [set, Function.update_self]
        refine hnone _ fun g d hd ho => ?_
        by_cases hg : g = f
        · subst hg
          rw [Function.update_self, ClaimTable.active_unclaim] at hd
          exact absurd ho (by simpa using (List.mem_filter.mp hd).2)
        · rw [Function.update_of_ne hg] at hd
          have hown := (h.fits j).owned g d hd ho
          rw [hf] at hown
          exact hg (Option.some.inj hown).symm
      · simpa [set, hj] using (h.fits j).unclaim hj f

/-- **The claim.** Refused, nothing changes; granted, the worker is at the top of its queue. -/
theorem inv_claimTop (h : Inv s) (hp : (s.workers k).place = .idle) (ht : s.claimTop k = some t) :
    Inv t := by
  rw [claimTop] at ht
  cases hw : (s.workers k).want with
  | nil =>
    rw [hw] at ht
    exact Option.some.inj ht ▸ h
  | cons w rest =>
    rw [hw] at ht
    dsimp only at ht
    have hd := h.distinct w.folderIdx
    split at ht
    · rename_i hr
      rw [← Option.some.inj ht]
      constructor
      · intro f
        by_cases hf : f = w.folderIdx
        · subst hf
          simpa using ClaimTable.distinct_claim hd w.name k
        · simpa [hf] using h.distinct f
      · intro j
        by_cases hj : j = k
        · subst hj
          simp only [Function.update_self]
          refine ⟨rfl, fun key hk => ?_, fun f c hc ho => ?_, fun key hk => ?_⟩
          · obtain rfl := Option.some.inj hk
            simpa [WantFile.key] using ClaimTable.held_of_claim hd hr
          · by_cases hf : f = w.folderIdx
            · rw [hf]
            · rw [Function.update_of_ne hf] at hc
              exact absurd ho (h.none_owned (by rw [hp]; rfl) f c hc)
          · exact ⟨w, rest, hw, Place.claimed.inj hk⟩
        · simpa [hj] using (h.fits j).claim h.distinct hj w.folderIdx w.name
    · rename_i hr
      rw [ClaimTable.claim_denied hd (by simpa using hr), Function.update_eq_self] at ht
      exact Option.some.inj ht ▸ h

theorem inv_leave (h : Inv s) (w : WantFile) (retry : Option Bool) : Inv (s.leave k w retry) := by
  unfold leave
  exact inv_released h rfl (by simp)

omit [DecidableEq W] in
/-- The place and the queue change, the file that the worker is at does not. -/
theorem Fits.stay (h : Fits claims k m) {p : Place} (q : List WantFile)
    (hp : p.key = m.place.key) (hc : ∀ key, p ≠ .claimed key) :
    Fits claims k { m with want := q, place := p } where
  fidx := by
    dsimp only
    rw [hp]
    exact h.fidx
  held key hk := h.held key (hp ▸ hk)
  owned := h.owned
  top key hk := absurd hk (hc key)

/-- **Step.** -/
theorem inv_step (h : Inv s) {e : W × Action} (ht : s.step e = some t) : Inv t := by
  obtain ⟨k, a⟩ := e
  have hk := h.fits k
  unfold step at ht
  dsimp only at ht
  split at ht
  case h_1 _ _ w hp | h_2 _ _ u w hp =>
    rw [← Option.some.inj ht]
    exact inv_set h (hk.stay _ rfl (by simp [hp]))
  case h_3 _ _ hp => exact inv_claimTop h hp ht
  case h_4 _ _ key hp =>
    obtain ⟨w, rest, hw, hkey⟩ := hk.top key hp
    simp only [hw] at ht
    rw [← Option.some.inj ht]
    -- what is popped is what was shown: nothing came between
    exact inv_set h (hk.stay rest (by rw [hp]; exact congrArg some hkey) (by simp))
  case h_5 _ _ w hp =>
    rw [← Option.some.inj ht]
    exact inv_set h (hk.stay _ (by rw [hp]; rfl) (by simp))
  case h_6 _ _ w found hp _ =>
    rw [← Option.some.inj ht]
    exact inv_leave h w none
  case h_7 _ _ w opened hp =>
    rw [← Option.some.inj ht]
    cases opened with
    | false => exact inv_set h (hk.stay _ (by rw [hp]; rfl) (by simp))
    | true => exact inv_set h (hk.stay _ (by rw [hp]; rfl) (by simp))
  case h_8 _ _ w retry hp | h_9 _ _ w hp =>
    rw [← Option.some.inj ht]
    exact inv_set h (hk.stay _ (by rw [hp]; rfl) (by simp))
  case h_10 _ _ w retry hp =>
    rw [← Option.some.inj ht]
    exact inv_leave h w retry
  case h_11 _ _ hp | h_12 _ _ w hp =>
    rw [← Option.some.inj ht]
    exact inv_released h rfl rfl
  case h_13 _ _ hp =>
    rw [← Option.some.inj ht]
    refine inv_set h ⟨rfl, fun key hk' => absurd hk' (by simp [Worker.spawned, Place.key]),
      fun f c hc ho => ?_, fun key hk' => absurd hk' (by simp [Worker.spawned])⟩
    exact absurd ho (h.none_owned (by rw [hp]; rfl) f c hc)
  case h_14 => exact absurd ht (by simp)

theorem inv_run {es : List (W × Action)} (hr : Machine.run step State.init es = some s) : Inv s :=
  Machine.run_inv (fun _ _ _ h ht => inv_step h ht) hr inv_init

end State

/-! ## The main result -/

/-- **Claims exclude each other.** In the table, after any calls of any owners; and so in the
daemon: two workers with one file of a folder active are one worker, and a worker that is at rest
has nothing claimed. -/
theorem claims_exclude :
    (∀ ops : List (ClaimTable.Op W), let t := ops.foldl ClaimTable.apply ClaimTable.empty
      (t.active.map FolderClaim.nameHash).Nodup ∧
      (∀ name j k, t.Held name j → t.Held name k → j = k) ∧
      (∀ name k, t.Held name k → t.claim name k = (t, true)) ∧
      (∀ name k, (t.claim name k).2 = true → (t.claim name k).1.Held name k) ∧
      (∀ name k, (t.claim name k).2 = false → (t.claim name k).1 = t) ∧
      (∀ k, (t.unclaim k).active = t.active.filter fun c => c.owner ≠ some k)) ∧
    (∀ (es : List (W × Action)) (s : State W), Machine.run State.step State.init es = some s →
      (∀ j k v w, (s.workers j).place = .active v → (s.workers k).place = .active w →
        v.key = w.key → j = k) ∧
      (∀ k f, (s.workers k).place = .idle ∨ (s.workers k).place = .gone →
        ∀ c ∈ (s.claims f).active, c.owner ≠ some k)) := by
  constructor
  · intro ops t
    have hd : t.Distinct := ClaimTable.distinct_foldl ops ClaimTable.distinct_empty
    refine ⟨hd, fun name j k => ClaimTable.owner_unique hd, fun name k hk => ?_,
      fun name k => ClaimTable.held_of_claim hd, fun name k => ClaimTable.claim_denied hd,
      t.active_unclaim⟩
    rw [ClaimTable.claim_held hd hk]
    simp
  · intro es s hr
    have h := State.inv_run hr
    refine ⟨fun j k v w hj hk hvw => ?_, fun k f hk => h.none_owned ?_ f⟩
    · exact h.eq_of_key (by rw [hj]; exact congrArg some hvw) (by rw [hk]; rfl)
    · rcases hk with hk | hk <;> rw [hk] <;> rfl

end Workers

def sharedFile : WantFile := ⟨0, .zero [97], [], false, 0⟩

/-- Both are offered the file, and the first one gets the claim. -/
def twoPeers : List (Bool × Action) :=
  [(false, .spawn), (true, .spawn), (false, .push sharedFile), (true, .push sharedFile),
    (false, .claim), (true, .claim), (false, .pop), (false, .look .fetch), (true, .claim),
    (false, .openTemp true), (true, .claim)]

theorem second_worker_waits :
    ∃ s, Machine.run State.step State.init twoPeers = some s ∧
      (s.workers false).place = .active { sharedFile with attempts := 1 } ∧
      (s.workers true).want = [sharedFile] ∧
      ∀ j v, (s.workers j).place = .active v → v.key = sharedFile.key → j = false :=
  ⟨_, rfl, rfl, rfl, fun j v hj hv => (claims_exclude.2 twoPeers _ rfl).1 j false v _ hj rfl hv⟩

end Amisync.Claims

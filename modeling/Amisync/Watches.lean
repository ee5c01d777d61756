import Amisync.Dos
import Amisync.Folders
import Amisync.Lib.Machine
import Amisync.Lib.Sweep
import Mathlib.Data.List.Perm.Basic

/-!
# Watched drawers (`notify_open` to `notify_close` in `scanner.c`)

The scanner has the file system watch the drawers of each folder. After a pass the watches of the
folder are brought in line with the drawers that the walk has met; all folders share one budget.

* `World`: the scanner's list, and the requests that the file system has.
* `notifyAdd`, `notifyRemove`, `notifyReconcile`, `notifyDropFolder`, `notifyClose`: the calls.
* `Core`: every request is of one watch, and none is there twice.
* `removeWhere_spec`, `Beside`: what a loop removes, and what it leaves alone.
* `watches_safe`: every request is ended once.
* `marks_unseen`, `marks_watchAll`, `marks_sweep`: a pass as a mark and sweep.
* `watches_follow`: what is watched after a pass.
-/

namespace Amisync.Watches

def notifyMaxWatch : Nat := 256
def scannerPathMax : Nat := 256

/-- `nr` stands for the `NotifyRequest` in the watch. -/
structure Watch where
  folderIdx : FolderIdx
  seen : Bool
  path : Path
  nr : Nat
  deriving DecidableEq

/-- `NotifyState`. `active` is the file system's: the requests that have been started and not ended. `ended` and
`next` are no part of the program: the requests that have been ended, and how many were started. -/
structure World where
  port : Bool
  watches : List Watch
  count : Nat
  off : FolderIdx → Bool
  on : FolderIdx → Bool
  active : List Nat
  ended : List Nat
  next : Nat

def notifyOpen (port : Bool) : World := ⟨port, [], 0, fun _ => false, fun _ => false, [], [], 0⟩

/-- How memory and `StartNotify` answer. -/
inductive AddAnswer
  | noMemory
  | refused
  | started
  deriving DecidableEq

/-! ## The calls -/

/-- A request that is not active cannot be ended. -/
def endNotify (w : World) (nr : Nat) : Option World :=
  if nr ∈ w.active then some { w with active := w.active.erase nr, ended := w.ended ++ [nr] } else none

def notifyFind (w : World) (fidx : FolderIdx) (path : Path) : Option Watch :=
  w.watches.find? fun x => decide (x.folderIdx = fidx) && decide (x.path = path)

def notifyAdd (w : World) (fidx : FolderIdx) (path : Path) (answer : AddAnswer) : Int × World :=
  if notifyMaxWatch ≤ w.count then (-1, w)
  else match answer with
    | .noMemory => (-1, w)
    | .refused => (0, w)
    | .started =>
      (1, { w with
        watches := ⟨fidx, true, path.take (scannerPathMax - 1), w.next⟩ :: w.watches
        count := w.count + 1
        active := w.next :: w.active
        next := w.next + 1 })

def notifyRemove (w : World) (dead : Watch) : Option World :=
  (endNotify { w with watches := w.watches.eraseP fun x => decide (x.nr = dead.nr) } dead.nr).map fun w =>
    { w with count := w.count - 1 }

/-- `for (w = ns->watches; w; w = next)` with a removal. -/
def removeWhere (p : Watch → Bool) (w : World) : Option World :=
  w.watches.foldlM (fun w x => if p x then notifyRemove w x else some w) w

/-- The watch is found, or added. -/
def watch (w : World) (fidx : FolderIdx) (path : Path) (answer : AddAnswer) : Int × World :=
  match notifyFind w fidx path with
  | some x => (1, { w with watches := w.watches.map fun y => if y.nr = x.nr then { y with seen := true } else y })
  | none => notifyAdd w fidx path answer

/-- The drawers of a walk, with the answers for those that are new. -/
def dirPaths (root : Path) (dirs : List (Bytes × AddAnswer)) : List (Path × AddAnswer) :=
  dirs.filterMap fun d => (addPart scannerPathMax (root.take (scannerPathMax - 1)) d.1).map fun path => (path, d.2)

def watchAll (w : World) (fidx : FolderIdx) (l : List (Path × AddAnswer)) : World :=
  l.foldl (fun w d => (watch w fidx d.1 d.2).2) w

def unseen (fidx : FolderIdx) (w : World) : World :=
  { w with watches := w.watches.map fun x => if x.folderIdx = fidx then { x with seen := false } else x }

def notifyReconcile (w : World) (fidx : FolderIdx) (root : Path) (answer : AddAnswer)
    (dirs : List (Bytes × AddAnswer)) : Option World :=
  if !w.port || w.off fidx then some w
  else
    let r := watch (unseen fidx w) fidx root answer
    if r.1 < 0 then some r.2
    else if r.1 = 0 then
      removeWhere (fun x => decide (x.folderIdx = fidx)) { r.2 with off := Function.update r.2.off fidx true }
    else
      (removeWhere (fun x => decide (x.folderIdx = fidx) && !x.seen) (watchAll r.2 fidx (dirPaths root dirs))).map
        fun w => { w with on := Function.update w.on fidx true }

def notifyDropFolder (w : World) (fidx : FolderIdx) : Option World :=
  (removeWhere (fun x => decide (x.folderIdx = fidx)) w).map fun w =>
    { w with off := Function.update w.off fidx false, on := Function.update w.on fidx false }

def notifyClose (w : World) : Option World :=
  (w.watches.foldlM (fun w x => endNotify w x.nr) w).map fun w => { w with watches := [], port := false }

/-- What the scanner does with the watches, in the order of its passes. The path of a folder fits its field. -/
inductive Event
  | reconcile (fidx : FolderIdx) (root : CString 127) (answer : AddAnswer) (dirs : List (Bytes × AddAnswer))
  | drop (fidx : FolderIdx)

def step (w : World) : Event → Option World
  | .reconcile fidx root answer dirs => notifyReconcile w fidx root.bytes answer dirs
  | .drop fidx => notifyDropFolder w fidx

/-! ## The invariant -/

def Watch.key (x : Watch) : FolderIdx × Path := (x.folderIdx, x.path)

structure Core (w : World) : Prop where
  count : w.count = w.watches.length
  bound : w.count ≤ notifyMaxWatch
  keys : (w.watches.map Watch.key).Nodup
  active : w.active.Perm (w.watches.map Watch.nr)
  started : (w.active ++ w.ended).Perm (List.range w.next)

/-- No folder that cannot be watched has a watch, and without a port none has. -/
structure Inv (w : World) : Prop where
  core : Core w
  off : ∀ i, w.off i = true → ∀ x ∈ w.watches, x.folderIdx ≠ i
  port : w.port = false → w.watches = []

section Calls
variable {w u : World} {x : Watch} {fidx : FolderIdx} {path : Path} {answer : AddAnswer}

theorem Core.nodup (h : Core w) : (w.watches.map Watch.nr).Nodup := by
  have hall : (w.active ++ w.ended).Nodup := h.started.nodup_iff.mpr List.nodup_range
  exact h.active.nodup_iff.mp (List.nodup_append.mp hall).1

theorem Core.nr_lt (h : Core w) (hx : x ∈ w.watches) : x.nr < w.next := by
  have hactive : x.nr ∈ w.active := h.active.mem_iff.mpr (List.mem_map_of_mem hx)
  exact List.mem_range.mp (h.started.mem_iff.mp (List.mem_append_left _ hactive))

/-- The fields that a removal leaves alone. -/
structure Frame (w u : World) : Prop where
  port : u.port = w.port
  off : u.off = w.off
  on : u.on = w.on
  next : u.next = w.next

theorem Frame.refl (w : World) : Frame w w := ⟨rfl, rfl, rfl, rfl⟩

theorem Frame.trans {v : World} (h : Frame w u) (h' : Frame u v) : Frame w v :=
  ⟨h'.port.trans h.port, h'.off.trans h.off, h'.on.trans h.on, h'.next.trans h.next⟩

/-- A request goes from those that are active to those that have ended. -/
theorem ended_perm {active : List Nat} {nr : Nat} (h : nr ∈ active) (ended : List Nat) :
    (active.erase nr ++ (ended ++ [nr])).Perm (active ++ ended) := by
  rw [← List.append_assoc]
  refine List.perm_append_comm.trans ?_
  rw [List.singleton_append, ← List.cons_append]
  exact (List.perm_cons_erase h).symm.append_right ended

/-- **Removed.** -/
theorem notifyRemove_spec (h : Core w) {pre post : List Watch} (hw : w.watches = pre ++ x :: post) :
    ∃ u, notifyRemove w x = some u ∧ u.watches = pre ++ post ∧ Core u ∧ Frame w u := by
  have hnodup := h.nodup
  rw [hw, List.map_append, List.map_cons, List.nodup_append] at hnodup
  have hpre : ∀ y ∈ pre, ¬ decide (y.nr = x.nr) = true := by
    intro y hy heq
    have hsame : y.nr = x.nr := by simpa using heq
    exact hnodup.2.2 y.nr (List.mem_map_of_mem hy) x.nr List.mem_cons_self hsame
  have herase : (w.watches.eraseP fun y => decide (y.nr = x.nr)) = pre ++ post := by
    rw [hw, List.eraseP_append_right _ hpre, List.eraseP_cons_of_pos (by simp)]
  have hmem : x.nr ∈ w.active := h.active.mem_iff.mpr (List.mem_map_of_mem (hw ▸ by simp))
  refine ⟨{ w with
    watches := pre ++ post, active := w.active.erase x.nr, ended := w.ended ++ [x.nr], count := w.count - 1 }, ?_,
    rfl, ⟨?_, ?_, ?_, ?_, ?_⟩, rfl, rfl, rfl, rfl⟩
  · unfold notifyRemove endNotify
    rw [herase, if_pos hmem]
    rfl
  · have hcount := h.count
    rw [hw, List.length_append, List.length_cons] at hcount
    simp only [List.length_append]
    omega
  · have hbound := h.bound
    dsimp only
    omega
  · have hkeys := h.keys
    rw [hw] at hkeys
    exact hkeys.sublist (List.Sublist.map _ (by simp))
  · have hactive := h.active.erase x.nr
    rw [hw] at hactive
    refine hactive.trans ?_
    rw [List.map_append, List.map_append, List.map_cons, List.erase_append_right _ fun hin => ?_, List.erase_cons_head]
    obtain ⟨y, hy, heq⟩ := List.mem_map.mp hin
    exact hpre y hy (by simpa using heq)
  · exact (ended_perm hmem w.ended).trans h.started

/-- **A loop that removes.** -/
theorem removeWhere_spec (h : Core w) (p : Watch → Bool) :
    ∃ u, removeWhere p w = some u ∧ u.watches = w.watches.filter (fun x => !p x) ∧ Core u ∧ Frame w u := by
  have hloop : ∀ (l pre : List Watch) (w : World), Core w → w.watches = pre ++ l →
      ∃ u, l.foldlM (fun w x => if p x then notifyRemove w x else some w) w = some u ∧
        u.watches = pre ++ l.filter (fun x => !p x) ∧ Core u ∧ Frame w u := by
    intro l
    induction l with
    | nil => exact fun pre w h hw => ⟨w, rfl, hw, h, Frame.refl w⟩
    | cons x l ih =>
      intro pre w h hw
      rw [List.foldlM_cons]
      by_cases hx : p x = true
      · obtain ⟨v, hv, hvw, hcore, hframe⟩ := notifyRemove_spec h hw
        obtain ⟨u, hu, huw, hcore', hframe'⟩ := ih pre v hcore hvw
        refine ⟨u, ?_, ?_, hcore', hframe.trans hframe'⟩
        · rw [if_pos hx, hv]
          exact hu
        · rw [huw, List.filter_cons_of_neg (by simp [hx])]
      · obtain ⟨u, hu, huw, hcore', hframe'⟩ := ih (pre ++ [x]) w h (by rw [hw]; simp)
        refine ⟨u, ?_, ?_, hcore', hframe'⟩
        · rw [if_neg hx]
          exact hu
        · rw [huw, List.filter_cons_of_pos (by simpa using hx)]
          simp
  exact hloop w.watches [] w h rfl

/-! ## One drawer -/

theorem notifyFind_some (h : notifyFind w fidx path = some x) :
    x ∈ w.watches ∧ x.folderIdx = fidx ∧ x.path = path := by
  refine ⟨List.mem_of_find?_eq_some h, ?_⟩
  have hx := List.find?_some h
  simpa using hx

theorem notifyFind_none : notifyFind w fidx path = none ↔ ∀ x ∈ w.watches, ¬ (x.folderIdx = fidx ∧ x.path = path) := by
  simp [notifyFind]

theorem notifyFind_of_mem (h : Core w) (hx : x ∈ w.watches) : notifyFind w x.folderIdx x.path = some x := by
  cases hfind : notifyFind w x.folderIdx x.path with
  | none => exact absurd ⟨rfl, rfl⟩ (notifyFind_none.mp hfind x hx)
  | some y =>
    obtain ⟨hy, hidx, hpath⟩ := notifyFind_some hfind
    rw [List.inj_on_of_nodup_map h.keys hy hx (Prod.ext hidx hpath)]

/-! ## What a call leaves alone -/

/-- Only the watches of this folder can have changed. -/
structure Beside (fidx : FolderIdx) (w u : World) : Prop where
  core : Core u
  port : u.port = w.port
  off : u.off = w.off
  others : u.watches.filter (fun x => !decide (x.folderIdx = fidx)) =
    w.watches.filter fun x => !decide (x.folderIdx = fidx)

theorem Beside.refl (h : Core w) : Beside fidx w w := ⟨h, rfl, rfl, rfl⟩

theorem Beside.trans {v : World} (h : Beside fidx w v) (h' : Beside fidx v u) : Beside fidx w u :=
  ⟨h'.core, h'.port.trans h.port, h'.off.trans h.off, h'.others.trans h.others⟩

theorem Beside.mem (h : Beside fidx w u) (hx : x ∈ u.watches) (hne : x.folderIdx ≠ fidx) : x ∈ w.watches := by
  have hmem : x ∈ u.watches.filter fun x => !decide (x.folderIdx = fidx) :=
    List.mem_filter.mpr ⟨hx, by simpa using hne⟩
  rw [h.others] at hmem
  exact (List.mem_filter.mp hmem).1

/-- A change of the marks, which no key and no request depends on. -/
theorem beside_map (h : Core w) {f : Watch → Watch} (hkey : ∀ x, (f x).key = x.key) (hnr : ∀ x, (f x).nr = x.nr)
    (hothers : ∀ x ∈ w.watches, x.folderIdx ≠ fidx → f x = x) :
    Beside fidx w { w with watches := w.watches.map f } := by
  have hkeys : (w.watches.map f).map Watch.key = w.watches.map Watch.key := by
    rw [List.map_map]
    exact List.map_congr_left fun x _ => hkey x
  have hnrs : (w.watches.map f).map Watch.nr = w.watches.map Watch.nr := by
    rw [List.map_map]
    exact List.map_congr_left fun x _ => hnr x
  refine ⟨⟨?_, h.bound, ?_, ?_, h.started⟩, rfl, rfl, ?_⟩
  · rw [List.length_map]
    exact h.count
  · rw [hkeys]
    exact h.keys
  · rw [hnrs]
    exact h.active
  · have hp : (fun x => !decide (x.folderIdx = fidx)) ∘ f = fun x => !decide (x.folderIdx = fidx) := by
      funext x
      have hidx : (f x).folderIdx = x.folderIdx := congrArg Prod.fst (hkey x)
      simp [hidx]
    have hid : ∀ x ∈ w.watches.filter (fun x => !decide (x.folderIdx = fidx)), f x = id x := by
      intro x hx
      obtain ⟨hmem, hne⟩ := List.mem_filter.mp hx
      exact hothers x hmem (by simpa using hne)
    dsimp only
    rw [List.filter_map, hp, List.map_congr_left hid, List.map_id]

theorem beside_unseen (h : Core w) : Beside fidx w (unseen fidx w) := by
  refine beside_map h (fun x => ?_) (fun x => ?_) fun x _ hne => if_neg hne
  · split <;> rfl
  · split <;> rfl

theorem beside_add (h : Core w) (hnew : notifyFind w fidx path = none) (hlen : path.length < scannerPathMax) :
    Beside fidx w (notifyAdd w fidx path answer).2 := by
  unfold notifyAdd
  split
  · exact Beside.refl h
  · rename_i hroom
    cases answer with
    | noMemory => exact Beside.refl h
    | refused => exact Beside.refl h
    | started =>
      have htake : path.take (scannerPathMax - 1) = path := List.take_of_length_le (by omega)
      refine ⟨⟨?_, ?_, ?_, ?_, ?_⟩, rfl, rfl, ?_⟩
      · exact congrArg (· + 1) h.count
      · exact Nat.lt_of_not_le hroom
      · refine List.nodup_cons.mpr ⟨fun hin => ?_, h.keys⟩
        obtain ⟨x, hx, hkey⟩ := List.mem_map.mp hin
        obtain ⟨hidx, hpath⟩ := Prod.ext_iff.mp hkey
        exact notifyFind_none.mp hnew x hx ⟨hidx, hpath.trans htake⟩
      · exact h.active.cons _
      · rw [List.cons_append, List.range_succ]
        exact (h.started.cons _).trans (List.perm_append_singleton _ _).symm
      · exact List.filter_cons_of_neg (by simp)

theorem beside_watch (h : Core w) (hlen : path.length < scannerPathMax) :
    Beside fidx w (watch w fidx path answer).2 := by
  unfold watch
  cases hfind : notifyFind w fidx path with
  | none => exact beside_add h hfind hlen
  | some x =>
    obtain ⟨hx, hidx, -⟩ := notifyFind_some hfind
    refine beside_map h (fun y => ?_) (fun y => ?_) fun y hy hne => if_neg fun heq => hne ?_
    · split <;> rfl
    · split <;> rfl
    · rw [List.inj_on_of_nodup_map h.nodup hy hx heq, hidx]

theorem beside_watchAll {l : List (Path × AddAnswer)} (h : Core w) (hlen : ∀ d ∈ l, d.1.length < scannerPathMax) :
    Beside fidx w (watchAll w fidx l) := by
  induction l generalizing w with
  | nil => exact Beside.refl h
  | cons d l ih =>
    have hone : Beside fidx w (watch w fidx d.1 d.2).2 := beside_watch h (hlen d List.mem_cons_self)
    exact hone.trans (ih hone.core fun e he => hlen e (List.mem_cons_of_mem _ he))

theorem beside_remove (h : Core w) {p : Watch → Bool} (hp : ∀ x, p x = true → x.folderIdx = fidx) :
    ∃ u, removeWhere p w = some u ∧ u.watches = w.watches.filter (fun x => !p x) ∧ Beside fidx w u := by
  obtain ⟨u, hu, hw, hcore, hframe⟩ := removeWhere_spec h p
  refine ⟨u, hu, hw, hcore, hframe.port, hframe.off, ?_⟩
  rw [hw, List.filter_filter]
  refine List.filter_congr fun x _ => ?_
  cases hx : p x with
  | false => simp
  | true => simp [hp x hx]

theorem folderIdx_of_stale (fidx : FolderIdx) (x : Watch) (hx : (decide (x.folderIdx = fidx) && !x.seen) = true) :
    x.folderIdx = fidx := of_decide_eq_true (Bool.and_eq_true_iff.mp hx).1

theorem dirPaths_short {root : Path} {dirs : List (Bytes × AddAnswer)} :
    ∀ d ∈ dirPaths root dirs, d.1.length < scannerPathMax := by
  intro d hd
  obtain ⟨e, -, he⟩ := List.mem_filterMap.mp hd
  obtain ⟨p, hp, rfl⟩ := Option.map_eq_some_iff.mp he
  obtain ⟨rfl, hlen⟩ := fitted_eq_some.mp hp
  exact hlen

end Calls

/-! ## Runs -/

section Runs
variable {w u : World} {fidx : FolderIdx}

theorem inv_open (port : Bool) : Inv (notifyOpen port) :=
  ⟨⟨rfl, Nat.zero_le _, List.nodup_nil, List.Perm.refl _, List.Perm.refl _⟩, fun _ h => absurd h (by simp [notifyOpen]),
    fun _ => rfl⟩

/-- A folder that gets no watch keeps what the others need. -/
theorem Inv.beside (h : Inv w) (hu : Beside fidx w u) (hport : w.port = true) (hoff : w.off fidx = false) : Inv u := by
  refine ⟨hu.core, fun i hi x hx heq => ?_, fun hno => absurd (hu.port.symm.trans hno) (by simp [hport])⟩
  rw [hu.off] at hi
  have hne : x.folderIdx ≠ fidx := by
    intro hsame
    rw [← heq, hsame, hoff] at hi
    exact absurd hi (by simp)
  exact h.off i hi x (hu.mem hx hne) heq

/-- The loop over a folder's watches, and a latch that is set anew. -/
theorem inv_removeAll (fidx : FolderIdx) (h : Core w) (hothers : ∀ i, i ≠ fidx → w.off i = true → ∀ x ∈ w.watches, x.folderIdx ≠ i)
    (hport : w.port = false → w.watches = []) :
    ∃ u, removeWhere (fun x => decide (x.folderIdx = fidx)) w = some u ∧ Beside fidx w u ∧
      (∀ x ∈ u.watches, x.folderIdx ≠ fidx) ∧ Inv u := by
  obtain ⟨u, hu, hw, hbeside⟩ := beside_remove (p := fun x => decide (x.folderIdx = fidx)) h fun x hx => by simpa using hx
  have hgone : ∀ x ∈ u.watches, x.folderIdx ≠ fidx := by
    intro x hx
    rw [hw] at hx
    simpa using (List.mem_filter.mp hx).2
  refine ⟨u, hu, hbeside, hgone, hbeside.core, fun i hi x hx => ?_, fun hno => ?_⟩
  · rw [hbeside.off] at hi
    by_cases hne : i = fidx
    · exact hne ▸ hgone x hx
    · exact hothers i hne hi x (hbeside.mem hx (hgone x hx))
  · rw [hw, hport (hbeside.port.symm.trans hno)]
    rfl

/-- No invariant depends on the latches but those of folders without watches. -/
theorem Core.latches (h : Core w) (off on : FolderIdx → Bool) : Core { w with off := off, on := on } :=
  ⟨h.count, h.bound, h.keys, h.active, h.started⟩

theorem inv_reconcile (h : Inv w) (root : Path) (hlen : root.length < scannerPathMax) (answer : AddAnswer)
    (dirs : List (Bytes × AddAnswer)) : ∃ u, notifyReconcile w fidx root answer dirs = some u ∧ Inv u := by
  unfold notifyReconcile
  by_cases hskip : (!w.port || w.off fidx) = true
  · exact ⟨w, if_pos hskip, h⟩
  · rw [if_neg hskip]
    obtain ⟨hport, hoff⟩ : w.port = true ∧ w.off fidx = false := by simpa using hskip
    have hunseen : Beside fidx w (unseen fidx w) := beside_unseen h.core
    have hroot : Beside fidx w (watch (unseen fidx w) fidx root answer).2 :=
      hunseen.trans (beside_watch hunseen.core hlen)
    have hinv := h.beside hroot hport hoff
    dsimp only
    split
    · exact ⟨_, rfl, hinv⟩
    · split
      · obtain ⟨u, hu, -, -, hu'⟩ := inv_removeAll fidx (hroot.core.latches (Function.update
          (watch (unseen fidx w) fidx root answer).2.off fidx true) (watch (unseen fidx w) fidx root answer).2.on)
          (fun i hne hi => hinv.off i (by simpa [Function.update_of_ne hne] using hi)) hinv.port
        exact ⟨u, hu, hu'⟩
      · have hshort : ∀ d ∈ dirPaths root dirs, d.1.length < scannerPathMax := dirPaths_short
        have hall := hroot.trans (beside_watchAll hroot.core hshort)
        obtain ⟨u, hu, -, hbeside⟩ := beside_remove hall.core (folderIdx_of_stale fidx)
        have hlast := h.beside (hall.trans hbeside) hport hoff
        refine ⟨{ u with on := Function.update u.on fidx true }, ?_, hlast.core.latches _ _, hlast.off, hlast.port⟩
        rw [hu]
        rfl

theorem inv_drop (h : Inv w) : ∃ u, notifyDropFolder w fidx = some u ∧ Inv u := by
  obtain ⟨u, hu, -, hgone, hinv⟩ := inv_removeAll fidx h.core (fun i _ => h.off i) h.port
  refine ⟨{ u with off := Function.update u.off fidx false, on := Function.update u.on fidx false }, ?_,
    hinv.core.latches _ _, fun i hi x hx => ?_, hinv.port⟩
  · rw [notifyDropFolder, hu]
    rfl
  · by_cases hne : i = fidx
    · exact hne ▸ hgone x hx
    · exact hinv.off i (by simpa [Function.update_of_ne hne] using hi) x hx

theorem inv_step (h : Inv w) (e : Event) : ∃ u, step w e = some u ∧ Inv u := by
  cases e with
  | reconcile fidx root answer dirs =>
    exact inv_reconcile h root.bytes (lt_of_le_of_lt root.short (by decide)) answer dirs
  | drop fidx => exact inv_drop h

/-- The loop of `notify_close`. -/
theorem endAll_spec {l : List Watch} (hactive : w.active.Perm (l.map Watch.nr))
    (hstarted : (w.active ++ w.ended).Perm (List.range w.next)) :
    ∃ u, l.foldlM (fun w x => endNotify w x.nr) w = some u ∧ u.active = [] ∧ u.ended.Perm (List.range u.next) := by
  induction l generalizing w with
  | nil =>
    have hnil : w.active = [] := List.perm_nil.mp hactive
    rw [hnil] at hstarted
    exact ⟨w, rfl, hnil, hstarted⟩
  | cons x l ih =>
    have hmem : x.nr ∈ w.active := hactive.mem_iff.mpr (by simp)
    have hrest : (w.active.erase x.nr).Perm (l.map Watch.nr) := by
      have herase := hactive.erase x.nr
      rwa [List.map_cons, List.erase_cons_head] at herase
    obtain ⟨u, hu, hnil, hended⟩ := ih (w := { w with active := w.active.erase x.nr, ended := w.ended ++ [x.nr] }) hrest
      ((ended_perm hmem w.ended).trans hstarted)
    refine ⟨u, ?_, hnil, hended⟩
    rw [List.foldlM_cons, endNotify, if_pos hmem]
    exact hu

/-- **Ended once.** Every run goes through, whatever memory and the file system answer; at most so many drawers
as the budget allows are watched, each once for a folder and by a request of its own; and when the scanner
closes, each request that was started has been ended once. -/
theorem watches_safe (port : Bool) (es : List Event) :
    ∃ w, Machine.run step (notifyOpen port) es = some w ∧ Inv w ∧
      ∃ u, notifyClose w = some u ∧ u.active = [] ∧ u.ended.Perm (List.range u.next) := by
  obtain ⟨w, hrun, hinv⟩ := Machine.run_total (fun _ e h => inv_step h e) es (inv_open port)
  obtain ⟨u, hu, hnil, hended⟩ := endAll_spec hinv.core.active hinv.core.started
  refine ⟨w, hrun, hinv, { u with watches := [], port := false }, ?_, hnil, hended⟩
  rw [notifyClose, hu]
  rfl

end Runs

/-! ## The watches as marks -/

section Marks
variable {w u : World} {x : Watch} {fidx : FolderIdx} {path : Path} {answer : AddAnswer}

/-- What is watched, and whether its mark has been taken away. -/
def marks (w : World) : Sweep.Marks (FolderIdx × Path) := fun k => (notifyFind w k.1 k.2).map fun x => !x.seen

theorem marks_eq_some (h : Core w) {k : FolderIdx × Path} {b : Bool} :
    marks w k = some b ↔ ∃ x ∈ w.watches, x.key = k ∧ (!x.seen) = b := by
  constructor
  · intro hk
    obtain ⟨x, hx, hb⟩ := Option.map_eq_some_iff.mp hk
    obtain ⟨hmem, hidx, hpath⟩ := notifyFind_some hx
    exact ⟨x, hmem, Prod.ext hidx hpath, hb⟩
  · rintro ⟨x, hx, rfl, rfl⟩
    exact congrArg (Option.map _) (notifyFind_of_mem h hx)

theorem notifyFind_map {f : Watch → Watch} (hkey : ∀ x, (f x).key = x.key) :
    notifyFind { w with watches := w.watches.map f } fidx path = (notifyFind w fidx path).map f := by
  unfold notifyFind
  rw [List.find?_map]
  congr 2
  funext x
  obtain ⟨hidx, hpath⟩ := Prod.ext_iff.mp (hkey x)
  have hidx : (f x).folderIdx = x.folderIdx := hidx
  have hpath : (f x).path = x.path := hpath
  simp [hidx, hpath]

theorem marks_unseen : marks (unseen fidx w) = Sweep.exec (marks w) (.mark fun k => decide (k.1 = fidx)) := by
  funext k
  have hmap : notifyFind (unseen fidx w) k.1 k.2 =
      (notifyFind w k.1 k.2).map fun x => if x.folderIdx = fidx then { x with seen := false } else x :=
    notifyFind_map fun x => by split <;> rfl
  simp only [marks, hmap, Sweep.exec]
  cases hfind : notifyFind w k.1 k.2 with
  | none => simp
  | some x =>
    obtain ⟨-, hidx, -⟩ := notifyFind_some hfind
    by_cases hk : k.1 = fidx
    · simp [hidx, hk]
    · simp [hidx, hk]

theorem marks_add (hnew : notifyFind w fidx path = none) (hlen : path.length < scannerPathMax) :
    marks (notifyAdd w fidx path answer).2 =
      Sweep.exec (marks w) (.found (fidx, path) (decide (0 < (notifyAdd w fidx path answer).1))) := by
  have hnone : marks w (fidx, path) = none := congrArg (Option.map _) hnew
  rw [Sweep.exec_found]
  unfold notifyAdd
  split
  · rw [if_pos ⟨hnone, by simp⟩]
  · cases answer with
    | noMemory => rw [if_pos ⟨hnone, by simp⟩]
    | refused => rw [if_pos ⟨hnone, by simp⟩]
    | started =>
      have htake : path.take (scannerPathMax - 1) = path := List.take_of_length_le (by omega)
      rw [if_neg (by simp)]
      funext k
      by_cases hk : k = (fidx, path)
      · rw [hk, Function.update_self]
        simp [marks, notifyFind, htake]
      · rw [Function.update_of_ne hk]
        unfold marks notifyFind
        rw [List.find?_cons_of_neg]
        intro hfirst
        have hsame : fidx = k.1 ∧ path = k.2 := by simpa [htake] using hfirst
        exact hk (Prod.ext hsame.1.symm hsame.2.symm)

theorem marks_watch (h : Core w) (hlen : path.length < scannerPathMax) :
    marks (watch w fidx path answer).2 =
      Sweep.exec (marks w) (.found (fidx, path) (decide (0 < (watch w fidx path answer).1))) := by
  unfold watch
  cases hfind : notifyFind w fidx path with
  | none => exact marks_add hfind hlen
  | some x =>
    obtain ⟨hx, hidx, hpath⟩ := notifyFind_some hfind
    have hkey : ∀ y : Watch, (if y.nr = x.nr then { y with seen := true } else y).key = y.key := fun y => by
      split <;> rfl
    rw [Sweep.exec_found, if_neg (by simp)]
    funext k
    rw [marks, notifyFind_map hkey]
    by_cases hk : k = (fidx, path)
    · rw [hk, Function.update_self, hfind]
      simp
    · rw [Function.update_of_ne hk, marks]
      cases hother : notifyFind w k.1 k.2 with
      | none => rfl
      | some y =>
        obtain ⟨hy, hyidx, hypath⟩ := notifyFind_some hother
        have hne : y.nr ≠ x.nr := by
          intro heq
          have hsame := List.inj_on_of_nodup_map h.nodup hy hx heq
          exact hk (Prod.ext (hyidx.symm.trans (hsame ▸ hidx)) (hypath.symm.trans (hsame ▸ hpath)))
        simp [hne]

theorem marks_sweep (h : Core w) (hu : Core u)
    (hw : u.watches = w.watches.filter fun x => !(decide (x.folderIdx = fidx) && !x.seen)) :
    marks u = Sweep.exec (marks w) (.sweep fun k => decide (k.1 = fidx)) := by
  funext k
  rw [Sweep.exec_sweep]
  split
  · rename_i hstale
    rw [Option.eq_none_iff_forall_ne_some]
    intro b hb
    obtain ⟨y, hy, hyk, -⟩ := (marks_eq_some hu).mp hb
    obtain ⟨x, hx, hxk, hseen⟩ := (marks_eq_some h).mp hstale.2
    rw [hw] at hy
    obtain ⟨hy, hkept⟩ := List.mem_filter.mp hy
    obtain rfl := List.inj_on_of_nodup_map h.keys hy hx (hyk.trans hxk.symm)
    have hidx : y.folderIdx = fidx := (congrArg Prod.fst hyk).trans (by simpa using hstale.1)
    have hseen : y.seen = false := by simpa using hseen
    simp [hidx, hseen] at hkept
  · rename_i hkept
    refine Option.ext fun b => ?_
    rw [marks_eq_some hu, marks_eq_some h]
    refine exists_congr fun x => and_congr_left fun hxb => ?_
    rw [hw, List.mem_filter, and_iff_left_iff_imp]
    intro hx
    have hmark := (marks_eq_some h).mpr ⟨x, hx, hxb⟩
    by_contra hgone
    obtain ⟨hidx, hseen⟩ : x.folderIdx = fidx ∧ x.seen = false := by simpa using hgone
    refine hkept ⟨?_, ?_⟩
    · rw [← hxb.1]
      exact decide_eq_true hidx
    · rw [hmark, ← hxb.2, hseen]
      rfl

/-- The drawers in turn, and for which of them there was a request. -/
def foundMoves : World → FolderIdx → List (Path × AddAnswer) → List (Sweep.Move (FolderIdx × Path))
  | _, _, [] => []
  | w, fidx, d :: l =>
    .found (fidx, d.1) (decide (0 < (watch w fidx d.1 d.2).1)) :: foundMoves (watch w fidx d.1 d.2).2 fidx l

variable {l : List (Path × AddAnswer)}

theorem marks_watchAll (h : Core w) (hlen : ∀ d ∈ l, d.1.length < scannerPathMax) :
    marks (watchAll w fidx l) = Sweep.run (marks w) (foundMoves w fidx l) := by
  induction l generalizing w with
  | nil => rfl
  | cons d l ih =>
    have hd := hlen d List.mem_cons_self
    have hone : Beside fidx w (watch w fidx d.1 d.2).2 := beside_watch h hd
    have hrest := ih hone.core fun e he => hlen e (List.mem_cons_of_mem _ he)
    rw [marks_watch h hd] at hrest
    exact hrest

theorem foundMoves_foreign {mine : FolderIdx × Path → Bool} : ∀ op ∈ foundMoves w fidx l, Sweep.Foreign mine op := by
  induction l generalizing w with
  | nil => exact fun op hop => absurd hop List.not_mem_nil
  | cons d l ih =>
    intro op hop
    rcases List.mem_cons.mp hop with rfl | hop
    · trivial
    · exact ih op hop

theorem found_mem {k : FolderIdx × Path} :
    (∃ room, Sweep.Move.found k room ∈ foundMoves w fidx l) ↔ k.1 = fidx ∧ k.2 ∈ l.map Prod.fst := by
  induction l generalizing w with
  | nil => simp [foundMoves]
  | cons d l ih =>
    have hfirst : k = (fidx, d.1) ↔ k.1 = fidx ∧ k.2 = d.1 := Prod.ext_iff
    simp only [foundMoves, List.mem_cons, Sweep.Move.found.injEq, exists_or, ih, List.map_cons, hfirst]
    simp [and_or_left]

theorem count_watch : (watch w fidx path answer).2.count ≤ w.count + 1 := by
  unfold watch notifyAdd
  split
  · exact Nat.le_succ _
  · split
    · exact Nat.le_succ _
    · cases answer with
      | noMemory | refused => exact Nat.le_succ _
      | started => exact Nat.le_refl _

theorem watch_started (hroom : notifyFind w fidx path ≠ none ∨ w.count < notifyMaxWatch ∧ answer = .started) :
    (watch w fidx path answer).1 = 1 := by
  unfold watch notifyAdd
  split
  · rfl
  · rename_i hnone
    obtain ⟨hcount, rfl⟩ := hroom.resolve_left fun h => h hnone
    rw [if_neg (Nat.not_le.mpr hcount)]

theorem found_room (hroom : w.count + l.length ≤ notifyMaxWatch) (hall : ∀ d ∈ l, d.2 = .started) :
    ∀ d ∈ l, Sweep.Move.found (fidx, d.1) true ∈ foundMoves w fidx l := by
  induction l generalizing w with
  | nil => exact fun d hd => absurd hd List.not_mem_nil
  | cons e l ih =>
    rw [List.length_cons] at hroom
    intro d hd
    rcases List.mem_cons.mp hd with rfl | hd
    · have hstarted : (watch w fidx d.1 d.2).1 = 1 :=
        watch_started (Or.inr ⟨by omega, hall d List.mem_cons_self⟩)
      refine List.mem_cons.mpr (Or.inl ?_)
      rw [hstarted]
      rfl
    · have hcount : (watch w fidx e.1 e.2).2.count ≤ w.count + 1 := count_watch
      exact List.mem_cons_of_mem _ (ih (by omega) (fun d hd => hall d (List.mem_cons_of_mem _ hd)) d hd)

end Marks

/-! ## After a pass -/

def Watched (w : World) (fidx : FolderIdx) (path : Path) : Prop := (notifyFind w fidx path).isSome = true

/-- The drawer of the folder, and those that the walk has met. -/
def named (root : CString 127) (answer : AddAnswer) (dirs : List (Bytes × AddAnswer)) : List (Path × AddAnswer) :=
  (root.bytes, answer) :: dirPaths root.bytes dirs

section Follow
variable {w u : World} {fidx : FolderIdx}

theorem named_short {root : CString 127} {answer : AddAnswer} {dirs : List (Bytes × AddAnswer)} :
    ∀ d ∈ named root answer dirs, d.1.length < scannerPathMax := by
  intro d hd
  rcases List.mem_cons.mp hd with rfl | hd
  · exact lt_of_le_of_lt root.short (by decide)
  · exact dirPaths_short d hd

/-- **Followed.** After each run, a pass over a folder whose drawer is or can be watched. Then only what it has met
is watched for the folder: all of it that was watched before, and the rest too where the budget and the file
system allow it. The watches of the other folders are as they were. -/
theorem watches_follow (port : Bool) (es : List Event) (hrun : Machine.run step (notifyOpen port) es = some w)
    (root : CString 127) (answer : AddAnswer) (dirs : List (Bytes × AddAnswer)) (hport : w.port = true)
    (hoff : w.off fidx = false)
    (hroot : Watched w fidx root.bytes ∨ w.count < notifyMaxWatch ∧ answer = .started) :
    ∃ u, step w (.reconcile fidx root answer dirs) = some u ∧ u.on fidx = true ∧
      (∀ path, Watched u fidx path → path ∈ (named root answer dirs).map Prod.fst) ∧
      (∀ path ∈ (named root answer dirs).map Prod.fst, Watched w fidx path → Watched u fidx path) ∧
      (w.count + (named root answer dirs).length ≤ notifyMaxWatch → (∀ d ∈ named root answer dirs, d.2 = .started) →
        ∀ d ∈ named root answer dirs, Watched u fidx d.1) ∧
      u.watches.filter (fun x => !decide (x.folderIdx = fidx)) =
        w.watches.filter fun x => !decide (x.folderIdx = fidx) := by
  have hcore := (Machine.run_inv (fun s e t h hst => by
    obtain ⟨u, hu, hinv⟩ := inv_step h e
    exact Option.some.inj (hu.symm.trans hst) ▸ hinv) hrun (inv_open port)).core
  have hunseen : Beside fidx w (unseen fidx w) := beside_unseen hcore
  have hall : Beside fidx w (watchAll (unseen fidx w) fidx (named root answer dirs)) :=
    hunseen.trans (beside_watchAll hunseen.core named_short)
  obtain ⟨v, hv, hvw, hbeside⟩ := beside_remove hall.core (folderIdx_of_stale fidx)
  have hfirst : (watch (unseen fidx w) fidx root.bytes answer).1 = 1 := by
    refine watch_started (hroot.imp (fun hthere hnone => ?_) fun hfree => hfree)
    have hsome : ((notifyFind w fidx root.bytes).map fun x =>
        if x.folderIdx = fidx then { x with seen := false } else x) = none :=
      (notifyFind_map fun x => by split <;> rfl).symm.trans hnone
    rw [Watched, Option.map_eq_none_iff.mp hsome] at hthere
    exact absurd hthere (by simp)
  -- the pass is a mark, the findings in turn, and a sweep
  have hmarks : marks v = Sweep.exec (Sweep.run (Sweep.exec (marks w) (.mark fun k => decide (k.1 = fidx)))
      (foundMoves (unseen fidx w) fidx (named root answer dirs))) (.sweep fun k => decide (k.1 = fidx)) := by
    rw [marks_sweep hall.core hbeside.core hvw, marks_watchAll hunseen.core named_short, marks_unseen]
  have hlive : ∀ path, Watched v fidx path ↔ path ∈ (named root answer dirs).map Prod.fst ∧
      (Watched w fidx path ∨
        Sweep.Move.found (fidx, path) true ∈ foundMoves (unseen fidx w) fidx (named root answer dirs)) := by
    intro path
    have hforeign : ∀ op ∈ foundMoves (unseen fidx w) fidx (named root answer dirs),
        Sweep.Foreign (fun k => decide (k.1 = fidx)) op := foundMoves_foreign
    have hswept := Sweep.sweep_run (m := marks w) (k := (fidx, path)) hforeign (decide_eq_true rfl)
    rw [← hmarks, found_mem] at hswept
    simpa [marks, Watched, Option.isSome_map] using hswept
  refine ⟨{ v with on := Function.update v.on fidx true }, ?_, Function.update_self .., fun path h => ?_,
    fun path hpath hthere => ?_, fun hroom hstarted d hd => ?_, (hall.trans hbeside).others⟩
  · have hon : ¬ (!w.port || w.off fidx) = true := by simp [hport, hoff]
    show notifyReconcile w fidx root.bytes answer dirs = _
    unfold notifyReconcile
    rw [if_neg hon]
    dsimp only
    rw [hfirst, if_neg (by decide), if_neg (by decide)]
    exact congrArg (Option.map _) hv
  · exact ((hlive path).mp h).1
  · exact (hlive path).mpr ⟨hpath, Or.inl hthere⟩
  · exact (hlive d.1).mpr ⟨List.mem_map_of_mem hd, Or.inr (found_room (w := unseen fidx w) hroom hstarted d hd)⟩

def workDrawer : CString 127 := .ofBytes 127 [87, 58]

/-- The first pass over a folder with the drawers `a` and `b`, of which `b` is gone at the second. -/
theorem watches_follow_twice : ∃ w u, Machine.run step (notifyOpen true)
    [.reconcile 0 workDrawer .started [([97], .started), ([98], .started)]] = some w ∧ w.watches.length = 3 ∧
      step w (.reconcile 0 workDrawer .noMemory [([97], .noMemory)]) = some u ∧
      Watched u 0 [87, 58, 97] ∧ ¬ Watched u 0 [87, 58, 98] := by
  have hfacts : ((Machine.run step (notifyOpen true)
      [.reconcile 0 workDrawer .started [([97], .started), ([98], .started)]]).any fun w =>
        w.port && !w.off 0 && (notifyFind w 0 workDrawer.bytes).isSome && (notifyFind w 0 [87, 58, 97]).isSome &&
          decide (w.watches.length = 3)) = true := by decide +kernel
  obtain ⟨w, hw, hfacts⟩ := (Option.any_eq_true _ _).mp hfacts
  simp only [Bool.and_eq_true, Bool.not_eq_true', decide_eq_true_eq] at hfacts
  obtain ⟨⟨⟨⟨hport, hoff⟩, hroot⟩, ha⟩, hlength⟩ := hfacts
  obtain ⟨u, hu, -, hmet, hkept, -, -⟩ := watches_follow true _ hw workDrawer .noMemory [([97], .noMemory)] hport hoff
    (Or.inl hroot)
  refine ⟨w, u, hw, hlength, hu, hkept _ (by decide) ha, fun hb => ?_⟩
  have hin := hmet _ hb
  revert hin
  decide

end Follow

end Amisync.Watches

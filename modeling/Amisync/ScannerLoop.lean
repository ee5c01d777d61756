import Amisync.Lib.Machine
import Mathlib.Data.Nat.Bitwise
import Mathlib.Logic.Function.Basic

/-!
# When folders are scanned (`scanner_run`, `nap`, `scanner_rescan`)

The scanner goes over all folders once in an interval, and at once where it is asked to:
for all of them, or for some. The daemon asks at any time, adds and removes folders
meanwhile, and asks for the end.

* `Scanner`, `Event`, `step`: the loop of the scanner, and what the daemon does.
* `Seen`, `seen_step`: a request waits with a signal, or the pass under way comes to it.
* `Handle`, `handle_step`: what the daemon knows of the scanner.
* `rescan_seen`: no request is lost, and none waits for the interval.
* `scanner_stops`: nothing is sent to a scanner that is gone, and it can always end.
-/

namespace Amisync.ScannerLoop

def configMaxFolders : Nat := 8
def scannerInterval : Nat := 60
def notifyQuietSecs : Nat := 2

/-! ## The loop -/

/-- `counted` has read the number of folders, `passing` has taken the requests: folder `i` is
next. `napping` has waited `k` seconds. -/
inductive Phase
  | starting
  | ready
  | counted (nf : Nat)
  | passing (nf mask i : Nat)
  | scanning (nf mask i : Nat)
  | napping (k : Nat) (dirty : Bool) (quiet : Nat)
  | flushing
  | gone
  deriving DecidableEq

/-- `scanner_stop` waits in `joining`. -/
inductive Daemon
  | serving
  | joining
  | joined
  deriving DecidableEq

/-- `wanted` is no part of the program: the folders whose scan has been asked for and has not begun
since. -/
structure Scanner where
  phase : Phase
  numFolders : Nat
  removed : Nat → Bool
  rescanMask : Nat
  rescanAll : Bool
  sigRescan : Bool
  sigStop : Bool
  daemon : Daemon
  proc : Bool
  exited : Bool
  reply : Bool
  wanted : Nat → Bool

inductive Event
  | begin (ok : Bool)
  | count
  | take
  | next
  | scanned
  | look (notified : Bool)
  | flush
  | rescan
  | rescanFolder (idx : Nat)
  | stop
  | join
  | add (i : Nat)
  | remove (i : Nat)

namespace Scanner

/-- A folder in use. -/
def live (s : Scanner) (i : Nat) : Bool := decide (i < s.numFolders) && !s.removed i

/-- The requests are taken. -/
def take (s : Scanner) (nf : Nat) : Scanner :=
  { s with
    phase := .passing nf (if s.rescanAll then 0 else s.rescanMask) 0
    rescanMask := 0
    rescanAll := false }

/-- One folder of a pass. -/
def passOne (s : Scanner) (nf mask i : Nat) : Scanner :=
  if nf ≤ i then { s with phase := .napping 0 false 0 }
  else if s.removed i || (decide (mask ≠ 0) && !mask.testBit i) then { s with phase := .passing nf mask (i + 1) }
  else { s with phase := .scanning nf mask i, wanted := Function.update s.wanted i false }

/-- One second of `nap`, or its end. -/
def nap (s : Scanner) (k : Nat) (dirty : Bool) (quiet : Nat) (notified : Bool) : Scanner :=
  if k < scannerInterval then
    if s.sigStop then { s with phase := .flushing }
    else if s.sigRescan then { s with phase := .ready, sigRescan := false }
    else if notified then { s with phase := .napping (k + 1) true 0 }
    else if dirty then
      if notifyQuietSecs ≤ quiet + 1 then { s with phase := .ready }
      else { s with phase := .napping (k + 1) true (quiet + 1) }
    else { s with phase := .napping (k + 1) false quiet }
  else { s with phase := if s.sigStop then .flushing else .ready, sigRescan := false }

/-- `drain_scanner_locked` -/
def drainScannerLocked (s : Scanner) : Scanner :=
  if s.exited = false ∧ s.reply = true then { s with exited := true, proc := false, reply := false } else s

/-- `scanner_rescan` -/
def scannerRescan (s : Scanner) : Scanner :=
  let s := s.drainScannerLocked
  if s.proc then
    { s with rescanAll := true, sigRescan := true, wanted := fun i => s.live i || s.wanted i }
  else s

/-- `scanner_rescan_folder` -/
def scannerRescanFolder (s : Scanner) (idx : Nat) : Scanner :=
  if configMaxFolders ≤ idx then s
  else
    let s := s.drainScannerLocked
    if s.proc then
      { s with
        rescanMask := s.rescanMask ||| 2 ^ idx
        sigRescan := true
        wanted := Function.update s.wanted idx (s.live idx || s.wanted idx) }
    else s

/-- `scanner_stop`, up to the wait. -/
def scannerStop (s : Scanner) : Scanner :=
  let s := s.drainScannerLocked
  { s with sigStop := s.sigStop || s.proc, daemon := if s.exited then .joined else .joining }

end Scanner

def step (s : Scanner) : Event → Option Scanner
  | .begin ok =>
    if s.phase ≠ .starting then none
    else some (if ok then { s with phase := .ready } else { s with phase := .gone, reply := true })
  | .count => if s.phase ≠ .ready then none else some { s with phase := .counted s.numFolders }
  | .take =>
    match s.phase with
    | .counted nf => some (s.take nf)
    | _ => none
  | .next =>
    match s.phase with
    | .passing nf mask i => some (s.passOne nf mask i)
    | _ => none
  | .scanned =>
    match s.phase with
    | .scanning nf mask i => some { s with phase := .passing nf mask (i + 1) }
    | _ => none
  | .look notified =>
    match s.phase with
    | .napping k dirty quiet => some (s.nap k dirty quiet notified)
    | _ => none
  | .flush => if s.phase ≠ .flushing then none else some { s with phase := .gone, reply := true }
  | .rescan => if s.daemon ≠ .serving then none else some s.scannerRescan
  | .rescanFolder idx => if s.daemon ≠ .serving then none else some (s.scannerRescanFolder idx)
  | .stop => if s.daemon ≠ .serving then none else some s.scannerStop
  | .join =>
    if s.daemon = .joining ∧ s.reply = true then some { s with daemon := .joined, reply := false } else none
  | .add i =>
    if i < s.numFolders ∧ s.removed i = true then some { s with removed := Function.update s.removed i false }
    else if i = s.numFolders ∧ i < configMaxFolders then
      some { s with numFolders := i + 1, removed := Function.update s.removed i false }
    else none
  | .remove i =>
    if s.live i then
      some { s with
        removed := Function.update s.removed i true, wanted := Function.update s.wanted i false }
    else none

/-- `scanner_start`, where the process was started. -/
def scannerStart (numFolders : Nat) : Scanner where
  phase := .starting
  numFolders := numFolders
  removed := fun _ => false
  rescanMask := 0
  rescanAll := false
  sigRescan := false
  sigStop := false
  daemon := .serving
  proc := true
  exited := false
  reply := false
  wanted := fun _ => false

/-! ## What holds -/

/-- Asked for, and not taken yet. -/
structure Asked (s : Scanner) (i : Nat) : Prop where
  flag : s.rescanAll = true ∨ s.rescanMask.testBit i = true
  signal : s.sigRescan = true ∨ s.phase = .starting ∨ s.phase = .ready ∨ ∃ nf, s.phase = .counted nf

/-- The pass comes to folder `i`. -/
def Ahead (s : Scanner) (i : Nat) : Prop :=
  ∃ nf mask j, (s.phase = .passing nf mask j ∧ j ≤ i ∨ s.phase = .scanning nf mask j ∧ j < i) ∧ i < nf ∧
    (mask = 0 ∨ mask.testBit i = true)

/-- The scanner goes on to scan. -/
def Alive (s : Scanner) : Prop := s.phase ≠ .flushing ∧ s.phase ≠ .gone

/-- The requests for folder `i`. -/
structure Seen (i : Nat) (s : Scanner) : Prop where
  live : s.wanted i = true → s.live i = true
  seen : Alive s → s.wanted i = true → Asked s i ∨ Ahead s i
  counted : ∀ nf, s.phase = .counted nf → s.live i = true → i < nf

/-- The handle. -/
structure Handle (s : Scanner) : Prop where
  proc : s.proc = !s.exited
  gone : s.phase = .gone ↔ s.reply = true ∨ s.exited = true ∨ s.daemon = .joined
  once : s.reply = true → s.exited = false ∧ s.daemon ≠ .joined

/-- Folder `i` is not added past the number of folders the scanner has just read, before it has
looked at the requests. -/
def Undisturbed (i : Nat) (s : Scanner) : Event → Prop
  | .add j => j = i → ∀ nf, s.phase = .counted nf → i < nf
  | _ => True

theorem live_eq_true {s : Scanner} {i : Nat} : s.live i = true ↔ i < s.numFolders ∧ s.removed i = false := by
  simp [Scanner.live]

section Keeps
variable {s t : Scanner}

/-! ### The handle -/

/-- The scanner goes on, neither from its end nor to it. -/
theorem handle_goes_on (h : Handle s) (hnow : s.phase ≠ .gone) (hnext : t.phase ≠ .gone)
    (hdaemon : t.daemon = s.daemon) (hproc : t.proc = s.proc) (hexited : t.exited = s.exited)
    (hreply : t.reply = s.reply) : Handle t := by
  refine ⟨by rw [hproc, hexited]; exact h.proc, ?_, by rw [hreply, hexited, hdaemon]; exact h.once⟩
  rw [hreply, hexited, hdaemon, ← h.gone]
  exact ⟨fun hg => absurd hg hnext, fun hg => absurd hg hnow⟩

theorem handle_same (h : Handle s) (hphase : t.phase = s.phase) (hdaemon : t.daemon = s.daemon)
    (hproc : t.proc = s.proc) (hexited : t.exited = s.exited) (hreply : t.reply = s.reply) : Handle t :=
  ⟨by rw [hproc, hexited]; exact h.proc, by rw [hphase, hreply, hexited, hdaemon]; exact h.gone,
    by rw [hreply, hexited, hdaemon]; exact h.once⟩

theorem handle_ends (h : Handle s) (hnow : s.phase ≠ .gone) : Handle { s with phase := .gone, reply := true } := by
  have hno := fun hq => hnow (h.gone.mpr hq)
  refine ⟨h.proc, by simp, fun _ => ⟨?_, fun hj => hno (Or.inr (Or.inr hj))⟩⟩
  rw [← Bool.not_eq_true]
  exact fun he => hno (Or.inr (Or.inl he))

theorem handle_drain (h : Handle s) : Handle s.drainScannerLocked := by
  unfold Scanner.drainScannerLocked
  split
  · rename_i hq
    have hgone := h.gone.mpr (Or.inl hq.2)
    exact ⟨rfl, by simp [hgone], by simp⟩
  · exact h

/-- After the drain the handle has a process only while there is one. -/
theorem drain_live (h : Handle s) (hj : s.daemon ≠ .joined) (hproc : s.drainScannerLocked.proc = true) :
    s.drainScannerLocked.phase ≠ .gone := by
  have hd := handle_drain h
  intro hgone
  have hexited : s.drainScannerLocked.exited = false := by
    have hp := hd.proc
    rw [hproc] at hp
    simpa using hp.symm
  unfold Scanner.drainScannerLocked at hd hgone hexited
  split at hexited
  · exact absurd hexited (by simp)
  · rename_i hno
    rw [if_neg hno] at hd hgone
    rcases hd.gone.mp hgone with hreply | hx | hjoined
    · exact hno ⟨hexited, hreply⟩
    · exact absurd (hexited.symm.trans hx) (by simp)
    · exact hj hjoined

theorem drain_frame (s : Scanner) : s.drainScannerLocked.phase = s.phase ∧
    s.drainScannerLocked.numFolders = s.numFolders ∧ s.drainScannerLocked.removed = s.removed ∧
    s.drainScannerLocked.rescanMask = s.rescanMask ∧ s.drainScannerLocked.rescanAll = s.rescanAll ∧
    s.drainScannerLocked.sigRescan = s.sigRescan ∧ s.drainScannerLocked.wanted = s.wanted ∧
    s.drainScannerLocked.daemon = s.daemon ∧ s.drainScannerLocked.sigStop = s.sigStop := by
  unfold Scanner.drainScannerLocked
  split <;> exact ⟨rfl, rfl, rfl, rfl, rfl, rfl, rfl, rfl, rfl⟩

theorem handle_stop (h : Handle s) (hserving : s.daemon = .serving) : Handle s.scannerStop := by
  have hd := handle_drain h
  obtain ⟨hphase, -, -, -, -, -, -, hdaemon, -⟩ := drain_frame s
  rw [hserving] at hdaemon
  unfold Scanner.scannerStop
  dsimp only
  have hgone := hd.gone
  have honce := hd.once
  rw [hdaemon] at hgone honce
  refine ⟨hd.proc, ?_, ?_⟩
  · dsimp only
    rw [hgone]
    cases hx : s.drainScannerLocked.exited with
    | true => simp
    | false => simp
  · intro hreply
    obtain ⟨hx, -⟩ := honce hreply
    dsimp only
    rw [hx]
    exact ⟨rfl, by simp⟩

theorem handle_join (h : Handle s) (hj : s.daemon = .joining ∧ s.reply = true) :
    Handle { s with daemon := .joined, reply := false } := by
  have hgone := h.gone.mpr (Or.inl hj.2)
  exact ⟨h.proc, by simp [hgone], by simp⟩

theorem nap_phase (s : Scanner) (k : Nat) (dirty : Bool) (quiet : Nat) (notified : Bool) :
    (s.nap k dirty quiet notified).phase ≠ .gone ∧ ∀ nf, (s.nap k dirty quiet notified).phase ≠ .counted nf := by
  unfold Scanner.nap
  split_ifs <;> simp

theorem nap_frame (s : Scanner) (k : Nat) (dirty : Bool) (quiet : Nat) (notified : Bool) :
    (s.nap k dirty quiet notified).daemon = s.daemon ∧ (s.nap k dirty quiet notified).proc = s.proc ∧
      (s.nap k dirty quiet notified).exited = s.exited ∧ (s.nap k dirty quiet notified).reply = s.reply ∧
      (s.nap k dirty quiet notified).wanted = s.wanted ∧ (s.nap k dirty quiet notified).removed = s.removed ∧
      (s.nap k dirty quiet notified).numFolders = s.numFolders ∧
      (s.nap k dirty quiet notified).sigStop = s.sigStop := by
  unfold Scanner.nap
  split_ifs <;> exact ⟨rfl, rfl, rfl, rfl, rfl, rfl, rfl, rfl⟩

/-- **Step.** -/
theorem handle_step (s : Scanner) (e : Event) (t : Scanner) (h : Handle s) (hstep : step s e = some t) :
    Handle t := by
  cases e with
  | begin ok =>
    simp only [step] at hstep
    split at hstep
    · exact absurd hstep (by simp)
    · rename_i hst
      have hnow : s.phase ≠ .gone := by rw [not_not.mp hst]; simp
      obtain rfl := Option.some.inj hstep
      cases ok with
      | true => exact handle_goes_on h hnow (by simp) rfl rfl rfl rfl
      | false => exact handle_ends h hnow
  | count =>
    simp only [step] at hstep
    split at hstep
    · exact absurd hstep (by simp)
    · rename_i hst
      obtain rfl := Option.some.inj hstep
      exact handle_goes_on h (by rw [not_not.mp hst]; simp) (by simp) rfl rfl rfl rfl
  | take =>
    simp only [step] at hstep
    split at hstep
    · rename_i hst
      obtain rfl := Option.some.inj hstep
      exact handle_goes_on h (by rw [hst]; simp) (by simp [Scanner.take]) rfl rfl rfl rfl
    · exact absurd hstep (by simp)
  | next =>
    simp only [step] at hstep
    split at hstep
    · rename_i hst
      obtain rfl := Option.some.inj hstep
      unfold Scanner.passOne
      split_ifs <;> exact handle_goes_on h (by rw [hst]; simp) (by simp) rfl rfl rfl rfl
    · exact absurd hstep (by simp)
  | scanned =>
    simp only [step] at hstep
    split at hstep
    · rename_i hst
      obtain rfl := Option.some.inj hstep
      exact handle_goes_on h (by rw [hst]; simp) (by simp) rfl rfl rfl rfl
    · exact absurd hstep (by simp)
  | look notified =>
    simp only [step] at hstep
    split at hstep
    · rename_i k dirty quiet hst
      obtain rfl := Option.some.inj hstep
      obtain ⟨h1, h2, h3, h4, -⟩ := nap_frame s k dirty quiet notified
      exact handle_goes_on h (by rw [hst]; simp) (nap_phase s k dirty quiet notified).1 h1 h2 h3 h4
    · exact absurd hstep (by simp)
  | flush =>
    simp only [step] at hstep
    split at hstep
    · exact absurd hstep (by simp)
    · rename_i hst
      obtain rfl := Option.some.inj hstep
      exact handle_ends h (by rw [not_not.mp hst]; simp)
  | rescan =>
    simp only [step] at hstep
    split at hstep
    · exact absurd hstep (by simp)
    · obtain rfl := Option.some.inj hstep
      unfold Scanner.scannerRescan
      dsimp only
      split
      · exact handle_same (handle_drain h) rfl rfl rfl rfl rfl
      · exact handle_drain h
  | rescanFolder idx =>
    simp only [step] at hstep
    split at hstep
    · exact absurd hstep (by simp)
    · obtain rfl := Option.some.inj hstep
      unfold Scanner.scannerRescanFolder
      dsimp only
      split
      · exact h
      · split
        · exact handle_same (handle_drain h) rfl rfl rfl rfl rfl
        · exact handle_drain h
  | stop =>
    simp only [step] at hstep
    split at hstep
    · exact absurd hstep (by simp)
    · rename_i hserving
      obtain rfl := Option.some.inj hstep
      exact handle_stop h (not_not.mp hserving)
  | join =>
    simp only [step] at hstep
    split at hstep
    · rename_i hj
      obtain rfl := Option.some.inj hstep
      exact handle_join h hj
    · exact absurd hstep (by simp)
  | add i =>
    simp only [step] at hstep
    split at hstep
    · obtain rfl := Option.some.inj hstep
      exact handle_same h rfl rfl rfl rfl rfl
    · split at hstep
      · obtain rfl := Option.some.inj hstep
        exact handle_same h rfl rfl rfl rfl rfl
      · exact absurd hstep (by simp)
  | remove i =>
    simp only [step] at hstep
    split at hstep
    · obtain rfl := Option.some.inj hstep
      exact handle_same h rfl rfl rfl rfl rfl
    · exact absurd hstep (by simp)

/-! ### The requests -/

variable {i : Nat}

theorem asked_congr (h : Asked s i) (hall : t.rescanAll = s.rescanAll)
    (hmask : t.rescanMask = s.rescanMask) (hsig : t.sigRescan = s.sigRescan) (hphase : t.phase = s.phase) :
    Asked t i :=
  ⟨by rw [hall, hmask]; exact h.flag, by rw [hsig, hphase]; exact h.signal⟩

theorem ahead_congr (h : Ahead s i) (hphase : t.phase = s.phase) : Ahead t i := by
  unfold Ahead
  rw [hphase]
  exact h

theorem seen_same (h : Seen i s) (hphase : t.phase = s.phase) (hnum : t.numFolders = s.numFolders)
    (hremoved : t.removed = s.removed) (hall : t.rescanAll = s.rescanAll) (hmask : t.rescanMask = s.rescanMask)
    (hsig : t.sigRescan = s.sigRescan) (hwanted : t.wanted = s.wanted) : Seen i t := by
  have hlive : t.live i = s.live i := by
    unfold Scanner.live
    rw [hnum, hremoved]
  refine ⟨?_, fun ha hi => ?_, ?_⟩
  · rw [hlive, hwanted]
    exact h.live
  · have halive : Alive s := by
      unfold Alive at ha ⊢
      rwa [hphase] at ha
    rcases h.seen halive (hwanted ▸ hi) with hasked | hahead
    · exact Or.inl (asked_congr hasked hall hmask hsig hphase)
    · exact Or.inr (ahead_congr hahead hphase)
  · rw [hlive, hphase]
    exact h.counted

theorem seen_drain (h : Seen i s) : Seen i s.drainScannerLocked := by
  obtain ⟨h1, h2, h3, h4, h5, h6, h7, -⟩ := drain_frame s
  exact seen_same h h1 h2 h3 h5 h4 h6 h7

/-- Outside a pass a request waits in the flags. -/
theorem asked_of_outside (h : Seen i s) (ha : Alive s) (hi : s.wanted i = true)
    (hpass : ∀ nf mask j, s.phase ≠ .passing nf mask j) (hscan : ∀ nf mask j, s.phase ≠ .scanning nf mask j) :
    Asked s i := by
  rcases h.seen ha hi with hasked | ⟨nf, mask, j, hp | hp, -⟩
  · exact hasked
  · exact absurd hp.1 (hpass nf mask j)
  · exact absurd hp.1 (hscan nf mask j)

/-- In a pass and in the nap the flags come with the signal. -/
theorem signal_of_asked (h : Asked s i) (hstarting : s.phase ≠ .starting) (hready : s.phase ≠ .ready)
    (hcounted : ∀ nf, s.phase ≠ .counted nf) : s.sigRescan = true := by
  rcases h.signal with hs | hs | hs | ⟨nf, hs⟩
  · exact hs
  · exact absurd hs hstarting
  · exact absurd hs hready
  · exact absurd hs (hcounted nf)

/-- The requests have just been taken. -/
theorem ahead_take (h : Seen i s) (hi : s.wanted i = true) {nf : Nat} (hst : s.phase = .counted nf) :
    Ahead (s.take nf) i := by
  have hasked := asked_of_outside h ⟨by rw [hst]; simp, by rw [hst]; simp⟩ hi (by rw [hst]; simp) (by rw [hst]; simp)
  refine ⟨nf, _, 0, Or.inl ⟨rfl, Nat.zero_le i⟩, h.counted nf hst (h.live hi), ?_⟩
  cases hall : s.rescanAll with
  | true => exact Or.inl rfl
  | false =>
    rcases hasked.flag with hf | hf
    · exact absurd (hall.symm.trans hf) (by simp)
    · exact Or.inr hf

theorem seen_take (h : Seen i s) {nf : Nat} (hst : s.phase = .counted nf) : Seen i (s.take nf) :=
  ⟨h.live, fun _ hi => Or.inr (ahead_take h hi hst), fun nf' hc => absurd hc (by simp [Scanner.take])⟩

theorem ahead_passing (h : Ahead s i) {nf mask j : Nat} (hst : s.phase = .passing nf mask j) :
    j ≤ i ∧ i < nf ∧ (mask = 0 ∨ mask.testBit i = true) := by
  obtain ⟨nf', mask', j', hp | hp, hlt, hm⟩ := h
  · obtain ⟨rfl, rfl, rfl⟩ : nf = nf' ∧ mask = mask' ∧ j = j' := by simpa using hst.symm.trans hp.1
    exact ⟨hp.2, hlt, hm⟩
  · exact absurd (hst.symm.trans hp.1) (by simp)

theorem ahead_scanning (h : Ahead s i) {nf mask j : Nat} (hst : s.phase = .scanning nf mask j) :
    j < i ∧ i < nf ∧ (mask = 0 ∨ mask.testBit i = true) := by
  obtain ⟨nf', mask', j', hp | hp, hlt, hm⟩ := h
  · exact absurd (hst.symm.trans hp.1) (by simp)
  · obtain ⟨rfl, rfl, rfl⟩ : nf = nf' ∧ mask = mask' ∧ j = j' := by simpa using hst.symm.trans hp.1
    exact ⟨hp.2, hlt, hm⟩

/-- The folder that a pass skips is not asked for. -/
theorem ne_of_skip (hlive : s.live i = true) {mask j : Nat} (hm : mask = 0 ∨ mask.testBit i = true)
    (hskip : (s.removed j || (decide (mask ≠ 0) && !mask.testBit j)) = true) : i ≠ j := by
  rintro rfl
  have hin := (live_eq_true.mp hlive).2
  rcases hm with rfl | hm
  · simp [hin] at hskip
  · simp [hin, hm] at hskip

/-- **A folder** of a pass. -/
theorem seen_passOne (h : Seen i s) {nf mask j : Nat} (hst : s.phase = .passing nf mask j) :
    Seen i (s.passOne nf mask j) := by
  have halive : Alive s := ⟨by rw [hst]; simp, by rw [hst]; simp⟩
  have hsignal : Asked s i → s.sigRescan = true := fun ha =>
    signal_of_asked ha (by rw [hst]; simp) (by rw [hst]; simp) (by rw [hst]; simp)
  unfold Scanner.passOne
  split
  · rename_i hend
    refine ⟨h.live, fun _ hi => Or.inl ?_, by simp⟩
    rcases h.seen halive hi with hasked | hah
    · exact ⟨hasked.flag, Or.inl (hsignal hasked)⟩
    · have := ahead_passing hah hst
      omega
  · split
    · rename_i hskip
      refine ⟨h.live, fun _ hi => ?_, by simp⟩
      rcases h.seen halive hi with hasked | hah
      · exact Or.inl ⟨hasked.flag, Or.inl (hsignal hasked)⟩
      · obtain ⟨hle, hlt, hm⟩ := ahead_passing hah hst
        have hne := ne_of_skip (h.live hi) hm hskip
        exact Or.inr ⟨nf, mask, j + 1, Or.inl ⟨rfl, by omega⟩, hlt, hm⟩
    · have hother : Function.update s.wanted j false i = true → i ≠ j ∧ s.wanted i = true := by
        intro hi
        rw [Function.update_apply] at hi
        split at hi
        · exact absurd hi (by simp)
        · rename_i hne
          exact ⟨hne, hi⟩
      refine ⟨fun hi => h.live (hother hi).2, fun _ hi => ?_, by simp⟩
      obtain ⟨hne, hw⟩ := hother hi
      rcases h.seen halive hw with hasked | hah
      · exact Or.inl ⟨hasked.flag, Or.inl (hsignal hasked)⟩
      · obtain ⟨hle, hlt, hm⟩ := ahead_passing hah hst
        exact Or.inr ⟨nf, mask, j, Or.inr ⟨rfl, by omega⟩, hlt, hm⟩

theorem seen_scanned (h : Seen i s) {nf mask j : Nat} (hst : s.phase = .scanning nf mask j) :
    Seen i { s with phase := .passing nf mask (j + 1) } := by
  have halive : Alive s := ⟨by rw [hst]; simp, by rw [hst]; simp⟩
  refine ⟨h.live, fun _ hi => ?_, by simp⟩
  rcases h.seen halive hi with hasked | hah
  · have hsig := signal_of_asked hasked (by rw [hst]; simp) (by rw [hst]; simp) (by rw [hst]; simp)
    exact Or.inl ⟨hasked.flag, Or.inl hsig⟩
  · obtain ⟨hlt, hnf, hm⟩ := ahead_scanning hah hst
    exact Or.inr ⟨nf, mask, j + 1, Or.inl ⟨rfl, hlt⟩, hnf, hm⟩

/-- In the nap a request has its signal. -/
theorem signal_of_napping (h : Seen i s) {k quiet : Nat} {dirty : Bool} (hst : s.phase = .napping k dirty quiet)
    (hi : s.wanted i = true) : Asked s i ∧ s.sigRescan = true := by
  have ha := asked_of_outside h ⟨by rw [hst]; simp, by rw [hst]; simp⟩ hi (by rw [hst]; simp) (by rw [hst]; simp)
  exact ⟨ha, signal_of_asked ha (by rw [hst]; simp) (by rw [hst]; simp) (by rw [hst]; simp)⟩

/-- **A second** of the nap: a signal ends it. -/
theorem seen_nap (h : Seen i s) {k quiet : Nat} {dirty : Bool} (hst : s.phase = .napping k dirty quiet)
    (notified : Bool) : Seen i (s.nap k dirty quiet notified) := by
  obtain ⟨-, -, -, -, hwanted, hremoved, hnum, -⟩ := nap_frame s k dirty quiet notified
  refine ⟨fun hi => ?_, fun ha hi => Or.inl ?_, fun nf hc => absurd hc ((nap_phase s k dirty quiet notified).2 nf)⟩
  · have hlive := live_eq_true.mp (h.live (hwanted ▸ hi))
    rw [live_eq_true, hnum, hremoved]
    exact hlive
  · obtain ⟨⟨hflag, -⟩, hsig⟩ := signal_of_napping h hst (hwanted ▸ hi)
    unfold Scanner.nap at ha ⊢
    split_ifs at ha ⊢
    · exact absurd rfl ha.1
    · exact ⟨hflag, Or.inr (Or.inr (Or.inl rfl))⟩
    · exact absurd rfl ha.1
    · exact ⟨hflag, Or.inr (Or.inr (Or.inl rfl))⟩

theorem seen_rescan (h : Seen i s) : Seen i s.scannerRescan := by
  have hd := seen_drain h
  unfold Scanner.scannerRescan
  dsimp only
  split
  · refine ⟨fun hi => ?_, fun ha hi => Or.inl ⟨Or.inl rfl, Or.inl rfl⟩, hd.counted⟩
    rcases Bool.or_eq_true_iff.mp hi with hlive | hw
    · exact hlive
    · exact hd.live hw
  · exact hd

theorem seen_rescanFolder (h : Seen i s) (idx : Nat) : Seen i (s.scannerRescanFolder idx) := by
  have hd := seen_drain h
  unfold Scanner.scannerRescanFolder
  dsimp only
  split
  · exact h
  · split
    · by_cases he : i = idx
      · subst he
        refine ⟨fun hi => ?_, fun ha hi => Or.inl ⟨Or.inr ?_, Or.inl rfl⟩, hd.counted⟩
        · dsimp only at hi
          rw [Function.update_self] at hi
          rcases Bool.or_eq_true_iff.mp hi with hlive | hw
          · exact hlive
          · exact hd.live hw
        · show (s.drainScannerLocked.rescanMask ||| 2 ^ i).testBit i = true
          rw [Nat.testBit_or, Nat.testBit_two_pow_self, Bool.or_true]
      · refine ⟨fun hi => ?_, fun ha hi => ?_, hd.counted⟩
        · dsimp only at hi
          rw [Function.update_of_ne he] at hi
          exact hd.live hi
        · dsimp only at hi
          rw [Function.update_of_ne he] at hi
          rcases hd.seen ha hi with hasked | hahead
          · refine Or.inl ⟨hasked.flag.imp_right fun hbit => ?_, Or.inl rfl⟩
            show (s.drainScannerLocked.rescanMask ||| 2 ^ idx).testBit i = true
            rw [Nat.testBit_or, hbit, Bool.true_or]
          · exact Or.inr (ahead_congr hahead rfl)
    · exact hd

/-- A folder comes into use. -/
theorem seen_add (h : Seen i s) {j n : Nat} (hn : s.numFolders ≤ n) (hold : s.live j = false)
    (hu : j = i → ∀ nf, s.phase = .counted nf → i < nf) (hnext : n = s.numFolders ∨ n = j + 1 ∧ j = s.numFolders) :
    Seen i { s with numFolders := n, removed := Function.update s.removed j false } := by
  refine ⟨fun hi => ?_, fun ha hi => ?_, fun nf hc hi => ?_⟩
  · have hlive := live_eq_true.mp (h.live hi)
    have hne : i ≠ j := by
      rintro rfl
      rw [h.live hi] at hold
      exact absurd hold (by simp)
    refine live_eq_true.mpr ⟨Nat.lt_of_lt_of_le hlive.1 hn, ?_⟩
    show Function.update s.removed j false i = false
    rw [Function.update_of_ne hne]
    exact hlive.2
  · rcases h.seen ha hi with hasked | hahead
    · exact Or.inl (asked_congr hasked rfl rfl rfl rfl)
    · exact Or.inr (ahead_congr hahead rfl)
  · by_cases he : j = i
    · exact hu he nf hc
    · refine h.counted nf hc (live_eq_true.mpr ?_)
      have hlive := live_eq_true.mp hi
      dsimp only at hlive
      rw [Function.update_of_ne (Ne.symm he)] at hlive
      exact ⟨by omega, hlive.2⟩

theorem seen_remove (h : Seen i s) (j : Nat) : Seen i { s with
    removed := Function.update s.removed j true, wanted := Function.update s.wanted j false } := by
  by_cases he : i = j
  · subst he
    refine ⟨fun hi => absurd hi (by simp), fun _ hi => absurd hi (by simp), fun nf hc hi => ?_⟩
    exact absurd (live_eq_true.mp hi).2 (by simp)
  · have hlive : ({ s with
        removed := Function.update s.removed j true
        wanted := Function.update s.wanted j false } : Scanner).live i = s.live i := by
      unfold Scanner.live
      dsimp only
      rw [Function.update_of_ne he]
    refine ⟨fun hi => ?_, fun ha hi => ?_, fun nf hc hi => h.counted nf hc (hlive ▸ hi)⟩
    · dsimp only at hi
      rw [Function.update_of_ne he] at hi
      rw [hlive]
      exact h.live hi
    · dsimp only at hi
      rw [Function.update_of_ne he] at hi
      rcases h.seen ha hi with hasked | hahead
      · exact Or.inl (asked_congr hasked rfl rfl rfl rfl)
      · exact Or.inr (ahead_congr hahead rfl)

/-- **Step.** -/
theorem seen_step {e : Event} (h : Seen i s) (hu : Undisturbed i s e) (hstep : step s e = some t) : Seen i t := by
  cases e with
  | begin ok =>
    simp only [step] at hstep
    split at hstep
    · exact absurd hstep (by simp)
    · rename_i hst
      have hst := not_not.mp hst
      obtain rfl := Option.some.inj hstep
      cases ok with
      | true =>
        refine ⟨h.live, fun _ hi => Or.inl ?_, by simp⟩
        have hasked := asked_of_outside h ⟨by rw [hst]; simp, by rw [hst]; simp⟩ hi (by rw [hst]; simp)
          (by rw [hst]; simp)
        exact ⟨hasked.flag, Or.inr (Or.inr (Or.inl rfl))⟩
      | false => exact ⟨h.live, fun ha => absurd rfl ha.2, by simp⟩
  | count =>
    simp only [step] at hstep
    split at hstep
    · exact absurd hstep (by simp)
    · rename_i hst
      have hst := not_not.mp hst
      obtain rfl := Option.some.inj hstep
      refine ⟨h.live, fun _ hi => Or.inl ?_, fun nf hc hi => ?_⟩
      · have hasked := asked_of_outside h ⟨by rw [hst]; simp, by rw [hst]; simp⟩ hi (by rw [hst]; simp)
          (by rw [hst]; simp)
        exact ⟨hasked.flag, Or.inr (Or.inr (Or.inr ⟨_, rfl⟩))⟩
      · obtain rfl : s.numFolders = nf := by simpa using hc
        exact (live_eq_true.mp hi).1
  | take =>
    simp only [step] at hstep
    split at hstep
    · rename_i hst
      exact Option.some.inj hstep ▸ seen_take h hst
    · exact absurd hstep (by simp)
  | next =>
    simp only [step] at hstep
    split at hstep
    · rename_i hst
      exact Option.some.inj hstep ▸ seen_passOne h hst
    · exact absurd hstep (by simp)
  | scanned =>
    simp only [step] at hstep
    split at hstep
    · rename_i hst
      exact Option.some.inj hstep ▸ seen_scanned h hst
    · exact absurd hstep (by simp)
  | look notified =>
    simp only [step] at hstep
    split at hstep
    · rename_i hst
      exact Option.some.inj hstep ▸ seen_nap h hst notified
    · exact absurd hstep (by simp)
  | flush =>
    simp only [step] at hstep
    split at hstep
    · exact absurd hstep (by simp)
    · exact Option.some.inj hstep ▸ ⟨h.live, fun ha => absurd rfl ha.2, by simp⟩
  | rescan =>
    simp only [step] at hstep
    split at hstep
    · exact absurd hstep (by simp)
    · exact Option.some.inj hstep ▸ seen_rescan h
  | rescanFolder idx =>
    simp only [step] at hstep
    split at hstep
    · exact absurd hstep (by simp)
    · exact Option.some.inj hstep ▸ seen_rescanFolder h idx
  | stop =>
    simp only [step] at hstep
    split at hstep
    · exact absurd hstep (by simp)
    · exact Option.some.inj hstep ▸ seen_same (seen_drain h) rfl rfl rfl rfl rfl rfl rfl
  | join =>
    simp only [step] at hstep
    split at hstep
    · exact Option.some.inj hstep ▸ seen_same h rfl rfl rfl rfl rfl rfl rfl
    · exact absurd hstep (by simp)
  | add j =>
    simp only [step] at hstep
    split at hstep
    · rename_i hj
      obtain rfl := Option.some.inj hstep
      exact seen_add h (Nat.le_refl s.numFolders) (by simp [Scanner.live, hj.2]) hu (Or.inl rfl)
    · split at hstep
      · rename_i hj
        obtain rfl := Option.some.inj hstep
        exact seen_add h (hj.1 ▸ Nat.le_succ _) (by simp [Scanner.live, hj.1]) hu (Or.inr ⟨rfl, hj.1⟩)
      · exact absurd hstep (by simp)
  | remove j =>
    simp only [step] at hstep
    split at hstep
    · exact Option.some.inj hstep ▸ seen_remove h j
    · exact absurd hstep (by simp)

end Keeps

/-! ## What the scanner reaches by itself -/

/-- What the scanner does by itself, where it gets its memory. -/
def Own : Event → Prop
  | .begin ok => ok = true
  | .count | .take | .next | .scanned | .look _ | .flush => True
  | _ => False

/-- The seconds of the nap. -/
def seconds : Event → Nat
  | .look _ => 1
  | _ => 0

section Reach
variable {s t : Scanner} {own : Event → Prop} {P Q : Scanner → Prop} {n : Nat} {i : Nat}

theorem passOne_phase (s : Scanner) (nf mask j : Nat) :
    (s.passOne nf mask j).phase = .napping 0 false 0 ∨
      j < nf ∧ ((s.passOne nf mask j).phase = .passing nf mask (j + 1) ∨
        (s.passOne nf mask j).phase = .scanning nf mask j) := by
  unfold Scanner.passOne
  split
  · exact Or.inl rfl
  · rename_i hlt
    refine Or.inr ⟨not_le.mp hlt, ?_⟩
    split
    · exact Or.inl rfl
    · exact Or.inr rfl

theorem scanned_eq {nf mask j : Nat} (hst : s.phase = .scanning nf mask j) :
    step s .scanned = some { s with phase := .passing nf mask (j + 1) } := by
  simp only [step, hst]

theorem next_eq {nf mask j : Nat} (hst : s.phase = .passing nf mask j) :
    step s .next = some (s.passOne nf mask j) := by
  simp only [step, hst]

theorem look_eq {k quiet : Nat} {dirty : Bool} (hst : s.phase = .napping k dirty quiet) (notified : Bool) :
    step s (.look notified) = some (s.nap k dirty quiet notified) := by
  simp only [step, hst]

theorem take_eq {nf : Nat} (hst : s.phase = .counted nf) : step s .take = some (s.take nf) := by
  simp only [step, hst]

theorem count_eq (hst : s.phase = .ready) : step s .count = some { s with phase := .counted s.numFolders } := by
  simp [step, hst]

theorem begin_eq (hst : s.phase = .starting) : step s (.begin true) = some { s with phase := .ready } := by
  simp [step, hst]

theorem flush_eq (hst : s.phase = .flushing) : step s .flush = some { s with phase := .gone, reply := true } := by
  simp [step, hst]

/-- **A pass** comes to its nap. -/
theorem naps_passing (hown : ∀ e, Own e → own e) (hkeep : ∀ s e t, Q s → Own e → step s e = some t → Q t)
    (hnap : ∀ s k dirty quiet, Q s → s.phase = .napping k dirty quiet → Machine.Within step own seconds P n s)
    (d : Nat) : ∀ {s : Scanner} {nf mask j : Nat}, nf - j = d → Q s → s.phase = .passing nf mask j →
      Machine.Within step own seconds P n s := by
  induction d with
  | zero =>
    intro s nf mask j hd hq hst
    have hnext := hkeep s .next _ hq trivial (next_eq hst)
    refine Machine.within_step (next_eq hst) (hown _ trivial) (Nat.zero_add n).le ?_
    rcases passOne_phase s nf mask j with hp | ⟨hlt, -⟩
    · exact hnap _ 0 false 0 hnext hp
    · omega
  | succ d ih =>
    intro s nf mask j hd hq hst
    have hnext := hkeep s .next _ hq trivial (next_eq hst)
    refine Machine.within_step (next_eq hst) (hown _ trivial) (Nat.zero_add n).le ?_
    rcases passOne_phase s nf mask j with hp | ⟨-, hp | hp⟩
    · exact hnap _ 0 false 0 hnext hp
    · exact ih (by omega) hnext hp
    · refine Machine.within_step (scanned_eq hp) (hown _ trivial) (Nat.zero_add n).le ?_
      exact ih (by omega) (hkeep _ .scanned _ hnext trivial (scanned_eq hp)) rfl

/-- While it goes on to scan, the scanner comes to a nap. -/
theorem naps (hown : ∀ e, Own e → own e) (hkeep : ∀ s e t, Q s → Own e → step s e = some t → Q t)
    (hnap : ∀ s k dirty quiet, Q s → s.phase = .napping k dirty quiet → Machine.Within step own seconds P n s)
    (ha : Alive s) (hq : Q s) : Machine.Within step own seconds P n s := by
  have hpass : ∀ s nf mask j, Q s → s.phase = .passing nf mask j → Machine.Within step own seconds P n s :=
    fun s nf mask j hq hst => naps_passing hown hkeep hnap (nf - j) rfl hq hst
  have hcounted : ∀ s nf, Q s → s.phase = .counted nf → Machine.Within step own seconds P n s := by
    intro s nf hq hst
    refine Machine.within_step (take_eq hst) (hown _ trivial) (Nat.zero_add n).le ?_
    exact hpass _ nf _ 0 (hkeep s .take _ hq trivial (take_eq hst)) rfl
  have hready : ∀ s, Q s → s.phase = .ready → Machine.Within step own seconds P n s := by
    intro s hq hst
    refine Machine.within_step (count_eq hst) (hown _ trivial) (Nat.zero_add n).le ?_
    exact hcounted _ s.numFolders (hkeep s .count _ hq trivial (count_eq hst)) rfl
  cases hst : s.phase with
  | starting =>
    refine Machine.within_step (begin_eq hst) (hown _ rfl) (Nat.zero_add n).le ?_
    exact hready _ (hkeep s (.begin true) _ hq rfl (begin_eq hst)) rfl
  | ready => exact hready s hq hst
  | counted nf => exact hcounted s nf hq hst
  | passing nf mask j => exact hpass s nf mask j hq hst
  | scanning nf mask j =>
    refine Machine.within_step (scanned_eq hst) (hown _ trivial) (Nat.zero_add n).le ?_
    exact hpass _ nf mask (j + 1) (hkeep s .scanned _ hq trivial (scanned_eq hst)) rfl
  | napping k dirty quiet => exact hnap s k dirty quiet hq hst
  | flushing => exact absurd hst ha.1
  | gone => exact absurd hst ha.2

/-! ### A request is served -/

/-- The scan of folder `i` begins before the nap has gone on for `n` seconds. -/
def Scans (i : Nat) (n : Nat) (s : Scanner) : Prop :=
  Machine.Within step Own seconds (fun t => t.wanted i = false) n s

theorem undisturbed_own {e : Event} (h : Own e) (i : Nat) (s : Scanner) : Undisturbed i s e := by
  cases e with
  | add j => exact absurd h id
  | _ => trivial

theorem own_frame {e : Event} (h : Own e) (hstep : step s e = some t) :
    t.daemon = s.daemon ∧ t.exited = s.exited ∧ t.sigStop = s.sigStop := by
  cases e with
  | begin ok =>
    simp only [step] at hstep
    split at hstep
    · exact absurd hstep (by simp)
    · obtain rfl := Option.some.inj hstep
      cases ok <;> exact ⟨rfl, rfl, rfl⟩
  | count =>
    simp only [step] at hstep
    split at hstep
    · exact absurd hstep (by simp)
    · exact Option.some.inj hstep ▸ ⟨rfl, rfl, rfl⟩
  | take =>
    simp only [step] at hstep
    split at hstep
    · exact Option.some.inj hstep ▸ ⟨rfl, rfl, rfl⟩
    · exact absurd hstep (by simp)
  | next =>
    simp only [step] at hstep
    split at hstep
    · obtain rfl := Option.some.inj hstep
      unfold Scanner.passOne
      split_ifs <;> exact ⟨rfl, rfl, rfl⟩
    · exact absurd hstep (by simp)
  | scanned =>
    simp only [step] at hstep
    split at hstep
    · exact Option.some.inj hstep ▸ ⟨rfl, rfl, rfl⟩
    · exact absurd hstep (by simp)
  | look notified =>
    simp only [step] at hstep
    split at hstep
    · rename_i k dirty quiet _
      obtain ⟨hdaemon, -, hexited, -, -, -, -, hstop⟩ := nap_frame s k dirty quiet notified
      exact Option.some.inj hstep ▸ ⟨hdaemon, hexited, hstop⟩
    · exact absurd hstep (by simp)
  | flush =>
    simp only [step] at hstep
    split at hstep
    · exact absurd hstep (by simp)
    · exact Option.some.inj hstep ▸ ⟨rfl, rfl, rfl⟩
  | rescan | rescanFolder | stop | join | add | remove => exact absurd h id

/-- The pass under way comes to folder `i`. -/
theorem scans_of_ahead (d : Nat) : ∀ {s : Scanner} {nf mask j : Nat}, i - j = d → s.live i = true →
    s.phase = .passing nf mask j → j ≤ i → i < nf → (mask = 0 ∨ mask.testBit i = true) → Scans i 0 s := by
  induction d with
  | zero =>
    intro s nf mask j hd hlive hst hle hlt hm
    obtain rfl : i = j := by omega
    refine Machine.within_step (next_eq hst) trivial (Nat.zero_add 0).le (Machine.within_here ?_ 0)
    have hskip : ¬ (s.removed i || (decide (mask ≠ 0) && !mask.testBit i)) = true :=
      fun hskip => ne_of_skip hlive hm hskip rfl
    unfold Scanner.passOne
    rw [if_neg (not_le.mpr hlt), if_neg hskip]
    exact Function.update_self i false s.wanted
  | succ d ih =>
    intro s nf mask j hd hlive hst hle hlt hm
    refine Machine.within_step (next_eq hst) trivial (Nat.zero_add 0).le ?_
    unfold Scanner.passOne
    rw [if_neg (by omega)]
    split
    · exact ih (by omega) hlive rfl (by omega) hlt hm
    · refine Machine.within_step (scanned_eq rfl) trivial (Nat.zero_add 0).le ?_
      exact ih (by omega) hlive rfl (by omega) hlt hm

theorem scans_ready (h : Seen i s) (hst : s.phase = .ready) (hi : s.wanted i = true) : Scans i 0 s := by
  have hc := seen_step h (undisturbed_own (e := .count) trivial i s) (count_eq hst)
  refine Machine.within_step (count_eq hst) trivial (Nat.zero_add 0).le ?_
  refine Machine.within_step (take_eq rfl) trivial (Nat.zero_add 0).le ?_
  have hahead : Ahead (Scanner.take { s with phase := .counted s.numFolders } s.numFolders) i := ahead_take hc hi rfl
  obtain ⟨hle, hlt, hm⟩ := ahead_passing hahead rfl
  exact scans_of_ahead (i - 0) rfl (h.live hi) rfl hle hlt hm

/-- The nap ends at its next second. -/
theorem scans_napping (h : Seen i s) (hstop : s.sigStop = false) {k quiet : Nat} {dirty : Bool}
    (hst : s.phase = .napping k dirty quiet) : Scans i 1 s := by
  cases hi : s.wanted i with
  | false => exact Machine.within_here (P := fun t : Scanner => t.wanted i = false) hi 1
  | true =>
    have hsig := (signal_of_napping h hst hi).2
    have hready : (s.nap k dirty quiet false).phase = .ready ∧ (s.nap k dirty quiet false).wanted = s.wanted := by
      unfold Scanner.nap
      split
      · rw [hstop, hsig]
        exact ⟨rfl, rfl⟩
      · rw [hstop]
        exact ⟨rfl, rfl⟩
    refine Machine.within_step (look_eq hst false) trivial (Nat.add_zero 1).le ?_
    exact scans_ready (seen_nap h hst false) hready.1 (hready.2 ▸ hi)

theorem scans (h : Seen i s) (hstop : s.sigStop = false) (ha : Alive s) : Scans i 1 s := by
  refine naps (Q := fun s => Seen i s ∧ s.sigStop = false) (fun e he => he) ?_ ?_ ha ⟨h, hstop⟩
  · exact fun s e t hq he hstep =>
      ⟨seen_step hq.1 (undisturbed_own he i s) hstep, (own_frame he hstep).2.2.trans hq.2⟩
  · exact fun s k dirty quiet hq hst => scans_napping hq.1 hq.2 hst

/-! ### The end -/

/-- `scanner_stop` comes back before the nap has gone on for a second. -/
def Ends (s : Scanner) : Prop :=
  Machine.Within step (fun e => Own e ∨ e = .join) seconds (fun t => t.daemon = .joined) 1 s

/-- `scanner_stop` has sent the signal. -/
structure Told (s : Scanner) : Prop where
  exited : s.daemon = .joining → s.exited = false
  sigStop : s.daemon = .joining → s.sigStop = true
  signal : s.sigStop = true → s.daemon ≠ .serving
  flushing : s.phase = .flushing → s.sigStop = true

theorem told_own {e : Event} (h : Told s) (he : Own e) (hflushing : t.phase = .flushing → s.sigStop = true)
    (hstep : step s e = some t) : Told t := by
  obtain ⟨hdaemon, hexited, hstop⟩ := own_frame he hstep
  refine ⟨?_, ?_, ?_, fun hf => hstop.trans (hflushing hf)⟩
  · rw [hdaemon, hexited]
    exact h.exited
  · rw [hdaemon, hstop]
    exact h.sigStop
  · rw [hdaemon, hstop]
    exact h.signal

theorem told_same (h : Told s) (hphase : t.phase = s.phase) (hdaemon : t.daemon = s.daemon)
    (hserving : s.daemon = .joining → t.exited = s.exited) (hstop : t.sigStop = s.sigStop) : Told t := by
  refine ⟨fun hj => ?_, ?_, ?_, ?_⟩
  · rw [hdaemon] at hj
    rw [hserving hj]
    exact h.exited hj
  · rw [hdaemon, hstop]
    exact h.sigStop
  · rw [hdaemon, hstop]
    exact h.signal
  · rw [hphase, hstop]
    exact h.flushing

theorem told_drain (h : Told s) (hserving : s.daemon = .serving) : Told s.drainScannerLocked := by
  obtain ⟨hphase, -, -, -, -, -, -, hdaemon, hstop⟩ := drain_frame s
  exact told_same h hphase hdaemon (fun hj => absurd (hserving.symm.trans hj) (by simp)) hstop

theorem told_stop (hh : Handle s) (h : Told s) : Told s.scannerStop := by
  have hd := handle_drain hh
  obtain ⟨hphase, -, -, -, -, -, -, -, hstop⟩ := drain_frame s
  have hproc := hd.proc
  unfold Scanner.scannerStop
  dsimp only
  cases hx : s.drainScannerLocked.exited with
  | true =>
    refine ⟨by simp, by simp, by simp, fun hf => ?_⟩
    dsimp only at hf
    rw [hstop, h.flushing (hphase ▸ hf), Bool.true_or]
  | false =>
    rw [hx] at hproc
    refine ⟨fun _ => rfl, fun _ => ?_, by simp, fun _ => ?_⟩
    · dsimp only
      rw [hproc]
      exact Bool.or_true _
    · dsimp only
      rw [hproc]
      exact Bool.or_true _

/-- **Step.** -/
theorem told_step {e : Event} (hh : Handle s) (h : Told s) (hstep : step s e = some t) : Told t := by
  cases e with
  | begin ok =>
    simp only [step] at hstep
    split at hstep
    · exact absurd hstep (by simp)
    · obtain rfl := Option.some.inj hstep
      cases ok with
      | true => exact ⟨h.exited, h.sigStop, h.signal, by simp⟩
      | false => exact ⟨h.exited, h.sigStop, h.signal, by simp⟩
  | count =>
    refine told_own (e := .count) h trivial (fun hf => ?_) hstep
    simp only [step] at hstep
    split at hstep
    · exact absurd hstep (by simp)
    · obtain rfl := Option.some.inj hstep
      exact absurd hf (by simp)
  | take =>
    refine told_own (e := .take) h trivial (fun hf => ?_) hstep
    simp only [step] at hstep
    split at hstep
    · obtain rfl := Option.some.inj hstep
      exact absurd hf (by simp [Scanner.take])
    · exact absurd hstep (by simp)
  | next =>
    refine told_own (e := .next) h trivial (fun hf => ?_) hstep
    simp only [step] at hstep
    split at hstep
    · rename_i nf mask j _
      obtain rfl := Option.some.inj hstep
      rcases passOne_phase s nf mask j with hp | ⟨-, hp | hp⟩ <;> exact absurd (hp.symm.trans hf) (by simp)
    · exact absurd hstep (by simp)
  | scanned =>
    refine told_own (e := .scanned) h trivial (fun hf => ?_) hstep
    simp only [step] at hstep
    split at hstep
    · obtain rfl := Option.some.inj hstep
      exact absurd hf (by simp)
    · exact absurd hstep (by simp)
  | look notified =>
    refine told_own (e := .look notified) h trivial (fun hf => ?_) hstep
    simp only [step] at hstep
    split at hstep
    · obtain rfl := Option.some.inj hstep
      unfold Scanner.nap at hf
      split_ifs at hf with _ hinside _ _ _ _ hafter
      · exact hinside
      · exact hafter
    · exact absurd hstep (by simp)
  | flush =>
    refine told_own (e := .flush) h trivial (fun hf => ?_) hstep
    simp only [step] at hstep
    split at hstep
    · exact absurd hstep (by simp)
    · obtain rfl := Option.some.inj hstep
      exact absurd hf (by simp)
  | rescan =>
    simp only [step] at hstep
    split at hstep
    · exact absurd hstep (by simp)
    · rename_i hserving
      have hd := told_drain h (not_not.mp hserving)
      obtain rfl := Option.some.inj hstep
      unfold Scanner.scannerRescan
      dsimp only
      split
      · exact told_same hd rfl rfl (fun _ => rfl) rfl
      · exact hd
  | rescanFolder idx =>
    simp only [step] at hstep
    split at hstep
    · exact absurd hstep (by simp)
    · rename_i hserving
      have hd := told_drain h (not_not.mp hserving)
      obtain rfl := Option.some.inj hstep
      unfold Scanner.scannerRescanFolder
      dsimp only
      split
      · exact h
      · split
        · exact told_same hd rfl rfl (fun _ => rfl) rfl
        · exact hd
  | stop =>
    simp only [step] at hstep
    split at hstep
    · exact absurd hstep (by simp)
    · exact Option.some.inj hstep ▸ told_stop hh h
  | join =>
    simp only [step] at hstep
    split at hstep
    · obtain rfl := Option.some.inj hstep
      exact ⟨by simp, by simp, by simp, h.flushing⟩
    · exact absurd hstep (by simp)
  | add i =>
    simp only [step] at hstep
    split at hstep
    · exact Option.some.inj hstep ▸ told_same h rfl rfl (fun _ => rfl) rfl
    · split at hstep
      · exact Option.some.inj hstep ▸ told_same h rfl rfl (fun _ => rfl) rfl
      · exact absurd hstep (by simp)
  | remove i =>
    simp only [step] at hstep
    split at hstep
    · exact Option.some.inj hstep ▸ told_same h rfl rfl (fun _ => rfl) rfl
    · exact absurd hstep (by simp)

/-- `scanner_stop` waits. -/
structure Waits (s : Scanner) : Prop where
  handle : Handle s
  told : Told s
  joining : s.daemon = .joining

theorem waits_own {e : Event} (h : Waits s) (he : Own e) (hstep : step s e = some t) : Waits t :=
  ⟨handle_step s e t h.handle hstep, told_step h.handle h.told hstep, (own_frame he hstep).1.trans h.joining⟩

theorem ends_gone (h : Waits s) (hst : s.phase = .gone) (n : Nat) :
    Machine.Within step (fun e => Own e ∨ e = .join) seconds (fun t => t.daemon = .joined) n s := by
  have hreply : s.reply = true := by
    rcases h.handle.gone.mp hst with hr | hx | hd
    · exact hr
    · exact absurd ((h.told.exited h.joining).symm.trans hx) (by simp)
    · exact absurd (h.joining.symm.trans hd) (by simp)
  have hjoin : step s .join = some { s with daemon := .joined, reply := false } := by
    simp [step, h.joining, hreply]
  exact Machine.within_step hjoin (Or.inr rfl) (Nat.zero_add n).le
    (Machine.within_here (P := fun t : Scanner => t.daemon = .joined) rfl n)

theorem ends_flushing (h : Waits s) (hst : s.phase = .flushing) (n : Nat) :
    Machine.Within step (fun e => Own e ∨ e = .join) seconds (fun t => t.daemon = .joined) n s :=
  Machine.within_step (flush_eq hst) (Or.inl trivial) (Nat.zero_add n).le
    (ends_gone (waits_own (e := .flush) h trivial (flush_eq hst)) rfl n)

/-- The nap ends at its next second. -/
theorem ends_napping (h : Waits s) {k quiet : Nat} {dirty : Bool} (hst : s.phase = .napping k dirty quiet) :
    Ends s := by
  have hstop := h.told.sigStop h.joining
  have hflushing : (s.nap k dirty quiet false).phase = .flushing := by
    unfold Scanner.nap
    rw [hstop]
    split <;> rfl
  refine Machine.within_step (look_eq hst false) (Or.inl trivial) (Nat.add_zero 1).le ?_
  exact ends_flushing (waits_own (e := .look false) h trivial (look_eq hst false)) hflushing 0

theorem ends (h : Waits s) : Ends s := by
  by_cases hflushing : s.phase = .flushing
  · exact ends_flushing h hflushing 1
  · by_cases hgone : s.phase = .gone
    · exact ends_gone h hgone 1
    · refine naps (Q := Waits) (fun e he => Or.inl he) ?_ ?_ ⟨hflushing, hgone⟩ h
      · exact fun s e t hq he hstep => waits_own hq he hstep
      · exact fun s k dirty quiet hq hst => ends_napping hq hst

/-! ### The run -/

/-- **Run.** -/
theorem handle_run {numFolders : Nat} {es : List Event}
    (hrun : Machine.run step (scannerStart numFolders) es = some s) : Handle s ∧ Told s := by
  refine Machine.run_inv (I := fun s => Handle s ∧ Told s) ?_ hrun ⟨?_, ?_⟩
  · exact fun s e t h hstep => ⟨handle_step s e t h.1 hstep, told_step h.1 h.2 hstep⟩
  · exact ⟨rfl, by simp [scannerStart], by simp [scannerStart]⟩
  · exact ⟨fun _ => rfl, by simp [scannerStart], by simp [scannerStart], by simp [scannerStart]⟩

theorem seen_run {numFolders : Nat} {es : List Event}
    (hu : Machine.Along step (Undisturbed i) (scannerStart numFolders) es)
    (hrun : Machine.run step (scannerStart numFolders) es = some s) : Seen i s := by
  refine Machine.run_inv_along (fun s e t h hc hstep => seen_step h hc hstep) hu hrun ⟨?_, ?_, ?_⟩
  · exact fun hi => absurd hi (by simp [scannerStart])
  · exact fun _ hi => absurd hi (by simp [scannerStart])
  · exact fun nf hc => absurd hc (by simp [scannerStart])

/-- While there is a process, the handle has it. -/
theorem drain_proc (h : Handle s) (hlives : s.phase ≠ .gone) : s.drainScannerLocked.proc = true := by
  have hd := handle_drain h
  rw [hd.proc]
  cases hx : s.drainScannerLocked.exited with
  | false => rfl
  | true => exact absurd (hd.gone.mpr (Or.inr (Or.inl hx))) ((drain_frame s).1 ▸ hlives)

theorem live_drain (s : Scanner) (i : Nat) : s.drainScannerLocked.live i = s.live i := by
  obtain ⟨-, hnum, hremoved, -⟩ := drain_frame s
  unfold Scanner.live
  rw [hnum, hremoved]

/-- A request to a scanner that is there is noted. -/
theorem wanted_of_asked (h : Handle s) (hserving : s.daemon = .serving) (hlives : s.phase ≠ .gone)
    (hi : i < configMaxFolders) (hlive : s.live i = true) {e : Event} (he : e = .rescan ∨ e = .rescanFolder i) :
    ∃ t, step s e = some t ∧ t.wanted i = true := by
  have hproc := drain_proc h hlives
  rcases he with rfl | rfl
  · refine ⟨s.scannerRescan, by simp [step, hserving], ?_⟩
    unfold Scanner.scannerRescan
    dsimp only
    rw [if_pos hproc]
    show (s.drainScannerLocked.live i || s.drainScannerLocked.wanted i) = true
    rw [live_drain, hlive, Bool.true_or]
  · refine ⟨s.scannerRescanFolder i, by simp [step, hserving], ?_⟩
    unfold Scanner.scannerRescanFolder
    dsimp only
    rw [if_neg (not_le.mpr hi), if_pos hproc]
    dsimp only
    rw [Function.update_self, live_drain, hlive, Bool.true_or]

/-- **No request is lost.** After each run in which folder `i` is not added past the number of
folders the scanner has just read: where the daemon serves and the scanner is there, a request for
folder `i` is noted, and a request that was noted leads to a scan that begins within a second of
the nap. -/
theorem rescan_seen (numFolders i : Nat) (es : List Event)
    (hu : Machine.Along step (Undisturbed i) (scannerStart numFolders) es)
    (hrun : Machine.run step (scannerStart numFolders) es = some s) (hserving : s.daemon = .serving)
    (hlives : s.phase ≠ .gone) :
    (i < configMaxFolders → s.live i = true → ∀ e, e = .rescan ∨ e = .rescanFolder i →
      ∃ t, step s e = some t ∧ t.wanted i = true) ∧ (s.wanted i = true → Scans i 1 s) := by
  obtain ⟨hh, ht⟩ := handle_run hrun
  have hstop : s.sigStop = false := by
    rw [← Bool.not_eq_true]
    exact fun hs => ht.signal hs hserving
  have ha : Alive s := ⟨fun hf => absurd ((ht.flushing hf).symm.trans hstop) (by simp), hlives⟩
  exact ⟨fun hi hlive e he => wanted_of_asked hh hserving hlives hi hlive he,
    fun _ => scans (seen_run hu hrun) hstop ha⟩

/-- A folder is asked for while a pass goes on, and another one is added. -/
def sampleRun : List Event :=
  [.begin true, .count, .take, .next, .rescanFolder 0, .scanned, .add 2, .next, .scanned]

theorem rescan_seen_sample :
    ∃ s, Machine.run step (scannerStart 2) sampleRun = some s ∧ s.wanted 0 = true ∧ Scans 0 1 s := by
  have hfacts : ((Machine.run step (scannerStart 2) sampleRun).any fun s =>
      decide (s.daemon = .serving) && decide (s.phase ≠ .gone) && s.wanted 0) = true := by decide
  obtain ⟨s, hs, hstate⟩ := (Option.any_eq_true _ _).mp hfacts
  simp only [Bool.and_eq_true, decide_eq_true_eq] at hstate
  have hu : Machine.Along step (Undisturbed 0) (scannerStart 2) sampleRun := by
    refine Machine.along_mono (C := fun _ e => ∀ j, e = .add j → j ≠ 0) ?_ (Machine.along_of_forall ?_ _)
    · intro s e he
      cases e with
      | add j => exact fun hj => absurd hj (he j rfl)
      | _ => trivial
    · simp [sampleRun]
  exact ⟨s, hs, hstate.2, (rescan_seen 2 0 sampleRun hu hs hstate.1.1 hstate.1.2).2 hstate.2⟩

/-- **The end.** After each run, the process that a signal would be sent to is there; once
`scanner_stop` waits, the scanner and the wait come to their end within a second of the nap; and when it
has come back, the scanner has left its loop. -/
theorem scanner_stops (numFolders : Nat) (es : List Event)
    (hrun : Machine.run step (scannerStart numFolders) es = some s) :
    (s.daemon = .serving → s.drainScannerLocked.proc = true → s.phase ≠ .gone) ∧
      (s.daemon = .joining → Ends s) ∧ (s.daemon = .joined → s.phase = .gone) := by
  obtain ⟨hh, ht⟩ := handle_run hrun
  refine ⟨fun hserving hproc => ?_, fun hj => ends ⟨hh, ht, hj⟩, fun hj => hh.gone.mpr (Or.inr (Or.inr hj))⟩
  rw [← (drain_frame s).1]
  exact drain_live hh (by rw [hserving]; simp) hproc

theorem scanner_stops_sample :
    ∃ s, Machine.run step (scannerStart 2) (sampleRun ++ [.stop]) = some s ∧ Ends s := by
  have hfacts : ((Machine.run step (scannerStart 2) (sampleRun ++ [.stop])).any fun s =>
      decide (s.daemon = .joining)) = true := by decide
  obtain ⟨s, hs, hj⟩ := (Option.any_eq_true _ _).mp hfacts
  exact ⟨s, hs, (scanner_stops 2 (sampleRun ++ [.stop]) hs).2.1 (of_decide_eq_true hj)⟩

end Reach

end Amisync.ScannerLoop

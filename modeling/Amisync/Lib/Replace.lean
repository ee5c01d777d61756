import Amisync.Lib.Machine

/-!
# Replacing a file through a temporary one

The new content is written to a temporary file, the old file is deleted, and the
temporary one gets its name. Every call may be refused, and any may be the last that
ever comes.

* `Saving`, `call`: the two files and how far it has come; what a call does.
* `Moves`, `moves_of_call`: all that a call can do.
* `Safe`, `safe_run`: what is on the disk after any calls.
* `Safe.copy`: until it has failed for good there is a whole copy, old or new.
* `Fed`, `fed_call`: what holds of all that is saved holds of the file, also where others
  delete it meanwhile.
* `run_granted`: calls that are all granted put the new content in place.
-/

namespace Replace

variable {β : Type*}

/-- `begun` is the state before the first call. In `failed` the temporary file is to go. -/
inductive Stage (β : Type*)
  | begun (data : List β)
  | opened (data : List β)
  | staged (data : List β)
  | cleared (data : List β)
  | restoring
  | failed
  | ended (ok : Bool)
  deriving DecidableEq

structure Saving (β : Type*) where
  file : Option (List β)
  temp : Option (List β)
  stage : Stage β
  deriving DecidableEq

/-- A write that fails has left so many elements; `restore none` is one that does not begin. -/
inductive Call
  | create (ok : Bool)
  | write (part : Option Nat)
  | delete (ok : Bool)
  | rename (ok : Bool)
  | restore (part : Option Nat)
  | discard (ok : Bool)

/-- The next call; `none` where another is next. A file is not renamed over another. `backup` is
written back where the rename is refused. -/
def call (backup : Option (List β)) (s : Saving β) (c : Call) : Option (Saving β) :=
  match s.stage, c with
  | .begun d, .create true => some { s with temp := some [], stage := .opened d }
  | .begun _, .create false => some { s with stage := .ended false }
  | .opened d, .write none => some { s with temp := some d, stage := .staged d }
  | .opened d, .write (some n) => some { s with temp := some (d.take n), stage := .failed }
  | .staged d, .delete ok => some { s with file := if ok then none else s.file, stage := .cleared d }
  | .cleared _, .rename ok =>
    some (if ok && s.file.isNone then ⟨s.temp, none, .ended true⟩
      else { s with stage := if backup.isSome then .restoring else .failed })
  | .restoring, .restore none => some { s with stage := .failed }
  | .restoring, .restore (some n) =>
    some { s with file := (backup.map (List.take n)).or s.file, stage := .failed }
  | .failed, .discard ok => some { s with temp := if ok then none else s.temp, stage := .ended false }
  | _, _ => none

/-! ## What a call does -/

inductive Moves (backup : Option (List β)) : Saving β → Saving β → Prop
  | opened (f t d) : Moves backup ⟨f, t, .begun d⟩ ⟨f, some [], .opened d⟩
  | refused (f t d) : Moves backup ⟨f, t, .begun d⟩ ⟨f, t, .ended false⟩
  | written (f t d) : Moves backup ⟨f, t, .opened d⟩ ⟨f, some d, .staged d⟩
  | short (f t d) (n : Nat) : Moves backup ⟨f, t, .opened d⟩ ⟨f, some (d.take n), .failed⟩
  | deleted (f t d) : Moves backup ⟨f, t, .staged d⟩ ⟨none, t, .cleared d⟩
  | kept (f t d) : Moves backup ⟨f, t, .staged d⟩ ⟨f, t, .cleared d⟩
  | renamed (t d) : Moves backup ⟨none, t, .cleared d⟩ ⟨t, none, .ended true⟩
  | stuck (f t d) : Moves backup ⟨f, t, .cleared d⟩ ⟨f, t, .failed⟩
  | back (f t d b) (hb : backup = some b) : Moves backup ⟨f, t, .cleared d⟩ ⟨f, t, .restoring⟩
  | lost (f t) : Moves backup ⟨f, t, .restoring⟩ ⟨f, t, .failed⟩
  | restored (f t b) (n : Nat) (hb : backup = some b) :
    Moves backup ⟨f, t, .restoring⟩ ⟨some (b.take n), t, .failed⟩
  | discarded (f t u) : Moves backup ⟨f, t, .failed⟩ ⟨f, u, .ended false⟩

section Calls
variable {backup old : Option (List β)} {data : List β} {s t : Saving β}

/-- **Inversion.** -/
theorem moves_of_call {c : Call} (hcall : call backup s c = some t) : Moves backup s t := by
  obtain ⟨f, u, stage⟩ := s
  unfold call at hcall
  dsimp only at hcall
  split at hcall
  · exact Option.some.inj hcall ▸ .opened ..
  · exact Option.some.inj hcall ▸ .refused ..
  · exact Option.some.inj hcall ▸ .written ..
  · exact Option.some.inj hcall ▸ .short ..
  · rename_i d ok
    cases ok with
    | true => exact Option.some.inj hcall ▸ .deleted ..
    | false => exact Option.some.inj hcall ▸ .kept ..
  · obtain rfl := Option.some.inj hcall
    split
    · rename_i hfree
      obtain rfl : f = none := by simpa using (Bool.and_eq_true_iff.mp hfree).2
      exact .renamed ..
    · cases backup with
      | none => exact .stuck ..
      | some b => exact .back _ _ _ b rfl
  · exact Option.some.inj hcall ▸ .lost ..
  · obtain rfl := Option.some.inj hcall
    cases backup with
    | none => exact .lost ..
    | some b => exact .restored _ _ b _ rfl
  · exact Option.some.inj hcall ▸ .discarded ..
  · exact absurd hcall (by simp)

/-! ## Alone with the file -/

/-- The backup has been written back, or the beginning of it. -/
def Restored (backup : Option (List β)) (file : Option (List β)) : Prop :=
  ∃ b n, backup = some b ∧ file = some (b.take n)

/-- What is on the disk, where `old` was and `data` is to be. -/
def Safe (backup old : Option (List β)) (data : List β) (s : Saving β) : Prop :=
  match s.stage with
  | .begun d | .opened d => d = data ∧ s.file = old
  | .staged d => d = data ∧ s.file = old ∧ s.temp = some data
  | .cleared _ | .restoring => (s.file = old ∨ s.file = none) ∧ s.temp = some data
  | .failed => s.file = old ∨ (s.file = none ∨ Restored backup s.file) ∧ s.temp = some data
  | .ended true => s.file = some data
  | .ended false => s.file = old ∨ s.file = none ∨ Restored backup s.file

theorem safe_begun (old temp : Option (List β)) (data : List β) :
    Safe backup old data ⟨old, temp, .begun data⟩ := ⟨rfl, rfl⟩

/-- A file that is as it was, or gone, while the new content is whole. -/
theorem safe_failed {f : Option (List β)} (hfile : f = old ∨ f = none) :
    Safe backup old data ⟨f, some data, .failed⟩ := by
  rcases hfile with rfl | rfl
  · exact Or.inl rfl
  · exact Or.inr ⟨Or.inl rfl, rfl⟩

/-- **Step.** -/
theorem safe_call {c : Call} (h : Safe backup old data s) (hcall : call backup s c = some t) :
    Safe backup old data t := by
  cases moves_of_call hcall with
  | opened f t d => exact h
  | refused f t d => exact Or.inl h.2
  | written f t d => exact ⟨h.1, h.2, congrArg some h.1⟩
  | short f t d n => exact Or.inl h.2
  | deleted f t d => exact ⟨Or.inr rfl, h.2.2⟩
  | kept f t d => exact ⟨Or.inl h.2.1, h.2.2⟩
  | renamed t d => exact h.2
  | stuck f t d =>
    obtain ⟨hfile, rfl⟩ := h
    exact safe_failed hfile
  | back f t d b hb => exact h
  | lost f t =>
    obtain ⟨hfile, rfl⟩ := h
    exact safe_failed hfile
  | restored f t b n hb => exact Or.inr ⟨Or.inr ⟨b, n, hb, rfl⟩, h.2⟩
  | discarded f t u =>
    rcases h with hold | ⟨hfile, -⟩
    · exact Or.inl hold
    · exact Or.inr hfile

/-- **Run.** -/
theorem safe_run {cs : List Call} (h : Safe backup old data s)
    (hrun : Machine.run (call backup) s cs = some t) : Safe backup old data t :=
  Machine.run_inv (fun _ _ _ hs hcall => safe_call hs hcall) hrun h

/-- **Copy.** Something whole is left to go on from, wherever it stops. -/
theorem Safe.copy (h : Safe backup old data s) (hstage : s.stage ≠ .ended false) :
    s.file = old ∨ s.file = some data ∨ s.temp = some data := by
  obtain ⟨file, temp, stage⟩ := s
  cases stage with
  | begun d | opened d => exact Or.inl h.2
  | staged d => exact Or.inl h.2.1
  | cleared d | restoring => exact Or.inr (Or.inr h.2)
  | failed =>
    rcases h with hold | ⟨-, htemp⟩
    · exact Or.inl hold
    · exact Or.inr (Or.inr htemp)
  | ended ok =>
    cases ok with
    | true => exact Or.inr (Or.inl h)
    | false => exact absurd rfl hstage

/-- The calls when all goes well. -/
def granted : List Call := [.create true, .write none, .delete true, .rename true]

theorem run_granted (backup old temp : Option (List β)) (data : List β) :
    Machine.run (call backup) ⟨old, temp, .begun data⟩ granted = some ⟨some data, none, .ended true⟩ := rfl

/-! ## With others about -/

/-- What is on its way into the file. -/
def Stage.carries : Stage β → Option (List β)
  | .begun d | .opened d | .staged d | .cleared d => some d
  | _ => none

/-- `P` holds of the file, and of what is on its way there. -/
structure Fed (P : List β → Prop) (s : Saving β) : Prop where
  file : ∀ b, s.file = some b → P b
  carried : ∀ d, s.stage.carries = some d → P d
  staged : ∀ d, s.stage = .staged d ∨ s.stage = .cleared d → s.temp = some d

variable {P : List β → Prop}

/-- **Step.** -/
theorem fed_call {c : Call} (h : Fed P s) (hcall : call none s c = some t) : Fed P t := by
  obtain ⟨hfile, hcarried, hstaged⟩ := h
  cases moves_of_call hcall with
  | opened f t d => exact ⟨hfile, hcarried, by simp⟩
  | refused f t d => exact ⟨hfile, by simp [Stage.carries], by simp⟩
  | written f t d => exact ⟨hfile, hcarried, by simp⟩
  | short f t d n => exact ⟨hfile, by simp [Stage.carries], by simp⟩
  | deleted f t d => exact ⟨by simp, hcarried, fun e he => hstaged e (by simpa using he)⟩
  | kept f t d => exact ⟨hfile, hcarried, fun e he => hstaged e (by simpa using he)⟩
  | renamed t d =>
    have htemp := hstaged d (Or.inr rfl)
    refine ⟨fun b hb => ?_, by simp [Stage.carries], by simp⟩
    obtain rfl := Option.some.inj (htemp.symm.trans hb)
    exact hcarried d rfl
  | stuck f t d => exact ⟨hfile, by simp [Stage.carries], by simp⟩
  | back f t d b hb => exact absurd hb (by simp)
  | lost f t => exact ⟨hfile, by simp [Stage.carries], by simp⟩
  | restored f t b n hb => exact absurd hb (by simp)
  | discarded f t u => exact ⟨hfile, by simp [Stage.carries], by simp⟩

theorem fed_delete (h : Fed P s) (ok : Bool) : Fed P { s with file := if ok then none else s.file } := by
  refine ⟨fun b hb => ?_, h.carried, h.staged⟩
  cases ok with
  | true => exact absurd hb (by simp)
  | false => exact h.file b hb

theorem fed_ended (h : Fed P s) (ok : Bool) : Fed P { s with stage := .ended ok } :=
  ⟨h.file, by simp [Stage.carries], by simp⟩

theorem fed_begun (h : Fed P s) {d : List β} (hd : P d) : Fed P { s with stage := .begun d } :=
  ⟨h.file, fun _ he => Option.some.inj he ▸ hd, by simp⟩

theorem Fed.mono (h : Fed P s) {Q : List β → Prop} (hPQ : ∀ b, P b → Q b) : Fed Q s :=
  ⟨fun b hb => hPQ b (h.file b hb), fun d hd => hPQ d (h.carried d hd), h.staged⟩

end Calls

end Replace

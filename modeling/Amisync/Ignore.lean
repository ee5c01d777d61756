import Amisync.Walk

/-!
# Ignore rules (`ignore.c`)

Patterns one a line, the first that hits a path decides.

* `globRec`: the matcher, which gives up when its budget is used up.
* `ignoreParse`: the lines of a file, in order; an `#include` is handed to the
  caller's loader.
* `ignoreMatch`: whether a path is ignored.
-/

namespace Amisync

def ignoreMaxPatterns : Nat := 48
def ignorePatternMax : Nat := 128
def ignorePathMax : Nat := 384
def globBudget : Nat := 200000

structure IgnorePattern where
  glob : Bytes
  negate : Bool
  hasSlash : Bool
  deriving DecidableEq, Repr

/-- `dropped` counts the lines that are not enforced. -/
structure IgnoreSet where
  pats : List IgnorePattern
  dropped : Nat
  bound : pats.length ≤ ignoreMaxPatterns
  deriving DecidableEq

/-! ## Globs -/

namespace Glob

/-- `*` -/
def star : UInt8 := 42
/-- `?` -/
def question : UInt8 := 63
/-- `[` -/
def opening : UInt8 := 91
/-- `]` -/
def closing : UInt8 := 93
/-- `-` -/
def dash : UInt8 := 45
/-- `!` -/
def bang : UInt8 := 33
/-- `^` -/
def caret : UInt8 := 94

/-- A class up to its `]`: whether `sc`, in lower case, is in it, and the pattern after it. -/
def scanClass (sc : UInt8) : Bytes → Bool → Option (Bool × Bytes)
  | [], _ => none
  | [c], matched => if c = closing then some (matched, []) else none
  | [c, d], matched =>
    if c = closing then some (matched, [d]) else scanClass sc [d] (matched || sc == lower c)
  | c :: d :: x :: q, matched =>
    if c = closing then some (matched, d :: x :: q)
    else if d = dash ∧ x ≠ closing then
      scanClass sc q (matched || (lower c ≤ sc && sc ≤ lower x))
    else scanClass sc (d :: x :: q) (matched || sc == lower c)

/-- The loops of the wildcards: `f` on every tail of the path, up to the first slash unless
slashes are matched too. The budget is handed on from one try to the next. -/
def tryTails (f : Bytes → Nat → Bool × Nat) (slashes : Bool) : Bytes → Nat → Bool × Nat
  | [], budget => f [] budget
  | c :: s, budget =>
    match f (c :: s) budget with
    | (true, budget) => (true, budget)
    | (false, budget) =>
      if c = slash ∧ slashes = false then (false, budget) else tryTails f slashes s budget

/-- The body of `glob_rec`. Every round uses up at least one byte of the pattern, which
`fuel` counts. -/
def loop : Nat → Bytes → Bytes → Nat → Bool × Nat
  | _, [], s, budget => (s.isEmpty, budget)
  | 0, _ :: _, _, budget => (false, budget)
  | fuel + 1, c :: p, s, budget =>
    let rec' := fun p s budget =>
      if budget ≤ 1 then (false, budget - 1) else loop fuel p s (budget - 1)
    if c = star ∧ p.head? = some star then
      let p := if (p.drop 1).head? = some slash then p.drop 2 else p.drop 1
      if p.isEmpty then (true, budget) else tryTails (rec' p) true s budget
    else if c = star then tryTails (rec' p) false s budget
    else match s with
      | [] => (false, budget)
      | d :: s =>
        if c = question then if d = slash then (false, budget) else loop fuel p s budget
        else if c = opening then
          let neg := p.head? = some bang ∨ p.head? = some caret
          if d = slash then (false, budget)
          else match scanClass (lower d) (if neg then p.drop 1 else p) false with
            | none => (false, budget)
            | some (matched, p) =>
              if matched = decide neg then (false, budget) else loop fuel p s budget
        else if lower c = lower d then loop fuel p s budget else (false, budget)

end Glob

/-- `glob_rec`, with what is left of the budget. -/
def globRec (p s : Bytes) (budget : Nat) : Bool × Nat :=
  if budget ≤ 1 then (false, budget - 1) else Glob.loop p.length p s (budget - 1)

def globMatch (p s : Bytes) : Bool := (globRec p s globBudget).1

def globMatchPrefix (glob s : Bytes) (len : Nat) : Bool :=
  decide (len ≤ ignorePathMax - 1) && globMatch glob (s.take len)

/-- The path itself, or a drawer above it. -/
def matchPath (glob path : Bytes) : Bool :=
  globMatch glob path ||
    (List.range path.length).any fun i => path[i]? == some slash && globMatchPrefix glob path i

/-- Any one component. -/
def matchSegment (glob path : Bytes) : Bool :=
  (components path).any fun seg => globMatchPrefix glob seg seg.length

def ignoreMatch (set : IgnoreSet) (relpath : Name) : Bool :=
  match set.pats.find? fun pat =>
    if pat.hasSlash then matchPath pat.glob relpath else matchSegment pat.glob relpath with
  | some pat => !pat.negate
  | none => false

/-! ## Lines -/

/-- `ignore_clear` -/
def IgnoreSet.empty : IgnoreSet := ⟨[], 0, Nat.zero_le _⟩

/-- A buffer as a C string. -/
def cString (s : Bytes) : Bytes := s.takeWhile (· ≠ 0)

/-- `#include` -/
def includeKeyword : Bytes := [35, 105, 110, 99, 108, 117, 100, 101]

/-- A line without the carriage return of a CRLF file. -/
def trimCr (line : Bytes) : Bytes := if line.getLast? = some 13 then line.dropLast else line

def isBlank (b : UInt8) : Bool := b = 32 ∨ b = 9

/-- The name an `#include` line gives. -/
def includeName (text : Bytes) : Option Bytes :=
  if includeKeyword.length + 1 < text.length ∧ text.take includeKeyword.length = includeKeyword ∧
      (text[includeKeyword.length]?.any isBlank) = true then
    let name := (text.drop includeKeyword.length).dropWhile isBlank
    if 0 < name.length ∧ name.length < ignorePatternMax then some (cString name) else none
  else none

/-- Skip any `(?x)` flag groups. -/
def skipFlags : Nat → Bytes → Bytes
  | 0, text => text
  | fuel + 1, text =>
    if 4 ≤ text.length ∧ text.head? = some 40 ∧ text[1]? = some Glob.question ∧ text[3]? = some 41 then
      skipFlags fuel (text.drop 4)
    else text

/-- Append a pattern where there is room for it. -/
def IgnoreSet.add (set : IgnoreSet) (text : Bytes) (negate rooted : Bool) : IgnoreSet :=
  if h : text.length < ignorePatternMax ∧ set.pats.length < ignoreMaxPatterns then
    { set with
      pats := set.pats ++ [⟨cString text, negate, rooted || (cString text).contains slash⟩]
      bound := by rw [List.length_append]; exact h.2 }
  else { set with dropped := set.dropped + 1 }

/-- What a line says. -/
inductive Line where
  | nothing
  | included (name : Bytes)
  | pattern (text : Bytes) (negate rooted : Bool)
  deriving DecidableEq, Repr

def readLine (line : Bytes) : Line :=
  let line := trimCr line
  if line.isEmpty then .nothing
  else if line.take 2 = [slash, slash] then .nothing
  else if line.head? = some 35 then
    match includeName line with
    | some name => .included name
    | none => .nothing
  else
    let negate := line.head? = some Glob.bang
    let line := if negate then line.drop 1 else line
    let line := skipFlags line.length line
    let rooted := line.head? = some slash
    let line := if rooted then line.drop 1 else line
    if line.isEmpty then .nothing else .pattern line (decide negate) (decide rooted)

/-- `parse_line`; `inc` is the caller's loader. -/
def parseLine (inc : Bytes → IgnoreSet → IgnoreSet) (set : IgnoreSet) (line : Bytes) : IgnoreSet :=
  match readLine line with
  | .nothing => set
  | .included name => inc name set
  | .pattern text negate rooted => set.add text negate rooted

/-- The lines of a file; what follows the last newline is one too. -/
def ignoreLines (text : Bytes) : List Bytes := text.splitOn 10

def ignoreParse (inc : Bytes → IgnoreSet → IgnoreSet) (set : IgnoreSet) (text : Bytes) : IgnoreSet :=
  (ignoreLines text).foldl (parseLine inc) set

/-- Two loaders that agree on the names a text includes read it alike. -/
theorem ignoreParse_congr {inc inc' : Bytes → IgnoreSet → IgnoreSet} (text : Bytes)
    (h : ∀ line ∈ ignoreLines text, ∀ name, readLine line = .included name →
      ∀ set, inc name set = inc' name set) (set : IgnoreSet) :
    ignoreParse inc set text = ignoreParse inc' set text := by
  rw [ignoreParse, ignoreParse]
  revert h
  induction ignoreLines text generalizing set with
  | nil => exact fun _ => rfl
  | cons line lines ih =>
    intro h
    have hline : parseLine inc set line = parseLine inc' set line := by
      rw [parseLine, parseLine]
      cases hread : readLine line with
      | nothing => rfl
      | included name => exact h line List.mem_cons_self name hread set
      | pattern text negate rooted => rfl
    rw [List.foldl_cons, List.foldl_cons, hline]
    exact ih _ fun line hl => h line (List.mem_cons_of_mem _ hl)

end Amisync

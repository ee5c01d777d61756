import Amisync.Types
import Mathlib.Data.List.TakeWhile

/-!
# Records as the program stores them (`syncmodel.h`, `foldstate.h`)

The fields of a record with the types they have in the C structs, for the code
that lays them out in memory, in files and in messages.

* `CString`: the text of a fixed array of bytes.
* `FileMeta`: the fields of `SyncMeta` and `BepFileInfo`.
-/

namespace Amisync

/-- The text in an array of `max + 1` bytes. -/
structure CString (max : Nat) where
  bytes : Bytes
  short : bytes.length ≤ max
  nonul : (0 : UInt8) ∉ bytes
  deriving DecidableEq, Repr

namespace CString

variable {max : Nat}

@[ext] theorem ext {a b : CString max} (h : a.bytes = b.bytes) : a = b := by
  cases a
  cases b
  cases h
  rfl

/-- `memcpy(dst, p, n); dst[n] = 0`, with `n` cut to what fits. -/
def ofBytes (max : Nat) (b : Bytes) : CString max where
  bytes := (b.take max).takeWhile (· ≠ 0)
  short := (List.takeWhile_prefix _).length_le.trans (List.length_take_le ..)
  nonul := fun h => by simpa using List.mem_takeWhile_imp h

@[simp] theorem ofBytes_bytes (s : CString max) : ofBytes max s.bytes = s := by
  apply ext
  have hall : ∀ b ∈ s.bytes, decide (b ≠ 0) = true := by
    intro b hb
    simpa using fun h : b = 0 => s.nonul (h ▸ hb)
  show (s.bytes.take max).takeWhile (· ≠ 0) = s.bytes
  rw [List.take_of_length_le s.short, List.takeWhile_eq_self_iff]
  exact hall

/-- A text that fits and has no NUL in it is copied whole. -/
theorem bytes_ofBytes {b : Bytes} (hlen : b.length ≤ max) (hnul : (0 : UInt8) ∉ b) :
    (ofBytes max b).bytes = b :=
  congrArg bytes (ofBytes_bytes ⟨b, hlen, hnul⟩)

def empty (max : Nat) : CString max := ⟨[], Nat.zero_le _, List.not_mem_nil⟩

end CString

/-- The name of a record. -/
abbrev FileName := CString (bepPathMax - 1)

/-- A counter of a stored version vector. -/
structure Counter where
  id : UInt64
  value : UInt64
  deriving DecidableEq, Repr

/-- The used prefix of the fixed array of counters. -/
structure Counters where
  list : List Counter
  bound : list.length ≤ bepMaxCounters
  deriving DecidableEq, Repr

def Counters.empty : Counters := ⟨[], by decide⟩

def zeroHash : Hash := sampleHash 0

def readHash (b : Bytes) : Option (Hash × Bytes) :=
  if h : bepHashLen ≤ b.length then
    some (⟨b.take bepHashLen, by rw [List.length_take, Nat.min_eq_left h]⟩, b.drop bepHashLen)
  else none

/-- The same read `n` times. -/
def readMany {α : Type} (one : Bytes → Option (α × Bytes)) : Nat → Bytes → Option (List α × Bytes)
  | 0, b => some ([], b)
  | n + 1, b => do
    let (a, b) ← one b
    let (as, b) ← readMany one n b
    some (a :: as, b)

/-- The hashes that are wholly there. -/
def hashesOf (b : Bytes) : List Hash :=
  ((readMany readHash (b.length / bepHashLen) b).map Prod.fst).getD []

theorem readHash_append (h : Hash) (rest : Bytes) : readHash (h.1 ++ rest) = some (h, rest) := by
  have hlen : bepHashLen ≤ (h.1 ++ rest).length := by
    rw [List.length_append, h.2]
    omega
  rw [readHash, dif_pos hlen, Option.some.injEq, Prod.mk.injEq]
  exact ⟨Subtype.ext (List.take_left' h.2), List.drop_left' h.2⟩

theorem readMany_flatMap {α : Type} {one : Bytes → Option (α × Bytes)} {put : α → Bytes}
    (h : ∀ a rest, one (put a ++ rest) = some (a, rest)) (l : List α) (rest : Bytes) :
    readMany one l.length (l.flatMap put ++ rest) = some (l, rest) := by
  induction l with
  | nil => rfl
  | cons a l ih =>
    rw [List.flatMap_cons, List.append_assoc, List.length_cons, readMany, h]
    simp only [Option.bind_eq_bind, Option.bind_some, ih]

theorem length_flatMap_hashes (l : List Hash) :
    (l.flatMap Subtype.val).length = 32 * l.length := by
  induction l with
  | nil => rfl
  | cons h l ih =>
    rw [List.flatMap_cons, List.length_append, ih, h.2, List.length_cons]
    show 32 + 32 * l.length = 32 * (l.length + 1)
    omega

theorem hashesOf_flatMap (l : List Hash) : hashesOf (l.flatMap Subtype.val) = l := by
  have hlen : (l.flatMap Subtype.val).length / bepHashLen = l.length := by
    rw [length_flatMap_hashes]
    show 32 * l.length / 32 = l.length
    omega
  have hread := readMany_flatMap readHash_append l []
  rw [List.append_nil] at hread
  rw [hashesOf, hlen, hread]
  rfl

structure FileMeta where
  name : FileName
  size : Int64
  permissions : UInt32
  modifiedS : Int64
  modifiedNs : Int32
  modifiedBy : UInt64
  sequence : Int64
  blockSize : Int32
  version : Counters
  contentHash : Hash
  type : UInt8
  deleted : UInt8
  invalid : UInt8
  hasContentHash : UInt8
  deriving DecidableEq

/-- What `memset` leaves. -/
def FileMeta.zero : FileMeta where
  name := .empty _
  size := 0
  permissions := 0
  modifiedS := 0
  modifiedNs := 0
  modifiedBy := 0
  sequence := 0
  blockSize := 0
  version := .empty
  contentHash := zeroHash
  type := 0
  deleted := 0
  invalid := 0
  hasContentHash := 0

/-- The flags are 0 or 1. -/
structure FileMeta.Flags (m : FileMeta) : Prop where
  deleted : m.deleted = 0 ∨ m.deleted = 1
  invalid : m.invalid = 0 ∨ m.invalid = 1
  hasContentHash : m.hasContentHash = 0 ∨ m.hasContentHash = 1

/-- A C truth value as it is written out. -/
def flag (b : UInt8) : UInt8 := if b ≠ 0 then 1 else 0

theorem flag_eq {b : UInt8} (h : b = 0 ∨ b = 1) : flag b = b := by
  rcases h with rfl | rfl <;> rfl

end Amisync

import Mathlib.Algebra.Order.Ring.Int
import Mathlib.Data.List.Nodup
import Mathlib.Order.Basic
import Mathlib.Order.Nat

/-!
# The data model

The records of `bep.h`, `syncmodel.h` and `config.h` that the sync decisions,
the shared index and the transfer machines work on.

* Names, hashes and file contents are byte lists (`Bytes`); a `Hash` has
  exactly `BEP_HASH_LEN` bytes and is ordered by `memcmp`.
* A `BepVector` carries the bound of its fixed array: a vector of more than
  `BEP_MAX_COUNTERS` counters cannot be built.
* `SyncMeta` is also used for the metadata of a received `BepFileInfo`: the
  two C structs have the same fields, copied one by one in both directions by
  `meta_from_fileinfo` and `fileinfo_from_meta`.
-/

namespace Amisync

abbrev Bytes := List UInt8
abbrev Name := Bytes

/-! ## Limits -/

def bepHashLen : Nat := 32
def bepMaxCounters : Nat := 16
def bepPathMax : Nat := 256
def folderBlockSizeBase : Nat := 128 * 1024
def folderMaxBlockSize : Nat := 1024 * 1024
def folderMaxBlocks : Nat := 2048
def folderMaxDepth : Nat := 12
def configMaxWindow : Nat := 4

/-! ## Integers -/

/-- The value of an `int64_t` stored in an `int32_t`. -/
def toInt32 (x : Int) : Int := x.bmod (2 ^ 32)

theorem toInt32_of_small {x : Int} (h₀ : -2 ^ 31 ≤ x) (h : x < 2 ^ 31) : toInt32 x = x :=
  Int.bmod_eq_of_le_mul_two (by omega) (by omega)

/-! ## Hashes -/

/-- A SHA-256 value, as the bytes the daemon stores and compares. -/
abbrev Hash := { b : Bytes // b.length = bepHashLen }

/-- A hash of one repeated byte, for concrete records. -/
def sampleHash (b : UInt8) : Hash := ⟨List.replicate bepHashLen b, List.length_replicate⟩

/-- The C library's `memcmp`: the sign of the first differing byte. -/
def memcmp : Bytes → Bytes → Int
  | a :: as, b :: bs => if a = b then memcmp as bs else if a < b then -1 else 1
  | _, _ => 0

theorem memcmp_neg (a b : Bytes) : memcmp a b = -memcmp b a := by
  induction a generalizing b with
  | nil => cases b <;> rfl
  | cons x a ih =>
    cases b with
    | nil => rfl
    | cons y b =>
      by_cases h : x = y
      · simp [memcmp, h, ih b]
      · have h' : ¬ y = x := fun e => h e.symm
        have hxy : x < y ∨ y < x := by
          rcases Nat.lt_or_gt_of_ne (fun e => h (UInt8.toNat_inj.mp e)) with hl | hl
          · exact Or.inl (UInt8.lt_iff_toNat_lt.mpr hl)
          · exact Or.inr (UInt8.lt_iff_toNat_lt.mpr hl)
        have hasymm : ∀ p q : UInt8, p < q → ¬ q < p := by
          intro p q hp hq
          rw [UInt8.lt_iff_toNat_lt] at hp hq
          omega
        rcases hxy with hl | hl
        · simp [memcmp, h, h', hl, hasymm x y hl]
        · simp [memcmp, h, h', hl, hasymm y x hl]

theorem memcmp_eq_zero (a b : Bytes) (hlen : a.length = b.length) :
    memcmp a b = 0 ↔ a = b := by
  induction a generalizing b with
  | nil =>
    cases b with
    | nil => simp [memcmp]
    | cons y b => simp at hlen
  | cons x a ih =>
    cases b with
    | nil => simp at hlen
    | cons y b =>
      by_cases h : x = y
      · simp [memcmp, h, ih b (by simpa using hlen)]
      · by_cases hl : x < y <;> simp [memcmp, h, hl]

/-- Two different hashes are strictly ordered one way or the other. -/
theorem memcmp_hash_ne (a b : Hash) (h : a ≠ b) :
    (0 < memcmp a.1 b.1 ∧ memcmp b.1 a.1 < 0) ∨ (memcmp a.1 b.1 < 0 ∧ 0 < memcmp b.1 a.1) := by
  have hz : memcmp a.1 b.1 ≠ 0 := by
    intro e
    exact h (Subtype.ext ((memcmp_eq_zero a.1 b.1 (by rw [a.2, b.2])).mp e))
  have hn := memcmp_neg a.1 b.1
  omega

/-! ## Version vectors -/

/-- One counter; both fields are `uint64_t`. The only arithmetic done on them is
the increment of `syncBumpVersion`, which is taken modulo `2 ^ 64` there. -/
structure BepCounter where
  id : Nat
  value : Nat
  deriving DecidableEq, Repr

/-- The used prefix of the fixed counter array. -/
structure BepVector where
  counters : List BepCounter
  bound : counters.length ≤ bepMaxCounters
  deriving DecidableEq, Repr

def BepVector.empty : BepVector := ⟨[], by decide⟩

/-- A vector of one counter. -/
def BepVector.single (id value : Nat) : BepVector := ⟨[⟨id, value⟩], by simp [bepMaxCounters]⟩

/-- No device id occurs twice. -/
def BepVector.Distinct (v : BepVector) : Prop := (v.counters.map BepCounter.id).Nodup

instance (v : BepVector) : Decidable v.Distinct :=
  inferInstanceAs (Decidable (List.Nodup _))

/-! ## Records -/

inductive BepFileType where
  | file
  | directory
  | symlink
  deriving DecidableEq, Repr

inductive FolderMode where
  | sendReceive
  | sendOnly
  | receiveOnly
  deriving DecidableEq, Repr

/-- One index record. `contentHash` folds `content_hash` and its
`has_content_hash` flag into one optional value. -/
structure SyncMeta where
  name : Name
  size : Int
  permissions : Nat
  modifiedS : Int
  modifiedNs : Int
  modifiedBy : Nat
  sequence : Int
  blockSize : Int
  version : BepVector
  contentHash : Option Hash
  type : BepFileType
  deleted : Bool
  invalid : Bool
  deriving DecidableEq, Repr

/-- What `memset(m, 0, sizeof(*m))` leaves. -/
def SyncMeta.zero (name : Name) : SyncMeta where
  name := name
  size := 0
  permissions := 0
  modifiedS := 0
  modifiedNs := 0
  modifiedBy := 0
  sequence := 0
  blockSize := 0
  version := BepVector.empty
  contentHash := none
  type := .file
  deleted := false
  invalid := false

end Amisync

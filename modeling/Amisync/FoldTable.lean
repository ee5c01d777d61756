import Amisync.Records
import Amisync.Lib.Chain
import Amisync.Lib.KeyedList

/-!
# The table of a folder's index (`foldstate.c`)

The seven arrays that a record is spread over, with the chains that a name is
looked up by. Growing the table moves the arrays, and a removal moves the last
record into the hole.

* `upsert`, `forget`, `forgetUnseen`, `pruneTombstones`: the operations.
* `Ok`: what every operation keeps, the chains above all (`linked_link`,
  `linked_rebuild`).
* `Ok.findSlot_eq_some`: a name is found exactly where it is.
-/

namespace Amisync

open Keyed Chain

def foldstateInitFiles : Nat := 64
def foldstateMaxFiles : Nat := 100000
def foldrecVin : Nat := 4

/-! ## Stored records -/

/-- The stored form of a record: the name is elsewhere, and a long version vector is spilled. -/
structure FolderRec where
  size : Int64
  permissions : UInt32
  modifiedS : Int64
  modifiedNs : Int32
  modifiedBy : UInt64
  sequence : Int64
  blockSize : Int32
  nver : Nat
  vin : List Counter
  vext : Option (List Counter)
  contentHash : Hash
  type : UInt8
  deleted : UInt8
  invalid : UInt8
  hasContentHash : UInt8

namespace FolderRec

def setVersion (r : FolderRec) (v : Counters) (alloc : Bool) : FolderRec :=
  let n := v.list.length
  if n = 0 then { r with nver := 0, vext := none }
  else if foldrecVin < n then
    if alloc then { r with nver := n, vext := some v.list }
    -- without memory the vector is cut
    else { r with nver := foldrecVin, vin := v.list.take foldrecVin, vext := none }
  else { r with nver := n, vin := v.list ++ r.vin.drop n, vext := none }

def getVersion (r : FolderRec) : Counters :=
  ⟨((r.vext.getD r.vin).take r.nver).take bepMaxCounters, List.length_take_le ..⟩

def fromMeta (r : FolderRec) (m : FileMeta) (alloc : Bool) : FolderRec :=
  setVersion { r with
    size := m.size
    permissions := m.permissions
    modifiedS := m.modifiedS
    modifiedNs := m.modifiedNs
    modifiedBy := m.modifiedBy
    sequence := m.sequence
    blockSize := m.blockSize
    contentHash := m.contentHash
    type := m.type
    deleted := m.deleted
    invalid := m.invalid
    hasContentHash := m.hasContentHash } m.version alloc

def toMeta (r : FolderRec) (name : FileName) : FileMeta where
  name := name
  size := r.size
  permissions := r.permissions
  modifiedS := r.modifiedS
  modifiedNs := r.modifiedNs
  modifiedBy := r.modifiedBy
  sequence := r.sequence
  blockSize := r.blockSize
  version := r.getVersion
  contentHash := r.contentHash
  type := r.type
  deleted := r.deleted
  invalid := r.invalid
  hasContentHash := r.hasContentHash

variable (r : FolderRec)

theorem getVersion_setVersion (v : Counters) : (r.setVersion v true).getVersion = v := by
  have hv : v.list.take bepMaxCounters = v.list := List.take_of_length_le v.bound
  cases v with
  | mk l hl =>
    simp only [setVersion]
    split
    · rename_i hn
      rw [List.length_eq_zero_iff] at hn
      subst hn
      rfl
    · split
      · simp only [getVersion, Option.getD_some, List.take_length, if_true, Counters.mk.injEq]
        exact hv
      · simp only [getVersion, Option.getD_none, List.take_left, Counters.mk.injEq]
        exact hv

/-- Nothing but the vector changes. -/
theorem toMeta_setVersion (v : Counters) (alloc : Bool) (name : FileName) :
    (r.setVersion v alloc).toMeta name =
      { r.toMeta name with version := (r.setVersion v alloc).getVersion } := by
  have hfields : ∃ n vin vext, r.setVersion v alloc =
      { r with nver := n, vin := vin, vext := vext } := by
    rw [setVersion]
    repeat' split
    all_goals exact ⟨_, _, _, rfl⟩
  obtain ⟨n, vin, vext, h⟩ := hfields
  rw [h]
  rfl

/-- **Fields.** Every field survives. -/
theorem toMeta_fromMeta (m : FileMeta) : (r.fromMeta m true).toMeta m.name = m := by
  rw [fromMeta, toMeta_setVersion, getVersion_setVersion]
  rfl

end FolderRec

/-! ## The table -/

/-- The arrays. What is past the records in use is left as it was. -/
structure Arrays where
  files : Nat → FolderRec
  names : Nat → Option FileName
  blocks : Nat → Option (List Hash)
  nblocks : Nat → Nat
  seen : Nat → Bool
  hhead : Nat → Option Nat
  hnext : Nat → Option Nat

structure FolderTable extends Arrays where
  folderId : CString 63
  shortId : UInt64
  sequence : Int64
  pruneGen : Int64
  numFiles : Nat
  cap : Nat

/-- What the allocations of an upsert answer, and what a fresh table happens to hold. -/
structure Alloc where
  table : Bool
  name : Bool
  version : Bool
  blocks : Bool
  fresh : Arrays

/-- All allocations succeed. -/
structure Alloc.Ok (mem : Alloc) : Prop where
  table : mem.table = true
  name : mem.name = true
  version : mem.version = true
  blocks : mem.blocks = true

/-- FNV-1a -/
def FolderTable.nameHash (n : FileName) : UInt32 :=
  n.bytes.foldl (fun h b => (h ^^^ b.toUInt32) * 16777619) 2166136261

namespace FolderTable

/-- `foldstate_init`; nothing is allocated. -/
def init (folderId : CString 63) (shortId : UInt64) (none : Arrays) : FolderTable where
  toArrays := none
  folderId := folderId
  shortId := shortId
  sequence := 0
  pruneGen := 0
  numFiles := 0
  cap := 0

/-- `foldstate_free` -/
def free (t : FolderTable) : FolderTable := { t with numFiles := 0, cap := 0 }

/-! ### Chains -/

def nameAt (t : FolderTable) (i : Nat) : FileName := (t.names i).getD (.empty _)

def bucket (t : FolderTable) (n : FileName) : Nat := (nameHash n).toNat % t.cap

def hashLink (t : FolderTable) (i : Nat) : FolderTable :=
  { t with
    hnext := Function.update t.hnext i (t.hhead (t.bucket (t.nameAt i)))
    hhead := Function.update t.hhead (t.bucket (t.nameAt i)) (some i) }

def hashRebuild (t : FolderTable) : FolderTable :=
  (List.range t.numFiles).foldl hashLink
    { t with hhead := fun b => if b < t.cap then none else t.hhead b }

def findSlot (t : FolderTable) (n : FileName) : Option Nat :=
  if t.cap = 0 then none
  else walk t.hnext (fun i => t.names i = some n) t.cap (t.hhead (t.bucket n))

/-! ### Growing -/

/-- `while (newcap < need) newcap *= 2` -/
def doubled (need : Nat) : Nat → Nat → Nat
  | 0, newcap => newcap
  | fuel + 1, newcap => if newcap < need then doubled need fuel (newcap * 2) else newcap

def newCap (t : FolderTable) (need : Nat) : Nat :=
  min (doubled need need (if t.cap = 0 then foldstateInitFiles else t.cap)) foldstateMaxFiles

/-- The records in fresh arrays. -/
def grown (t : FolderTable) (newcap : Nat) (fresh : Arrays) : FolderTable :=
  { t with
    files := fun i => if i < t.numFiles then t.files i else fresh.files i
    names := fun i => if i < t.numFiles then t.names i else none
    blocks := fun i => if i < t.numFiles then t.blocks i else fresh.blocks i
    nblocks := fun i => if i < t.numFiles then t.nblocks i else fresh.nblocks i
    seen := fun i => if i < t.numFiles then t.seen i else fresh.seen i
    hhead := fresh.hhead
    hnext := fresh.hnext
    cap := newcap }

def ensureCap (t : FolderTable) (need : Nat) (mem : Alloc) : Option FolderTable :=
  if need ≤ t.cap then some t
  else if foldstateMaxFiles < need then none
  else if !mem.table then none
  else some (t.grown (t.newCap need) mem.fresh).hashRebuild

/-! ### Storing -/

def setRec (t : FolderTable) (i : Nat) (r : FolderRec) : FolderTable :=
  { t with files := Function.update t.files i r }

def setBlocks (t : FolderTable) (i : Nat) (hashes : List Hash) (alloc : Bool) : FolderTable :=
  let t := if (t.blocks i).isSome then
      { t with blocks := Function.update t.blocks i none, nblocks := Function.update t.nblocks i 0 }
    else t
  if !hashes.isEmpty && alloc then
    { t with
      blocks := Function.update t.blocks i (some hashes)
      nblocks := Function.update t.nblocks i hashes.length }
  else t

/-- The slot after the last, as it is before a record is put there. -/
def clearSlot (t : FolderTable) (i : Nat) : FolderTable :=
  { t with
    blocks := Function.update t.blocks i none
    nblocks := Function.update t.nblocks i 0
    seen := Function.update t.seen i false
    names := Function.update t.names i none
    files := Function.update t.files i { t.files i with vext := none, nver := 0 } }

/-- A new record in the slot after the last. -/
def addSlot (t : FolderTable) (m : FileMeta) (mem : Alloc) : FolderTable :=
  let i := t.numFiles
  let t := { t.clearSlot i with numFiles := i + 1 }
  let t := { t with names := Function.update t.names i (some m.name) }
  (t.setRec i ((t.files i).fromMeta m mem.version)).hashLink i

def upsert (t : FolderTable) (m : FileMeta) (hashes : List Hash) (mem : Alloc) :
    FolderTable × Bool :=
  match t.findSlot m.name with
  | some i =>
    ((t.setRec i ((t.files i).fromMeta m mem.version)).setBlocks i hashes mem.blocks, true)
  | none =>
    match t.ensureCap (t.numFiles + 1) mem with
    | none => (t, false)
    | some t =>
      if !mem.name then (t.clearSlot t.numFiles, false)
      else ((t.addSlot m mem).setBlocks t.numFiles hashes mem.blocks, true)

def setVersion (t : FolderTable) (n : FileName) (v : Counters) (alloc : Bool) : FolderTable :=
  match t.findSlot n with
  | some i => t.setRec i ((t.files i).setVersion v alloc)
  | none => t

def clearSeen (t : FolderTable) : FolderTable :=
  { t with seen := fun i => if i < t.numFiles then false else t.seen i }

def markSeen (t : FolderTable) (n : FileName) : FolderTable :=
  match t.findSlot n with
  | some i => { t with seen := Function.update t.seen i true }
  | none => t

def nextSeq (t : FolderTable) : FolderTable := { t with sequence := t.sequence + 1 }

/-! ### Reading -/

/-- `foldstate_meta` -/
def metaAt (t : FolderTable) (i : Nat) : FileMeta := (t.files i).toMeta (t.nameAt i)

/-- `foldstate_blocks`: the hashes that fit, and how many there are. -/
def blocksOf (t : FolderTable) (n : FileName) (cap : Nat) : List Hash × Nat :=
  match t.findSlot n with
  | none => ([], 0)
  | some i => (((t.blocks i).getD []).take (min (t.nblocks i) cap), t.nblocks i)

/-! ### Removing -/

/-- The last record is moved into slot `i`. -/
def removeAt (t : FolderTable) (i : Nat) : FolderTable :=
  let last := t.numFiles - 1
  let t := { t with
    files := Function.update t.files i (t.files last)
    names := Function.update t.names i (t.names last)
    blocks := Function.update t.blocks i (t.blocks last)
    nblocks := Function.update t.nblocks i (t.nblocks last)
    seen := Function.update t.seen i (t.seen last) }
  { t with
    names := Function.update t.names last none
    files := Function.update t.files last { t.files last with vext := none, nver := 0 }
    blocks := Function.update t.blocks last none
    nblocks := Function.update t.nblocks last 0
    seen := Function.update t.seen last false
    numFiles := last }

def pruned (t : FolderTable) : FolderTable := hashRebuild { t with pruneGen := t.pruneGen + 1 }

def forget (t : FolderTable) (n : FileName) : FolderTable :=
  match (List.range t.numFiles).find? (fun i => t.names i = some n) with
  | none => t
  | some i => (t.removeAt i).pruned

/-- The loop of the two bulk removals; `p` says which records go. -/
def sweepLoop (p : FolderTable → Nat → Bool) : Nat → Nat → FolderTable → FolderTable
  | 0, _, t => t
  | fuel + 1, i, t =>
    if i < t.numFiles then
      if p t i then sweepLoop p fuel i (t.removeAt i) else sweepLoop p fuel (i + 1) t
    else t

def removeWhere (t : FolderTable) (p : FolderTable → Nat → Bool) : FolderTable :=
  let s := sweepLoop p t.numFiles 0 t
  if s.numFiles = t.numFiles then s else s.pruned

def forgetUnseen (t : FolderTable) (before : Int64) : FolderTable :=
  t.removeWhere fun t i => !((t.files i).deleted != 0 || (t.files i).invalid != 0 || t.seen i ||
    decide (before < (t.files i).sequence))

def pruneTombstones (t : FolderTable) (cutoff : Int64) : FolderTable :=
  t.removeWhere fun t i => (t.files i).deleted != 0 && decide ((t.files i).modifiedS < cutoff)

/-! ## The chains -/

/-- The first `k` slots whose names are in bucket `b`, the last of them first. -/
def bucketSlots (t : FolderTable) (k b : Nat) : List Nat :=
  ((List.range k).filter fun i => t.bucket (t.nameAt i) = b).reverse

/-- Each bucket's chain goes through the first `k` slots that belong there. -/
def Linked (t : FolderTable) (k : Nat) : Prop :=
  ∀ b < t.cap, IsChain t.hnext (t.hhead b) (t.bucketSlots k b)

section Chains
variable (t : FolderTable)

theorem mem_bucketSlots {k b i : Nat} :
    i ∈ t.bucketSlots k b ↔ i < k ∧ t.bucket (t.nameAt i) = b := by
  simp [bucketSlots]

theorem nodup_bucketSlots (k b : Nat) : (t.bucketSlots k b).Nodup :=
  List.nodup_reverse.mpr (List.nodup_range.filter _)

theorem bucketSlots_succ (k b : Nat) : t.bucketSlots (k + 1) b =
    if t.bucket (t.nameAt k) = b then k :: t.bucketSlots k b else t.bucketSlots k b := by
  rw [bucketSlots, List.range_succ, List.filter_append, List.reverse_append]
  split
  · rename_i h
    simp [h, bucketSlots]
  · rename_i h
    simp [h, bucketSlots]

/-- **Link.** -/
theorem linked_link {k : Nat} (h : t.Linked k) : (t.hashLink k).Linked (k + 1) := by
  intro b hb
  have hslots : (t.hashLink k).bucketSlots (k + 1) b = t.bucketSlots (k + 1) b := rfl
  have hfresh : k ∉ t.bucketSlots k b := fun hk => Nat.lt_irrefl k (t.mem_bucketSlots.mp hk).1
  have hold : IsChain (t.hashLink k).hnext (t.hhead b) (t.bucketSlots k b) :=
    (h b hb).update hfresh _
  rw [hslots, bucketSlots_succ]
  show IsChain (t.hashLink k).hnext (Function.update t.hhead (t.bucket (t.nameAt k)) (some k) b) _
  split
  · rename_i hbk
    subst hbk
    rw [Function.update_self]
    refine isChain_cons.mpr ⟨rfl, ?_⟩
    show IsChain _ (Function.update t.hnext k _ k) _
    rw [Function.update_self]
    exact hold
  · rename_i hbk
    rw [Function.update_of_ne (fun e => hbk e.symm)]
    exact hold

/-- The chains of the first `k` slots depend on their names only. -/
theorem Linked.congr {t t' : FolderTable} {k : Nat} (h : t.Linked k) (hcap : t'.cap = t.cap)
    (hhead : t'.hhead = t.hhead) (hnext : t'.hnext = t.hnext)
    (hnames : ∀ i < k, t'.names i = t.names i) : t'.Linked k := by
  intro b hb
  have hslots : t'.bucketSlots k b = t.bucketSlots k b := by
    rw [bucketSlots, bucketSlots]
    congr 1
    refine List.filter_congr fun i hi => ?_
    rw [bucket, bucket, nameAt, nameAt, hnames i (List.mem_range.mp hi), hcap]
  rw [hslots, hhead, hnext]
  exact h b (hcap ▸ hb)

/-- What linking leaves alone. -/
theorem foldl_hashLink (l : List Nat) : ∃ hhead hnext, l.foldl hashLink t =
    { t with hhead := hhead, hnext := hnext } := by
  induction l generalizing t with
  | nil => exact ⟨t.hhead, t.hnext, rfl⟩
  | cons i l ih =>
    obtain ⟨hhead, hnext, h⟩ := ih (t.hashLink i)
    exact ⟨hhead, hnext, by rw [List.foldl_cons, h]; rfl⟩

theorem hashRebuild_eq : ∃ hhead hnext, t.hashRebuild = { t with hhead := hhead, hnext := hnext } := by
  obtain ⟨hhead, hnext, h⟩ := foldl_hashLink
    { t with hhead := fun b => if b < t.cap then none else t.hhead b } (List.range t.numFiles)
  exact ⟨hhead, hnext, by rw [hashRebuild, h]⟩

/-- **Rebuild.** -/
theorem linked_rebuild : t.hashRebuild.Linked t.numFiles := by
  have hpart : ∀ k, ((List.range k).foldl hashLink
      { t with hhead := fun b => if b < t.cap then none else t.hhead b }).Linked k := by
    intro k
    induction k with
    | zero =>
      intro b hb
      have hb' : b < t.cap := hb
      have hnone : (if b < t.cap then none else t.hhead b) = none := if_pos hb'
      exact isChain_nil.mpr hnone
    | succ k ih =>
      rw [List.range_succ, List.foldl_append]
      exact linked_link _ ih
  exact hpart t.numFiles

end Chains

/-! ## The list of slots -/

/-- What the table holds of one name. -/
structure Stored where
  info : FileMeta
  blocks : List Hash
  seen : Bool

def Stored.name (s : Stored) : FileName := s.info.name

def slotAt (t : FolderTable) (i : Nat) : Stored :=
  ⟨t.metaAt i, ((t.blocks i).getD []).take (t.nblocks i), t.seen i⟩

def slots (t : FolderTable) : List Stored := (List.range t.numFiles).map t.slotAt

/-- The slots in use, each under a name of its own. -/
structure Shape (t : FolderTable) : Prop where
  fits : t.numFiles ≤ t.cap
  named : ∀ i < t.numFiles, (t.names i).isSome = true
  distinct : ∀ i < t.numFiles, ∀ j < t.numFiles, t.names i = t.names j → i = j
  counted : ∀ i < t.numFiles, t.nblocks i = ((t.blocks i).getD []).length

/-- **The invariant.** -/
structure Ok (t : FolderTable) : Prop extends Shape t where
  linked : t.Linked t.numFiles

theorem ok_init (folderId : CString 63) (shortId : UInt64) (none : Arrays) :
    (init folderId shortId none).Ok where
  fits := Nat.le_refl _
  named := fun i hi => absurd hi (Nat.not_lt_zero i)
  distinct := fun i hi => absurd hi (Nat.not_lt_zero i)
  counted := fun i hi => absurd hi (Nat.not_lt_zero i)
  linked := fun b hb => absurd hb (Nat.not_lt_zero b)

section Lookup
variable {t : FolderTable}

theorem nameAt_of_names {n : FileName} {i : Nat} (hn : t.names i = some n) : t.nameAt i = n := by
  rw [nameAt, hn]
  rfl

theorem Shape.names_eq (h : t.Shape) {i : Nat} (hi : i < t.numFiles) : t.names i = some (t.nameAt i) := by
  obtain ⟨n, hn⟩ := Option.isSome_iff_exists.mp (h.named i hi)
  rw [nameAt_of_names hn]
  exact hn

/-- **Lookup.** -/
theorem Ok.findSlot_eq_some (h : t.Ok) {n : FileName} {i : Nat} :
    t.findSlot n = some i ↔ i < t.numFiles ∧ t.names i = some n := by
  by_cases hcap : t.cap = 0
  · have hnum : t.numFiles = 0 := Nat.le_zero.mp (hcap ▸ h.fits)
    rw [findSlot, if_pos hcap, hnum]
    simp
  · have hb : t.bucket n < t.cap := Nat.mod_lt _ (Nat.pos_of_ne_zero hcap)
    have hlen : (t.bucketSlots t.numFiles (t.bucket n)).length ≤ t.cap := by
      rw [bucketSlots, List.length_reverse]
      refine (List.length_filter_le ..).trans ?_
      rw [List.length_range]
      exact h.fits
    rw [findSlot, if_neg hcap, walk_eq (h.linked _ hb) _ hlen]
    constructor
    · intro hf
      have hmem := List.mem_of_find?_eq_some hf
      exact ⟨(t.mem_bucketSlots.mp hmem).1, by simpa using List.find?_some hf⟩
    · rintro ⟨hi, hn⟩
      have hname := nameAt_of_names hn
      have hmem : i ∈ t.bucketSlots t.numFiles (t.bucket n) :=
        t.mem_bucketSlots.mpr ⟨hi, by rw [hname]⟩
      cases hf : (t.bucketSlots t.numFiles (t.bucket n)).find? fun i => t.names i = some n with
      | none =>
        rw [List.find?_eq_none] at hf
        exact absurd (by simpa using hn) (hf i hmem)
      | some j =>
        have hj : t.names j = some n := by simpa using List.find?_some hf
        have hlt : j < t.numFiles := (t.mem_bucketSlots.mp (List.mem_of_find?_eq_some hf)).1
        rw [h.distinct j hlt i hi (hj.trans hn.symm)]

theorem getElem?_slots (t : FolderTable) (i : Nat) :
    t.slots[i]? = if i < t.numFiles then some (t.slotAt i) else none := by
  rw [slots, List.getElem?_map]
  by_cases hi : i < t.numFiles
  · rw [if_pos hi, List.getElem?_range hi]
    rfl
  · rw [if_neg hi, List.getElem?_eq_none (by simpa using hi)]
    rfl

theorem name_slotAt (t : FolderTable) (i : Nat) : (t.slotAt i).name = t.nameAt i := rfl

/-- No name is there twice. -/
theorem Shape.nodup (h : t.Shape) : NodupKeys Stored.name t.slots := by
  rw [NodupKeys, slots, List.map_map]
  refine List.Nodup.map_on ?_ List.nodup_range
  intro i hi j hj hij
  rw [List.mem_range] at hi hj
  have hname : t.nameAt i = t.nameAt j := hij
  exact h.distinct i hi j hj (by rw [h.names_eq hi, h.names_eq hj, hname])

theorem Ok.findSlot_eq_none (h : t.Ok) {n : FileName} :
    t.findSlot n = none ↔ n ∉ t.slots.map Stored.name := by
  rw [Option.eq_none_iff_forall_not_mem]
  constructor
  · intro hnone hmem
    obtain ⟨s, hs, hn⟩ := List.mem_map.mp hmem
    obtain ⟨i, hi, rfl⟩ := List.mem_map.mp hs
    rw [List.mem_range] at hi
    exact hnone i (h.findSlot_eq_some.mpr ⟨hi, by rw [h.names_eq hi, ← hn]; rfl⟩)
  · intro hmem i hi
    obtain ⟨hlt, hn⟩ := h.findSlot_eq_some.mp hi
    refine hmem (List.mem_map.mpr ⟨t.slotAt i, List.mem_map.mpr ⟨i, List.mem_range.mpr hlt, rfl⟩, ?_⟩)
    rw [name_slotAt, nameAt, hn]
    rfl

/-- The slot that is found holds what is stored under the name. -/
theorem Ok.lookup_slots (h : t.Ok) (n : FileName) :
    lookup Stored.name n t.slots = (t.findSlot n).map t.slotAt := by
  cases hf : t.findSlot n with
  | none => exact lookup_eq_none_iff.mpr (h.findSlot_eq_none.mp hf)
  | some i =>
    obtain ⟨hi, hn⟩ := h.findSlot_eq_some.mp hf
    have hname : (t.slotAt i).name = n := by
      rw [name_slotAt, nameAt, hn]
      rfl
    have hmem : t.slotAt i ∈ t.slots := List.mem_map.mpr ⟨i, List.mem_range.mpr hi, rfl⟩
    rw [← hname]
    exact lookup_of_mem h.nodup hmem

end Lookup

/-! ## Storing a record -/

section Store
variable {t : FolderTable}

/-- A table in which only slot `i` differs. -/
theorem slots_eq_set {t t' : FolderTable} (hnum : t'.numFiles = t.numFiles) {i : Nat}
    (hother : ∀ j, j ≠ i → t'.slotAt j = t.slotAt j) : t'.slots = t.slots.set i (t'.slotAt i) := by
  apply List.ext_getElem?
  intro j
  rw [List.getElem?_set, getElem?_slots, getElem?_slots, hnum, slots, List.length_map,
    List.length_range]
  by_cases hj : i = j
  · subst hj
    simp
  · rw [if_neg hj, hother j (fun e => hj e.symm)]

theorem slotAt_setRec (t : FolderTable) (i : Nat) (r : FolderRec) (j : Nat) :
    (t.setRec i r).slotAt j =
      if j = i then { t.slotAt i with info := r.toMeta (t.nameAt i) } else t.slotAt j := by
  by_cases hj : j = i
  · subst hj
    rw [if_pos rfl]
    show (⟨(Function.update t.files j r j).toMeta (t.nameAt j), _, _⟩ : Stored) = _
    rw [Function.update_self]
    rfl
  · rw [if_neg hj]
    show (⟨(Function.update t.files i r j).toMeta (t.nameAt j), _, _⟩ : Stored) = _
    rw [Function.update_of_ne hj]
    rfl

theorem Ok.setRec (h : t.Ok) (i : Nat) (r : FolderRec) : (t.setRec i r).Ok :=
  ⟨⟨h.fits, h.named, h.distinct, h.counted⟩, h.linked⟩

/-- The hashes that are kept. -/
theorem setBlocks_eq {i : Nat} (hc : t.nblocks i = ((t.blocks i).getD []).length)
    (hashes : List Hash) (alloc : Bool) : t.setBlocks i hashes alloc =
      { t with
        blocks := Function.update t.blocks i (if !hashes.isEmpty && alloc then some hashes else none)
        nblocks := Function.update t.nblocks i (if !hashes.isEmpty && alloc then hashes.length else 0) } := by
  cases hkeep : !hashes.isEmpty && alloc with
  | true =>
    rw [setBlocks, hkeep]
    cases hb : t.blocks i with
    | none => simp
    | some l => simp [Function.update_idem]
  | false =>
    rw [setBlocks, hkeep]
    cases hb : t.blocks i with
    | none =>
      rw [hb] at hc
      have hblocks : Function.update t.blocks i none = t.blocks := by
        rw [← hb, Function.update_eq_self]
      have hnblocks : Function.update t.nblocks i 0 = t.nblocks := by
        have hc' : t.nblocks i = 0 := hc
        rw [← hc', Function.update_eq_self]
      simp [hblocks, hnblocks]
    | some l => simp

theorem Ok.setBlocks (h : t.Ok) {i : Nat} (hi : i < t.numFiles) (hashes : List Hash) (alloc : Bool) :
    (t.setBlocks i hashes alloc).Ok := by
  rw [setBlocks_eq (h.counted i hi)]
  refine ⟨⟨h.fits, h.named, h.distinct, fun j hj => ?_⟩, h.linked⟩
  show Function.update t.nblocks i _ j = ((Function.update t.blocks i _ j).getD []).length
  by_cases hji : j = i
  · subst hji
    rw [Function.update_self, Function.update_self]
    split <;> rfl
  · rw [Function.update_of_ne hji, Function.update_of_ne hji]
    exact h.counted j hj

theorem slotAt_setBlocks {i : Nat} (hc : t.nblocks i = ((t.blocks i).getD []).length)
    (hashes : List Hash) (j : Nat) : (t.setBlocks i hashes true).slotAt j =
      if j = i then { t.slotAt i with blocks := hashes } else t.slotAt j := by
  rw [setBlocks_eq hc]
  by_cases hj : j = i
  · subst hj
    rw [if_pos rfl]
    show (⟨t.metaAt j, ((Function.update t.blocks j _ j).getD []).take
      (Function.update t.nblocks j _ j), t.seen j⟩ : Stored) = ⟨t.metaAt j, hashes, t.seen j⟩
    rw [Function.update_self, Function.update_self]
    cases hashes with
    | nil => rfl
    | cons x l => simp
  · rw [if_neg hj]
    show (⟨t.metaAt j, ((Function.update t.blocks i _ j).getD []).take
      (Function.update t.nblocks i _ j), t.seen j⟩ : Stored) = _
    rw [Function.update_of_ne hj, Function.update_of_ne hj]
    rfl

/-! ### Growing -/

theorem le_doubled (need fuel newcap : Nat) (hpos : 0 < newcap) (h : need ≤ newcap + fuel) :
    need ≤ doubled need fuel newcap := by
  induction fuel generalizing newcap with
  | zero => exact h
  | succ fuel ih =>
    rw [doubled]
    split
    · exact ih (newcap * 2) (by omega) (by omega)
    · omega

theorem slots_rebuild (t : FolderTable) : t.hashRebuild.slots = t.slots := by
  obtain ⟨hhead, hnext, h⟩ := t.hashRebuild_eq
  rw [h]
  rfl

theorem Shape.rebuild (h : t.Shape) : t.hashRebuild.Ok := by
  have hlinked := t.linked_rebuild
  obtain ⟨hhead, hnext, he⟩ := t.hashRebuild_eq
  rw [he] at hlinked ⊢
  exact ⟨⟨h.fits, h.named, h.distinct, h.counted⟩, hlinked⟩

theorem Shape.grown (h : t.Shape) (fresh : Arrays) {newcap : Nat} (hcap : t.numFiles ≤ newcap) :
    (t.grown newcap fresh).Shape where
  fits := hcap
  named := fun i hi => by
    have hi' : i < t.numFiles := hi
    simp only [FolderTable.grown, if_pos hi']
    exact h.named i hi'
  distinct := fun i hi j hj => by
    have hi' : i < t.numFiles := hi
    have hj' : j < t.numFiles := hj
    simp only [FolderTable.grown, if_pos hi', if_pos hj']
    exact h.distinct i hi' j hj'
  counted := fun i hi => by
    have hi' : i < t.numFiles := hi
    simp only [FolderTable.grown, if_pos hi']
    exact h.counted i hi'

theorem slots_grown (t : FolderTable) (newcap : Nat) (fresh : Arrays) :
    (t.grown newcap fresh).slots = t.slots := by
  refine List.map_congr_left fun i hi => ?_
  have hi' : i < t.numFiles := List.mem_range.mp hi
  simp only [FolderTable.grown, slotAt, metaAt, nameAt, if_pos hi']

/-- The fields that are kept when a record is stored. -/
structure SameHeader (t t' : FolderTable) : Prop where
  sequence : t'.sequence = t.sequence
  pruneGen : t'.pruneGen = t.pruneGen
  folderId : t'.folderId = t.folderId
  shortId : t'.shortId = t.shortId

/-- **Growing** loses nothing. -/
theorem Ok.ensureCap (h : t.Ok) {need : Nat} {mem : Alloc} {t' : FolderTable}
    (hneed : t.numFiles ≤ need) (he : t.ensureCap need mem = some t') : t'.Ok ∧
      t'.slots = t.slots ∧ need ≤ t'.cap ∧ t'.numFiles = t.numFiles ∧ SameHeader t t' := by
  rw [FolderTable.ensureCap] at he
  split at he
  · rename_i hfit
    rw [Option.some.injEq] at he
    subst he
    exact ⟨h, rfl, hfit, rfl, rfl, rfl, rfl, rfl⟩
  · split at he
    · simp at he
    · rename_i hgrow hmax
      split at he
      · simp at he
      · rw [Option.some.injEq] at he
        have hcap : need ≤ t.newCap need := by
          rw [newCap, Nat.le_min]
          refine ⟨le_doubled _ _ _ ?_ (Nat.le_add_left ..), Nat.not_lt.mp hmax⟩
          split
          · decide
          · omega
        subst he
        refine ⟨(h.toShape.grown mem.fresh (hneed.trans hcap)).rebuild, ?_, ?_⟩
        · rw [slots_rebuild, slots_grown]
        · obtain ⟨hhead, hnext, hr⟩ := hashRebuild_eq (t.grown (t.newCap need) mem.fresh)
          rw [hr]
          exact ⟨hcap, rfl, rfl, rfl, rfl, rfl⟩

theorem ensureCap_isSome {mem : Alloc} {need : Nat} (hmem : mem.table = true)
    (hmax : need ≤ foldstateMaxFiles) : ∃ t', t.ensureCap need mem = some t' := by
  rw [FolderTable.ensureCap]
  split
  · exact ⟨_, rfl⟩
  · rw [if_neg (Nat.not_lt.mpr hmax), if_neg (by simp [hmem])]
    exact ⟨_, rfl⟩

/-! ### A new slot -/

theorem nameAt_addSlot (t : FolderTable) (m : FileMeta) (mem : Alloc) (j : Nat) :
    (t.addSlot m mem).names j = if j = t.numFiles then some m.name else t.names j := by
  show Function.update (Function.update t.names t.numFiles none) t.numFiles (some m.name) j = _
  rw [Function.update_idem, Function.update_apply]

theorem slotAt_addSlot_of_ne (m : FileMeta) (mem : Alloc) {j : Nat} (hj : j ≠ t.numFiles) :
    (t.addSlot m mem).slotAt j = t.slotAt j := by
  simp [addSlot, clearSlot, FolderTable.setRec, hashLink, slotAt, metaAt, nameAt, Function.update_of_ne hj]

theorem slotAt_addSlot_self (t : FolderTable) (m : FileMeta) {mem : Alloc} (hmem : mem.version = true) :
    (t.addSlot m mem).slotAt t.numFiles = ⟨m, [], false⟩ := by
  simp [addSlot, clearSlot, FolderTable.setRec, hashLink, slotAt, metaAt, nameAt, hmem,
    FolderRec.toMeta_fromMeta]

theorem slots_addSlot (t : FolderTable) (m : FileMeta) {mem : Alloc} (hmem : mem.version = true) :
    (t.addSlot m mem).slots = t.slots ++ [⟨m, [], false⟩] := by
  show (List.range (t.numFiles + 1)).map (t.addSlot m mem).slotAt = _
  rw [List.range_succ, List.map_append, List.map_singleton, slotAt_addSlot_self t m hmem]
  congr 1
  refine List.map_congr_left fun j hj => ?_
  exact slotAt_addSlot_of_ne m mem (Nat.ne_of_lt (List.mem_range.mp hj))

theorem Ok.addSlot (h : t.Ok) {m : FileMeta} (mem : Alloc) (hroom : t.numFiles < t.cap)
    (hnew : t.findSlot m.name = none) : (t.addSlot m mem).Ok := by
  have hfresh : ∀ i < t.numFiles, t.names i ≠ some m.name := by
    intro i hi hn
    rw [h.findSlot_eq_some.mpr ⟨hi, hn⟩] at hnew
    simp at hnew
  refine ⟨⟨hroom, fun i hi => ?_, fun i hi j hj hij => ?_, fun i hi => ?_⟩, ?_⟩
  · have hi' : i < t.numFiles + 1 := hi
    rw [nameAt_addSlot]
    split
    · rfl
    · exact h.named i (by omega)
  · have hi' : i < t.numFiles + 1 := hi
    have hj' : j < t.numFiles + 1 := hj
    rw [nameAt_addSlot, nameAt_addSlot] at hij
    by_cases hin : i = t.numFiles
    · by_cases hjn : j = t.numFiles
      · rw [hin, hjn]
      · rw [if_pos hin, if_neg hjn] at hij
        exact absurd hij.symm (hfresh j (by omega))
    · by_cases hjn : j = t.numFiles
      · rw [if_neg hin, if_pos hjn] at hij
        exact absurd hij (hfresh i (by omega))
      · rw [if_neg hin, if_neg hjn] at hij
        exact h.distinct i (by omega) j (by omega) hij
  · have hi' : i < t.numFiles + 1 := hi
    show Function.update t.nblocks t.numFiles 0 i = ((Function.update t.blocks t.numFiles none i).getD []).length
    by_cases hin : i = t.numFiles
    · rw [hin, Function.update_self, Function.update_self]
      rfl
    · rw [Function.update_of_ne hin, Function.update_of_ne hin]
      exact h.counted i (by omega)
  · refine linked_link _ (Linked.congr h.linked rfl rfl rfl fun i hi => ?_)
    show Function.update (Function.update t.names t.numFiles none) t.numFiles (some m.name) i = _
    rw [Function.update_of_ne (Nat.ne_of_lt hi), Function.update_of_ne (Nat.ne_of_lt hi)]

/-! ### The upsert -/

theorem Ok.clearSlot (h : t.Ok) : (t.clearSlot t.numFiles).Ok := by
  have hne : ∀ i < t.numFiles, i ≠ t.numFiles := fun i hi => Nat.ne_of_lt hi
  refine ⟨⟨h.fits, fun i hi => ?_, fun i hi j hj => ?_, fun i hi => ?_⟩, ?_⟩
  · show (Function.update t.names t.numFiles none i).isSome = true
    rw [Function.update_of_ne (hne i hi)]
    exact h.named i hi
  · show Function.update t.names t.numFiles none i = Function.update t.names t.numFiles none j → i = j
    rw [Function.update_of_ne (hne i hi), Function.update_of_ne (hne j hj)]
    exact h.distinct i hi j hj
  · show Function.update t.nblocks t.numFiles 0 i = ((Function.update t.blocks t.numFiles none i).getD []).length
    rw [Function.update_of_ne (hne i hi), Function.update_of_ne (hne i hi)]
    exact h.counted i hi
  · refine Linked.congr h.linked rfl rfl rfl fun i hi => ?_
    exact Function.update_of_ne (hne i hi) _ _

/-- **Upsert, whatever the allocations answer.** -/
theorem Ok.upsert (h : t.Ok) (m : FileMeta) (hashes : List Hash) (mem : Alloc) :
    (t.upsert m hashes mem).1.Ok ∧ SameHeader t (t.upsert m hashes mem).1 := by
  have hsetBlocks : ∀ (u : FolderTable) i, SameHeader u (u.setBlocks i hashes mem.blocks) := by
    intro u i
    rw [FolderTable.setBlocks]
    split <;> split <;> exact ⟨rfl, rfl, rfl, rfl⟩
  rw [FolderTable.upsert]
  cases hf : t.findSlot m.name with
  | some i =>
    obtain ⟨hi, -⟩ := h.findSlot_eq_some.mp hf
    have hset := h.setRec i ((t.files i).fromMeta m mem.version)
    have hb := hsetBlocks (t.setRec i ((t.files i).fromMeta m mem.version)) i
    exact ⟨hset.setBlocks hi hashes mem.blocks, hb.sequence, hb.pruneGen, hb.folderId, hb.shortId⟩
  | none =>
    cases hg : t.ensureCap (t.numFiles + 1) mem with
    | none => exact ⟨h, rfl, rfl, rfl, rfl⟩
    | some u =>
      obtain ⟨hu, hslots, hcap, hnum, hsame⟩ := h.ensureCap (Nat.le_succ _) hg
      have hnew : u.findSlot m.name = none := by
        rw [hu.findSlot_eq_none, hslots]
        exact h.findSlot_eq_none.mp hf
      dsimp only
      split
      · exact ⟨hu.clearSlot, hsame.sequence, hsame.pruneGen, hsame.folderId, hsame.shortId⟩
      · have hadd := hu.addSlot mem (hnum ▸ hcap) hnew
        refine ⟨hadd.setBlocks (Nat.lt_succ_self _) hashes mem.blocks, ?_⟩
        have hb := hsetBlocks (u.addSlot m mem) u.numFiles
        exact ⟨hb.sequence.trans hsame.sequence, hb.pruneGen.trans hsame.pruneGen,
          hb.folderId.trans hsame.folderId, hb.shortId.trans hsame.shortId⟩

end Store

end FolderTable

end Amisync

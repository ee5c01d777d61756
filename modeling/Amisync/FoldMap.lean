import Amisync.FoldTable
import Amisync.Lib.Machine

/-!
# The table as a map from names

What the operations of the table do to what is stored under each name.

* `Content`: a map from names to records, with the folder's counter;
  `Content.step` is what an operation is for.
* `holds_step`, `holds_run`: the table does just that, in any order of
  operations.
-/

namespace Amisync

open Keyed Chain

namespace FolderTable

/-! ## Storing -/

section Store
variable {t : FolderTable}

theorem length_slots (t : FolderTable) : t.slots.length = t.numFiles := by
  rw [slots, List.length_map, List.length_range]

/-- **Upsert.** -/
theorem Ok.slots_upsert (h : t.Ok) (m : FileMeta) (hashes : List Hash) {mem : Alloc} (hmem : mem.Ok)
    (hroom : t.numFiles < foldstateMaxFiles) : (t.upsert m hashes mem).2 = true ∧
      (t.upsert m hashes mem).1.slots = Keyed.upsert Stored.name
        ⟨m, hashes, ((lookup Stored.name m.name t.slots).map Stored.seen).getD false⟩ t.slots := by
  rw [h.lookup_slots, FolderTable.upsert]
  cases hf : t.findSlot m.name with
  | some i =>
    obtain ⟨hi, hn⟩ := h.findSlot_eq_some.mp hf
    have hname : t.nameAt i = m.name := by
      rw [nameAt, hn]
      rfl
    have hi' : t.slots[i]? = some (t.slotAt i) := by rw [getElem?_slots, if_pos hi]
    have hkey : (t.slotAt i).name = (⟨m, hashes, t.seen i⟩ : Stored).name := hname
    refine ⟨rfl, ?_⟩
    -- the record is replaced where it is
    show _ = Keyed.upsert Stored.name ⟨m, hashes, t.seen i⟩ t.slots
    rw [upsert_eq_set h.nodup hi' hkey, hmem.version, hmem.blocks]
    have hc := (h.setRec i ((t.files i).fromMeta m true)).counted i hi
    have hset : ∀ j, ((t.setRec i ((t.files i).fromMeta m true)).setBlocks i hashes true).slotAt j =
        if j = i then ⟨m, hashes, t.seen i⟩ else t.slotAt j := by
      intro j
      rw [slotAt_setBlocks hc, slotAt_setRec, slotAt_setRec, if_pos rfl, hname,
        FolderRec.toMeta_fromMeta]
      split <;> rfl
    have hnum : ((t.setRec i ((t.files i).fromMeta m true)).setBlocks i hashes true).numFiles =
        t.numFiles := by
      rw [setBlocks_eq hc]
      rfl
    show ((t.setRec i ((t.files i).fromMeta m true)).setBlocks i hashes true).slots = _
    rw [slots_eq_set hnum fun j hj => by rw [hset, if_neg hj], hset, if_pos rfl]
  | none =>
    obtain ⟨u, hu⟩ := ensureCap_isSome (t := t) hmem.table (Nat.succ_le_of_lt hroom)
    obtain ⟨hok, hslots, hcap, hnum, -⟩ := h.ensureCap (Nat.le_succ _) hu
    rw [hu]
    simp only [hmem.name, hmem.blocks, Bool.not_true, Bool.false_eq_true, if_false, Option.map_none,
      Option.getD_none, true_and]
    have hnew : m.name ∉ u.slots.map Stored.name := by
      rw [hslots]
      exact h.findSlot_eq_none.mp hf
    have hadd := hok.addSlot (m := m) mem (hnum ▸ hcap) (hok.findSlot_eq_none.mpr hnew)
    have hc := hadd.counted u.numFiles (Nat.lt_succ_self _)
    rw [slots_eq_set (t := u.addSlot m mem) (i := u.numFiles) ?_ fun j hj => by
      rw [slotAt_setBlocks hc, if_neg hj]]
    · rw [slotAt_setBlocks hc, if_pos rfl, slotAt_addSlot_self u m hmem.version,
        slots_addSlot u m hmem.version, ← length_slots u, List.set_append_right _ _ (Nat.le_refl _),
        Nat.sub_self, ← hslots, upsert_of_not_mem hnew]
      rfl
    · rw [setBlocks_eq hc]

/-- A change of the record in one slot, its name kept. -/
theorem Ok.lookup_setSlot (h : t.Ok) {t' : FolderTable} {n : FileName} {i : Nat}
    (hf : t.findSlot n = some i) (hnum : t'.numFiles = t.numFiles) {s : Stored}
    (hslot : ∀ j, t'.slotAt j = if j = i then s else t.slotAt j) (hname : s.name = n) (k : FileName) :
    lookup Stored.name k t'.slots = if k = n then some s else lookup Stored.name k t.slots := by
  obtain ⟨hi, hn⟩ := h.findSlot_eq_some.mp hf
  have hold : (t.slotAt i).name = s.name := by
    rw [hname, name_slotAt, nameAt, hn]
    rfl
  have hi' : t.slots[i]? = some (t.slotAt i) := by rw [getElem?_slots, if_pos hi]
  rw [slots_eq_set hnum fun j hj => by rw [hslot, if_neg hj], hslot, if_pos rfl,
    ← upsert_eq_set h.nodup hi' hold, lookup_upsert, hname]

end Store

/-! ## Removing -/

section Remove
variable {t : FolderTable}

theorem slotAt_removeAt (t : FolderTable) (i : Nat) {j : Nat} (hj : j < t.numFiles - 1) :
    (t.removeAt i).slotAt j = if j = i then t.slotAt (t.numFiles - 1) else t.slotAt j := by
  have hne : j ≠ t.numFiles - 1 := Nat.ne_of_lt hj
  simp only [removeAt, slotAt, metaAt, nameAt, Function.update_of_ne hne]
  by_cases hji : j = i
  · subst hji
    simp only [Function.update_self, if_true]
  · simp only [Function.update_of_ne hji, if_neg hji]

/-- **Removal.** -/
theorem slots_removeAt {i : Nat} (hi : i < t.numFiles) :
    (t.removeAt i).slots = swapRemove i t.slots := by
  apply List.ext_getElem?
  intro j
  have hlast : t.slots.getLast? = some (t.slotAt (t.numFiles - 1)) := by
    rw [List.getLast?_eq_getElem?, length_slots, getElem?_slots, if_pos (by omega)]
  rw [getElem?_swapRemove (by rw [length_slots]; exact hi), length_slots, getElem?_slots]
  show (if j < t.numFiles - 1 then _ else _) = _
  by_cases hj : j < t.numFiles - 1
  · have hj' : j < t.numFiles := by omega
    rw [if_pos hj, if_pos hj, slotAt_removeAt t i hj, hlast, getElem?_slots, if_pos hj']
    split <;> rfl
  · rw [if_neg hj, if_neg hj]

theorem Shape.removeAt (h : t.Shape) {i : Nat} (hi : i < t.numFiles) : (t.removeAt i).Shape := by
  have hne : ∀ j < t.numFiles - 1, j ≠ t.numFiles - 1 := fun j hj => Nat.ne_of_lt hj
  -- the slot whose record is now in slot `j`
  have hfrom : ∀ j < t.numFiles - 1, ∃ k < t.numFiles, (j = i ∧ k = t.numFiles - 1 ∨ j ≠ i ∧ k = j) ∧
      (t.removeAt i).names j = t.names k ∧ (t.removeAt i).nblocks j = t.nblocks k ∧
      (t.removeAt i).blocks j = t.blocks k := by
    intro j hj
    by_cases hji : j = i
    · refine ⟨t.numFiles - 1, by omega, Or.inl ⟨hji, rfl⟩, ?_⟩
      subst hji
      simp only [FolderTable.removeAt, Function.update_of_ne (hne j hj), Function.update_self, and_self]
    · refine ⟨j, by omega, Or.inr ⟨hji, rfl⟩, ?_⟩
      simp only [FolderTable.removeAt, Function.update_of_ne (hne j hj), Function.update_of_ne hji,
        and_self]
  refine ⟨?_, fun j hj => ?_, fun j hj k hk hjk => ?_, fun j hj => ?_⟩
  · exact (Nat.sub_le ..).trans h.fits
  · obtain ⟨k, hk, -, hn, -⟩ := hfrom j hj
    rw [hn]
    exact h.named k hk
  · obtain ⟨j', hj', hcase, hn, -⟩ := hfrom j hj
    obtain ⟨k', hk', hcase', hn', -⟩ := hfrom k hk
    have hj1 : j < t.numFiles - 1 := hj
    have hk1 : k < t.numFiles - 1 := hk
    have := h.distinct j' hj' k' hk' (by rw [← hn, ← hn', hjk])
    omega
  · obtain ⟨k, hk, -, -, hc, hb⟩ := hfrom j hj
    rw [hc, hb]
    exact h.counted k hk

/-- **Loop.** What is removed depends on what the slot holds. -/
theorem Shape.sweepLoop {p : FolderTable → Nat → Bool} {q : Stored → Bool}
    (hp : ∀ u i, p u i = q (u.slotAt i)) (fuel i : Nat) (h : t.Shape) :
    (sweepLoop p fuel i t).Shape ∧ (sweepLoop p fuel i t).slots = sweepAux q fuel i t.slots ∧
      (sweepLoop p fuel i t).sequence = t.sequence ∧ (sweepLoop p fuel i t).numFiles ≤ t.numFiles ∧
      ((sweepLoop p fuel i t).numFiles = t.numFiles → sweepLoop p fuel i t = t) := by
  induction fuel generalizing i t with
  | zero => exact ⟨h, rfl, rfl, Nat.le_refl _, fun _ => rfl⟩
  | succ fuel ih =>
    rw [FolderTable.sweepLoop, sweepAux, getElem?_slots]
    split
    · rename_i hi
      dsimp only
      rw [hp]
      split
      · obtain ⟨hshape, hslots, hseq, hle, -⟩ := ih i (h.removeAt hi)
        have hless : (t.removeAt i).numFiles < t.numFiles :=
          Nat.sub_lt (Nat.lt_of_le_of_lt (Nat.zero_le i) hi) Nat.one_pos
        refine ⟨hshape, ?_, hseq, hle.trans hless.le, fun he => ?_⟩
        · rw [hslots, slots_removeAt hi]
        · omega
      · exact ih (i + 1) h
    · exact ⟨h, rfl, rfl, Nat.le_refl _, fun _ => rfl⟩

theorem Shape.pruned (h : t.Shape) : t.pruned.Ok ∧ t.pruned.slots = t.slots ∧
    t.pruned.sequence = t.sequence := by
  have hshape : ({ t with pruneGen := t.pruneGen + 1 } : FolderTable).Shape :=
    ⟨h.fits, h.named, h.distinct, h.counted⟩
  refine ⟨hshape.rebuild, slots_rebuild _, ?_⟩
  obtain ⟨hhead, hnext, he⟩ := hashRebuild_eq { t with pruneGen := t.pruneGen + 1 }
  rw [FolderTable.pruned, he]

/-- **Bulk removal.** -/
theorem Ok.removeWhere (h : t.Ok) {p : FolderTable → Nat → Bool} {q : Stored → Bool}
    (hp : ∀ u i, p u i = q (u.slotAt i)) : (t.removeWhere p).Ok ∧
      (t.removeWhere p).slots = sweep q t.slots ∧ (t.removeWhere p).sequence = t.sequence := by
  obtain ⟨hshape, hslots, hseq, -, hsame⟩ := h.toShape.sweepLoop hp t.numFiles 0
  rw [sweep, length_slots, ← hslots, FolderTable.removeWhere]
  split
  · rename_i he
    rw [hsame he]
    exact ⟨h, rfl, rfl⟩
  · obtain ⟨hok, hsl, hsq⟩ := hshape.pruned
    exact ⟨hok, hsl, hsq.trans hseq⟩

theorem Ok.forget (h : t.Ok) (n : FileName) : (t.forget n).Ok ∧ (t.forget n).sequence = t.sequence ∧
    ∀ k, lookup Stored.name k (t.forget n).slots =
      if k = n then none else lookup Stored.name k t.slots := by
  rw [FolderTable.forget]
  cases hf : (List.range t.numFiles).find? (fun i => t.names i = some n) with
  | none =>
    refine ⟨h, rfl, fun k => ?_⟩
    show lookup Stored.name k t.slots = _
    split
    · rename_i hk
      subst hk
      refine lookup_eq_none_iff.mpr fun hmem => ?_
      obtain ⟨s, hs, hn⟩ := List.mem_map.mp hmem
      obtain ⟨i, hi, rfl⟩ := List.mem_map.mp hs
      have hname : t.names i = some k := by rw [h.names_eq (List.mem_range.mp hi), ← hn]; rfl
      have hno := List.find?_eq_none.mp hf i hi
      simp [hname] at hno
    · rfl
  | some i =>
    have hi : i < t.numFiles := List.mem_range.mp (List.mem_of_find?_eq_some hf)
    have hn : t.names i = some n := by simpa using List.find?_some hf
    have hi' : t.slots[i]? = some (t.slotAt i) := by rw [getElem?_slots, if_pos hi]
    have hname : (t.slotAt i).name = n := by
      rw [name_slotAt, nameAt, hn]
      rfl
    obtain ⟨hok, hslots, hseq⟩ := (h.toShape.removeAt hi).pruned
    refine ⟨hok, hseq, fun k => ?_⟩
    rw [hslots, slots_removeAt hi, lookup_swapRemove h.nodup hi', hname]

end Remove

/-! ## The map -/

/-- What a folder's index is for: a record for each name, and the counter of the changes. -/
structure Content where
  records : FileName → Option Stored
  sequence : Int64

inductive Op
  | init (folderId : CString 63) (shortId : UInt64) (mem : Arrays)
  | upsert (m : FileMeta) (hashes : List Hash) (mem : Alloc)
  | setVersion (n : FileName) (v : Counters) (alloc : Bool)
  | markSeen (n : FileName)
  | clearSeen
  | forget (n : FileName)
  | forgetUnseen (before : Int64)
  | pruneTombstones (cutoff : Int64)
  | nextSeq

/-- Reading leaves the table as it is, so the readers are no operations here. -/
def step (t : FolderTable) : Op → Option FolderTable
  | .init folderId shortId mem => some (init folderId shortId mem)
  | .upsert m hashes mem => some (t.upsert m hashes mem).1
  | .setVersion n v alloc => some (t.setVersion n v alloc)
  | .markSeen n => some (t.markSeen n)
  | .clearSeen => some t.clearSeen
  | .forget n => some (t.forget n)
  | .forgetUnseen before => some (t.forgetUnseen before)
  | .pruneTombstones cutoff => some (t.pruneTombstones cutoff)
  | .nextSeq => some t.nextSeq

/-- A record that the scan did not find. -/
def Stored.unseen (before : Int64) (s : Stored) : Bool :=
  !(s.info.deleted != 0 || s.info.invalid != 0 || s.seen || decide (before < s.info.sequence))

def Stored.expired (cutoff : Int64) (s : Stored) : Bool :=
  s.info.deleted != 0 && decide (s.info.modifiedS < cutoff)

namespace Content

def empty : Content := ⟨fun _ => none, 0⟩

/-- The record of one name, the others as they are. -/
def set (c : Content) (n : FileName) (s : Option Stored) : Content :=
  { c with records := Function.update c.records n s }

def remove (c : Content) (p : Stored → Bool) : Content :=
  { c with records := fun n => (c.records n).filter fun s => !p s }

def step (c : Content) : Op → Content
  | .init .. => empty
  | .upsert m hashes _ =>
    c.set m.name (some ⟨m, hashes, ((c.records m.name).map Stored.seen).getD false⟩)
  | .setVersion n v _ =>
    c.set n ((c.records n).map fun s => { s with info := { s.info with version := v } })
  | .markSeen n => c.set n ((c.records n).map fun s => { s with seen := true })
  | .clearSeen => { c with records := fun n => (c.records n).map fun s => { s with seen := false } }
  | .forget n => c.set n none
  | .forgetUnseen before => c.remove (Stored.unseen before)
  | .pruneTombstones cutoff => c.remove (Stored.expired cutoff)
  | .nextSeq => { c with sequence := c.sequence + 1 }

end Content

/-- The table is well formed and holds the records of `c`. -/
structure Holds (t : FolderTable) (c : Content) : Prop where
  ok : t.Ok
  lookup : ∀ n, lookup Stored.name n t.slots = c.records n
  sequence : t.sequence = c.sequence

section Refine
variable {t : FolderTable} {c : Content}

theorem holds_init (folderId : CString 63) (shortId : UInt64) (mem : Arrays) :
    (init folderId shortId mem).Holds Content.empty :=
  ⟨ok_init folderId shortId mem, fun _ => rfl, rfl⟩

theorem Holds.upsert (h : t.Holds c) (m : FileMeta) (hashes : List Hash) {mem : Alloc} (hmem : mem.Ok)
    (hroom : t.numFiles < foldstateMaxFiles) :
    (t.upsert m hashes mem).1.Holds (c.step (.upsert m hashes mem)) := by
  obtain ⟨hok, hsame⟩ := h.ok.upsert m hashes mem
  refine ⟨hok, fun n => ?_, hsame.sequence.trans h.sequence⟩
  rw [(h.ok.slots_upsert m hashes hmem hroom).2, lookup_upsert, h.lookup]
  show (if n = m.name then _ else _) = Function.update c.records m.name _ n
  rw [Function.update_apply, h.lookup]

/-- One slot, found by its name, gets a new content under the same name. -/
theorem Holds.setSlot (h : t.Holds c) {t' : FolderTable} {n : FileName} {i : Nat}
    (hf : t.findSlot n = some i) (hok : t'.Ok) (hnum : t'.numFiles = t.numFiles) {s : Stored}
    (hslot : ∀ j, t'.slotAt j = if j = i then s else t.slotAt j) (hname : s.name = n)
    (hseq : t'.sequence = t.sequence) : t'.Holds (c.set n (some s)) := by
  refine ⟨hok, fun k => ?_, hseq.trans h.sequence⟩
  rw [h.ok.lookup_setSlot hf hnum hslot hname, h.lookup]
  show _ = Function.update c.records n (some s) k
  rw [Function.update_apply]

theorem Holds.records_of_findSlot (h : t.Holds c) (n : FileName) :
    c.records n = (t.findSlot n).map t.slotAt := by
  rw [← h.lookup, h.ok.lookup_slots]

/-- Nothing is stored where nothing was. -/
theorem Holds.set_none (h : t.Holds c) {n : FileName} (hf : t.findSlot n = none) (f : Stored → Stored) :
    t.Holds (c.set n ((c.records n).map f)) := by
  have hnone : c.records n = none := by rw [h.records_of_findSlot, hf]; rfl
  have hself : c.set n ((c.records n).map f) = c := by
    rw [Content.set, hnone, Option.map_none, ← hnone, Function.update_eq_self]
  rw [hself]
  exact h

theorem Holds.setVersion (h : t.Holds c) (n : FileName) (v : Counters) :
    (t.setVersion n v true).Holds (c.step (.setVersion n v true)) := by
  show Holds _ (c.set n _)
  rw [FolderTable.setVersion]
  cases hf : t.findSlot n with
  | none => exact h.set_none hf _
  | some i =>
    obtain ⟨hi, hn⟩ := h.ok.findSlot_eq_some.mp hf
    have hname := nameAt_of_names hn
    rw [h.records_of_findSlot, hf, Option.map_some, Option.map_some]
    refine h.setSlot hf (h.ok.setRec i _) rfl (fun j => ?_) hname rfl
    rw [slotAt_setRec, FolderRec.toMeta_setVersion, FolderRec.getVersion_setVersion]
    rfl

theorem Holds.markSeen (h : t.Holds c) (n : FileName) :
    (t.markSeen n).Holds (c.step (.markSeen n)) := by
  show Holds _ (c.set n _)
  rw [FolderTable.markSeen]
  cases hf : t.findSlot n with
  | none => exact h.set_none hf _
  | some i =>
    obtain ⟨hi, hn⟩ := h.ok.findSlot_eq_some.mp hf
    have hname := nameAt_of_names hn
    rw [h.records_of_findSlot, hf, Option.map_some, Option.map_some]
    have hok : ({ t with seen := Function.update t.seen i true } : FolderTable).Ok :=
      ⟨⟨h.ok.fits, h.ok.named, h.ok.distinct, h.ok.counted⟩, h.ok.linked⟩
    refine h.setSlot (s := { t.slotAt i with seen := true }) hf hok rfl (fun j => ?_) hname rfl
    show (⟨t.metaAt j, _, Function.update t.seen i true j⟩ : Stored) = _
    rw [Function.update_apply]
    split
    · rename_i hj
      rw [hj]
      rfl
    · rfl

theorem Holds.clearSeen (h : t.Holds c) : t.clearSeen.Holds (c.step .clearSeen) := by
  have hok : t.clearSeen.Ok :=
    ⟨⟨h.ok.fits, h.ok.named, h.ok.distinct, h.ok.counted⟩, h.ok.linked⟩
  refine ⟨hok, fun n => ?_, h.sequence⟩
  have hfind : t.clearSeen.findSlot n = t.findSlot n := rfl
  show _ = (c.records n).map _
  rw [hok.lookup_slots, h.records_of_findSlot, hfind, Option.map_map]
  cases hf : t.findSlot n with
  | none => rfl
  | some i =>
    obtain ⟨hi, -⟩ := h.ok.findSlot_eq_some.mp hf
    show some (⟨t.metaAt i, _, if i < t.numFiles then false else t.seen i⟩ : Stored) = _
    rw [if_pos hi]
    rfl

theorem Holds.forget (h : t.Holds c) (n : FileName) : (t.forget n).Holds (c.step (.forget n)) := by
  obtain ⟨hok, hseq, hlookup⟩ := h.ok.forget n
  refine ⟨hok, fun k => ?_, hseq.trans h.sequence⟩
  rw [hlookup, h.lookup]
  show _ = Function.update c.records n none k
  rw [Function.update_apply]

theorem Holds.removeWhere (h : t.Holds c) {p : FolderTable → Nat → Bool} {q : Stored → Bool}
    (hp : ∀ u i, p u i = q (u.slotAt i)) : (t.removeWhere p).Holds (c.remove q) := by
  obtain ⟨hok, hslots, hseq⟩ := h.ok.removeWhere hp
  refine ⟨hok, fun n => ?_, hseq.trans h.sequence⟩
  rw [hslots, lookup_sweep h.ok.nodup, h.lookup]
  rfl

/-- The allocations of an operation succeed, and there is room for one more record. -/
def Granted (t : FolderTable) : Op → Prop
  | .upsert _ _ mem => mem.Ok ∧ t.numFiles < foldstateMaxFiles
  | .setVersion _ _ alloc => alloc = true
  | _ => True

/-- **Step.** -/
theorem holds_step {t' : FolderTable} (h : t.Holds c) {op : Op} (hg : t.Granted op)
    (hs : t.step op = some t') : t'.Holds (c.step op) := by
  cases op with
  | init folderId shortId mem => exact Option.some.inj hs ▸ holds_init folderId shortId mem
  | upsert m hashes mem => exact Option.some.inj hs ▸ h.upsert m hashes hg.1 hg.2
  | setVersion n v alloc =>
    have halloc : alloc = true := hg
    subst halloc
    exact Option.some.inj hs ▸ h.setVersion n v
  | markSeen n => exact Option.some.inj hs ▸ h.markSeen n
  | clearSeen => exact Option.some.inj hs ▸ h.clearSeen
  | forget n => exact Option.some.inj hs ▸ h.forget n
  | forgetUnseen before =>
    exact Option.some.inj hs ▸ h.removeWhere (q := Stored.unseen before) fun _ _ => rfl
  | pruneTombstones cutoff =>
    exact Option.some.inj hs ▸ h.removeWhere (q := Stored.expired cutoff) fun _ _ => rfl
  | nextSeq =>
    refine Option.some.inj hs ▸ ⟨⟨⟨h.ok.fits, h.ok.named, h.ok.distinct, h.ok.counted⟩, h.ok.linked⟩,
      h.lookup, ?_⟩
    show t.sequence + 1 = c.sequence + 1
    rw [h.sequence]

/-- **Run.** -/
theorem holds_run (h : t.Holds c) {ops : List Op} (hg : Machine.Along step Granted t ops)
    {t' : FolderTable} (hr : Machine.run step t ops = some t') :
    t'.Holds (ops.foldl Content.step c) := by
  induction ops generalizing t c with
  | nil => exact Option.some.inj hr ▸ h
  | cons op ops ih =>
    obtain ⟨u, hu, hr⟩ := Machine.run_cons_eq_some.mp hr
    exact ih (holds_step h hg.1 hu) (hg.2 u hu) hr

theorem Holds.blocksOf (h : t.Holds c) (n : FileName) (cap : Nat) : t.blocksOf n cap =
    ((((c.records n).map Stored.blocks).getD []).take cap,
      (((c.records n).map Stored.blocks).getD []).length) := by
  rw [h.records_of_findSlot, FolderTable.blocksOf]
  cases hf : t.findSlot n with
  | none => simp
  | some i =>
    obtain ⟨hi, -⟩ := h.ok.findSlot_eq_some.mp hf
    have hc := h.ok.counted i hi
    simp only [Option.map_some, Option.getD_some, slotAt, hc, List.take_length]
    rw [Nat.min_comm, ← List.take_take, List.take_length]

/-- The chains partition the slots in use by the hashes of their names. -/
structure Chained (t : FolderTable) : Prop where
  home : ∀ i < t.numFiles, t.bucket (t.nameAt i) < t.cap
  chain : ∀ b < t.cap, ∃ l, IsChain t.hnext (t.hhead b) l ∧ l.Nodup ∧
    ∀ i, i ∈ l ↔ i < t.numFiles ∧ t.bucket (t.nameAt i) = b

theorem Ok.chained (h : t.Ok) : t.Chained where
  home := fun i hi => Nat.mod_lt _ (Nat.lt_of_le_of_lt (Nat.zero_le i) (Nat.lt_of_lt_of_le hi h.fits))
  chain := fun b hb => ⟨_, h.linked b hb, t.nodup_bucketSlots _ b, fun _ => t.mem_bucketSlots⟩

/-- **The table refines the map.** -/
theorem table_is_map (folderId : CString 63) (shortId : UInt64) (mem : Arrays) (ops : List Op)
    (hg : Machine.Along step Granted (init folderId shortId mem) ops) {t : FolderTable}
    (hr : Machine.run step (init folderId shortId mem) ops = some t) :
    (∀ i < t.numFiles, (t.names i).isSome) ∧
    (∀ i < t.numFiles, ∀ j < t.numFiles, t.names i = t.names j → i = j) ∧
    t.Chained ∧ t.sequence = (ops.foldl Content.step Content.empty).sequence ∧
    ∀ n, let s := (ops.foldl Content.step Content.empty).records n
      (t.findSlot n).map t.metaAt = s.map Stored.info ∧
      (t.findSlot n).map t.seen = s.map Stored.seen ∧
      ∀ cap, t.blocksOf n cap =
        (((s.map Stored.blocks).getD []).take cap, ((s.map Stored.blocks).getD []).length) := by
  have h := holds_run (holds_init folderId shortId mem) hg hr
  refine ⟨h.ok.named, h.ok.distinct, h.ok.chained, h.sequence, fun n => ⟨?_, ?_, h.blocksOf n⟩⟩
  · rw [h.records_of_findSlot, Option.map_map]
    rfl
  · rw [h.records_of_findSlot, Option.map_map]
    rfl

def sampleArrays : Arrays where
  files := fun _ => ⟨0, 0, 0, 0, 0, 0, 0, 0, [], none, zeroHash, 0, 0, 0, 0⟩
  names := fun _ => none
  blocks := fun _ => none
  nblocks := fun _ => 0
  seen := fun _ => false
  hhead := fun _ => none
  hnext := fun _ => none

def sampleAlloc : Alloc := ⟨true, true, true, true, sampleArrays⟩

theorem sampleAlloc_ok : sampleAlloc.Ok := ⟨rfl, rfl, rfl, rfl⟩

/-- A record is stored, found, and forgotten. -/
theorem table_forgets :
    let t := ((init (.empty _) 7 sampleArrays).upsert .zero [zeroHash] sampleAlloc).1
    (t.findSlot (.empty _)).map t.metaAt = some .zero ∧
      ((t.forget (.empty _)).findSlot (.empty _)).map (t.forget (.empty _)).metaAt = none := by
  have hroom : (init (.empty _) 7 sampleArrays).numFiles < foldstateMaxFiles := by decide
  have hstore := table_is_map (.empty _) 7 sampleArrays [.upsert .zero [zeroHash] sampleAlloc]
    ⟨⟨sampleAlloc_ok, hroom⟩, fun _ _ => trivial⟩ rfl
  have hforget := table_is_map (.empty _) 7 sampleArrays
    [.upsert .zero [zeroHash] sampleAlloc, .forget (.empty _)]
    ⟨⟨sampleAlloc_ok, hroom⟩, fun _ _ => ⟨trivial, fun _ _ => trivial⟩⟩ rfl
  exact ⟨(hstore.2.2.2.2 (.empty _)).1, (hforget.2.2.2.2 (.empty _)).1⟩

end Refine

end FolderTable

end Amisync

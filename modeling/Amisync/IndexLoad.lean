import Amisync.IndexStore

/-!
# Loading the index

What `index_store_decode` makes of a stream of fields.

* `decodeVector_fields`, `runFields_record`: a version vector and a record as
  they were written.
* `lookup_reloaded`: the records come back slot by slot.
* `indexStore_round_trip`: the whole index does.
-/

namespace Amisync

open Pbuf Keyed

/-! ## Version vectors -/

theorem decodeCounter_fields (c : Counter) :
    decodeCounter ((counterFields c).flatMap Field.bytes) = c := by
  rw [decodeCounter, readFields_bytes _ _ (fun f hf => ?_) (Nat.le_refl _)]
  · rfl
  · simp only [counterFields, List.mem_cons, List.not_mem_nil, or_false] at hf
    rcases hf with rfl | rfl <;> trivial

theorem Counters.push_eq (v : Counters) (c : Counter) (h : v.list.length < bepMaxCounters) :
    (v.push c).list = v.list ++ [c] := by
  rw [Counters.push, dif_pos h]

/-- Counters that are pushed one by one. -/
theorem runFields_counters {f : Counters → UInt32 → Value → Counters}
    (hpush : ∀ v b, f v 1 (.data b) = v.push (decodeCounter b)) (l : List Counter) (acc : Counters)
    (hlen : acc.list.length + l.length ≤ bepMaxCounters) :
    (runFields (fun v _ _ => some v) f acc
      (l.map fun c => .data 1 ((counterFields c).flatMap Field.bytes))).1.list = acc.list ++ l := by
  induction l generalizing acc with
  | nil => exact (List.append_nil _).symm
  | cons c l ih =>
    rw [List.length_cons] at hlen
    have hlist := acc.push_eq c (by omega)
    have hroom : (acc.push c).list.length + l.length ≤ bepMaxCounters := by
      rw [hlist, List.length_append, List.length_singleton]
      omega
    have hstep : f acc 1 (.data ((counterFields c).flatMap Field.bytes)) = acc.push c := by
      rw [hpush, decodeCounter_fields]
    rw [List.append_cons, ← hlist, ← ih (acc.push c) hroom, ← hstep]
    rfl

/-- **Version vectors.** -/
theorem decodeVector_fields (v : Counters) :
    decodeVector ((vectorFields v).flatMap Field.bytes) = v := by
  have hsized : ∀ f ∈ vectorFields v, f.Sized := by
    intro f hf
    obtain ⟨c, -, rfl⟩ := List.mem_map.mp hf
    exact Nat.lt_of_le_of_lt (length_counterFields c) (by decide)
  have hlist : (decodeVector ((vectorFields v).flatMap Field.bytes)).list = v.list := by
    rw [decodeVector, readFields_bytes _ _ hsized (Nat.le_refl _)]
    exact runFields_counters (fun _ _ => rfl) v.list Counters.empty (by simpa [Counters.empty] using v.bound)
  cases v with
  | mk l hl =>
    cases hd : decodeVector ((vectorFields ⟨l, hl⟩).flatMap Field.bytes) with
    | mk l' hl' =>
      rw [hd] at hlist
      have : l' = l := hlist
      subst this
      rfl

/-! ## Records -/

theorem setWidth_signExtend (x : BitVec 32) : (x.signExtend 64).setWidth 32 = x := by
  apply BitVec.eq_of_getLsbD_eq
  intro i hi
  have hi' : i < 64 := by omega
  rw [BitVec.getLsbD_setWidth, BitVec.getLsbD_signExtend, if_pos hi, decide_eq_true hi,
    decide_eq_true hi', Bool.true_and, Bool.true_and]

theorem toInt32_signExtended (x : Int32) : x.toInt64.toUInt64.toUInt32.toInt32 = x :=
  Int32.toBitVec_inj.mp (setWidth_signExtend x.toBitVec)

namespace Decoder

variable {mem : Nat → Alloc} {s : Decoder}

/-- A field of a record other than its name. -/
def Plain (f : Field) : Prop := fName < f.number ∧ expectedWt f.number = some f.wiretype

theorem start_plain (hs : s.headerOk = true) {f : Field} (hf : Plain f) :
    s.start mem f.number f.wiretype = some s := by
  have hlt : ¬ f.number < fName := UInt32.not_lt.mpr (UInt32.le_of_lt hf.1)
  have hne : ¬ f.number = fName := fun e => UInt32.lt_irrefl _ (e ▸ hf.1)
  have hself : ({ s with headerOk := true } : Decoder) = s := by rw [← hs]
  rw [start, hf.2, if_neg (by simp), if_neg hlt, if_neg (by simp [hs]), if_neg hne, hself]

/-- What a value never changes. -/
theorem store_frame (s : Decoder) (f : UInt32) (v : Value) : (s.store f v).table = s.table ∧
    (s.store f v).headerOk = s.headerOk ∧ (s.store f v).inRecord = s.inRecord := by
  cases v with
  | num v =>
    simp only [store, storeNum, apply_ite Decoder.table, apply_ite Decoder.headerOk,
      apply_ite Decoder.inRecord, ite_self, and_self]
  | data b =>
    simp only [store, storeData, apply_ite Decoder.table, apply_ite Decoder.headerOk,
      apply_ite Decoder.inRecord, apply_dite Decoder.table, apply_dite Decoder.headerOk,
      apply_dite Decoder.inRecord, ite_self, dite_eq_ite, and_self]
  | fixed => exact ⟨rfl, rfl, rfl⟩

/-- What fields of a record make of it. -/
def assign (s : Decoder) (l : List Field) : Decoder :=
  l.foldl (fun s f => s.store f.number f.value) s

theorem assign_append (s : Decoder) (l₁ l₂ : List Field) :
    s.assign (l₁ ++ l₂) = (s.assign l₁).assign l₂ :=
  List.foldl_append

theorem runFields_assign {l : List Field}
    (hl : ∀ f ∈ l, ∀ u : Decoder, u.headerOk = s.headerOk → u.start mem f.number f.wiretype = some u)
    (rest : List Field) : runFields (start mem) store s (l ++ rest) =
      runFields (start mem) store (s.assign l) rest := by
  induction l generalizing s with
  | nil => rfl
  | cons f l ih =>
    rw [List.cons_append, runFields, hl f List.mem_cons_self s rfl]
    refine ih fun g hg u hu => hl g (List.mem_cons_of_mem _ hg) u ?_
    rw [hu, (store_frame ..).2.1]

theorem runFields_plain {l : List Field} (hl : ∀ f ∈ l, Plain f) (hs : s.headerOk = true)
    (rest : List Field) : runFields (start mem) store s (l ++ rest) =
      runFields (start mem) store (s.assign l) rest :=
  runFields_assign (fun f hf _ hu => start_plain (hu.trans hs) (hl f hf)) rest

/-- A field of the header. -/
theorem start_header {f : UInt32} {w : UInt64} (hf : f < fName) (hw : expectedWt f = some w) :
    s.start mem f w = some s := by
  rw [start, hw, if_neg (by simp), if_pos hf]

/-- The record `m` is being assembled, and the one before it is in the table. -/
def load (mem : Nat → Alloc) (s : Decoder) (m : FileMeta) (hashes : List Hash) : Decoder :=
  { s.finish mem with headerOk := true, cur := m, blocks := hashes, inRecord := true }

/-- A record as the file keeps it: the flags are 0 or 1, and an absent hash is zero. -/
def normal (m : FileMeta) : FileMeta :=
  { m with
    deleted := flag m.deleted
    invalid := flag m.invalid
    hasContentHash := flag m.hasContentHash
    contentHash := if m.hasContentHash ≠ 0 then m.contentHash else zeroHash }

theorem normal_eq {m : FileMeta} (hm : m.Flags) (hh : m.hasContentHash = 0 → m.contentHash = zeroHash) :
    normal m = m := by
  have hhash : (if m.hasContentHash ≠ 0 then m.contentHash else zeroHash) = m.contentHash := by
    split
    · rfl
    · rename_i h
      exact (hh (by simpa using h)).symm
  rw [normal, hhash, flag_eq hm.deleted, flag_eq hm.invalid, flag_eq hm.hasContentHash]

theorem assign_optional {p : Prop} [Decidable p] (s : Decoder) (f : Field) :
    s.assign (optional p f) = if p then s.store f.number f.value else s := by
  rw [optional]
  split <;> rfl

theorem plain_num {f : UInt32} (v : UInt64) (hf : fName < f) (hw : expectedWt f = some wtVarint) :
    Plain (.num f v) := ⟨hf, hw⟩

theorem plain_data {f : UInt32} (b : Bytes) (hf : fName < f) (hw : expectedWt f = some wtLen) :
    Plain (.data f b) := ⟨hf, hw⟩

theorem plain_recordBody (m : FileMeta) (hashes : Option (List Hash)) :
    ∀ f ∈ recordBody m hashes, Plain f := by
  have hopt : ∀ {p : Prop} [Decidable p] {f g : Field}, f ∈ optional p g → f = g := by
    intro p _ f g hf
    rw [optional] at hf
    split at hf
    · exact List.mem_singleton.mp hf
    · simp at hf
  intro f hf
  simp only [recordBody, List.mem_append, List.mem_cons, List.not_mem_nil, or_false, List.mem_map] at hf
  rcases hf with (((((rfl | rfl | rfl | rfl | rfl) | hf) | (rfl | rfl)) | ⟨l, -, rfl⟩) | (rfl | rfl | rfl)) | hf
  · exact plain_num _ (by decide) (by decide)
  · exact plain_num _ (by decide) (by decide)
  · exact plain_num _ (by decide) (by decide)
  · exact plain_num _ (by decide) (by decide)
  · exact plain_num _ (by decide) (by decide)
  · exact hopt hf ▸ plain_data _ (by decide) (by decide)
  · exact plain_data _ (by decide) (by decide)
  · exact plain_num _ (by decide) (by decide)
  · exact plain_data _ (by decide) (by decide)
  · exact plain_num _ (by decide) (by decide)
  · exact plain_num _ (by decide) (by decide)
  · exact plain_num _ (by decide) (by decide)
  · exact hopt hf ▸ plain_num _ (by decide) (by decide)

theorem start_name (hs : s.headerOk = true ∨ s.headerMatches = true) : s.start mem fName wtLen =
    some (s.load mem .zero []) := by
  have hchecked : ¬ (!s.headerOk && !s.headerMatches) = true := by
    rcases hs with h | h <;> simp [h]
  rw [start, if_neg (by decide), if_neg (by decide), if_neg hchecked, if_pos rfl]
  rfl

theorem flag_toUInt8 (x : UInt8) : (if x = 0 then (0 : UInt64) else 1).toUInt8 = flag x := by
  rw [flag]
  by_cases h : x = 0
  · simp [h]
  · simp [h]

/-! The fields of a record in the order in which they are written. -/

section Fields
variable (u : Decoder)

theorem assign_stat (a b c d e : UInt64) : u.assign [.num fType a, .num fSize b, .num fModifiedS c,
    .num fModifiedNs d, .num fDeleted e] = { u with cur := { u.cur with
      type := a.toUInt8, size := b.toInt64, modifiedS := c.toInt64,
      modifiedNs := d.toUInt32.toInt32, deleted := e.toUInt8 } } := by
  simp [assign, Field.number, Field.value, store, storeNum, fMagic, fFormat, fShortId, fHighSeq, fEnd,
    fType, fSize, fModifiedS, fModifiedNs, fDeleted]

theorem assign_contentHash (has : UInt8) (c : Hash)
    (hu : u.cur.contentHash = zeroHash ∧ u.cur.hasContentHash = 0) :
    u.assign (optional (has ≠ 0) (.data fContentHash c.1)) =
      { u with cur := { u.cur with
        contentHash := if has ≠ 0 then c else zeroHash, hasContentHash := flag has } } := by
  rw [assign_optional, flag]
  split
  · rename_i h
    simp [Field.number, Field.value, store, storeData, fFolderId, fName, fContentHash, c.2]
  · rw [← hu.1, ← hu.2]

theorem assign_version (v : Counters) (q : UInt64) :
    u.assign [.data fVersion ((vectorFields v).flatMap Field.bytes), .num fSequence q] =
      { u with cur := { u.cur with version := v, sequence := q.toInt64 } } := by
  simp [assign, Field.number, Field.value, store, storeNum, storeData, decodeVector_fields, fMagic, fFormat,
    fShortId, fHighSeq, fEnd, fType, fSize, fModifiedS, fModifiedNs, fDeleted, fFolderId, fName,
    fContentHash, fVersion, fSequence]

theorem assign_hashes (hashes : Option (List Hash)) (hu : u.blocks = []) :
    u.assign (hashes.toList.map fun l => .data fBlockHashes (l.flatMap Subtype.val)) =
      { u with blocks := hashes.getD [] } := by
  cases hashes with
  | none =>
    rw [Option.getD_none, ← hu]
    rfl
  | some l =>
    show ({ u with blocks := hashesOf (l.flatMap Subtype.val) } : Decoder) = _
    rw [hashesOf_flatMap]
    rfl

theorem assign_mode (a b c : UInt64) : u.assign [.num fPermissions a, .num fBlockSize b, .num fInvalid c] =
    { u with cur := { u.cur with
      permissions := a.toUInt32, blockSize := b.toUInt32.toInt32, invalid := c.toUInt8 } } := by
  simp [assign, Field.number, Field.value, store, storeNum, fMagic, fFormat, fShortId, fHighSeq, fEnd,
    fType, fSize, fModifiedS, fModifiedNs, fDeleted, fSequence, fPermissions, fBlockSize, fInvalid]

theorem assign_modifiedBy (v : UInt64) (hu : u.cur.modifiedBy = 0) :
    u.assign (optional (v ≠ 0) (.num fModifiedBy v)) =
      { u with cur := { u.cur with modifiedBy := v } } := by
  rw [assign_optional]
  split
  · simp [Field.number, Field.value, store, storeNum, fMagic, fFormat, fShortId, fHighSeq, fEnd, fType,
      fSize, fModifiedS, fModifiedNs, fDeleted, fSequence, fPermissions, fBlockSize, fInvalid, fModifiedBy]
  · rename_i h
    have hzero : v = 0 := by simpa using h
    rw [hzero, ← hu]

end Fields

/-- Every field of a record comes back. -/
theorem assign_recordBody (m : FileMeta) (hashes : Option (List Hash)) :
    ({ s with cur := { FileMeta.zero with name := m.name }, blocks := [] } : Decoder).assign
      (recordBody m hashes) = { s with cur := normal m, blocks := hashes.getD [] } := by
  rw [recordBody, assign_append, assign_append, assign_append, assign_append, assign_append, assign_stat,
    assign_contentHash _ _ _ ⟨rfl, rfl⟩, assign_version, assign_hashes _ _ rfl, assign_mode,
    assign_modifiedBy _ _ rfl]
  simp [toInt32_signExtended, flag_toUInt8, normal]

/-- **A record.** -/
theorem runFields_record (hs : s.headerOk = true ∨ s.headerMatches = true) (m : FileMeta)
    (hashes : Option (List Hash)) (rest : List Field) :
    runFields (start mem) store s (recordFields m hashes ++ rest) =
      runFields (start mem) store (s.load mem (normal m) (hashes.getD [])) rest := by
  rw [recordFields, List.cons_append, runFields]
  have hstart : s.start mem (Field.data fName m.name.bytes).number (Field.data fName m.name.bytes).wiretype =
      some (s.load mem .zero []) := start_name hs
  rw [hstart]
  show runFields (start mem) store ((s.load mem .zero []).store fName (.data m.name.bytes)) _ = _
  have hname : (s.load mem .zero []).store fName (.data m.name.bytes) =
      { s.load mem .zero [] with cur := { FileMeta.zero with name := m.name }, blocks := [] } := by
    show ({ s.load mem .zero [] with cur := { FileMeta.zero with name := .ofBytes _ m.name.bytes } } : Decoder) = _
    rw [CString.ofBytes_bytes]
    rfl
  rw [hname, runFields_plain (plain_recordBody m hashes) rfl, assign_recordBody]
  rfl

theorem headerOk_load (s : Decoder) (m : FileMeta) (hashes : List Hash) :
    (s.load mem m hashes).headerOk = true := rfl

/-- **Records.** -/
theorem runFields_records {α : Type*} (info : α → FileMeta) (hashes : α → Option (List Hash)) (l : List α)
    (hs : s.headerOk = true ∨ s.headerMatches = true) (rest : List Field) :
    runFields (start mem) store s ((l.flatMap fun a => recordFields (info a) (hashes a)) ++ rest) =
      runFields (start mem) store
        (l.foldl (fun s a => s.load mem (normal (info a)) ((hashes a).getD [])) s) rest := by
  induction l generalizing s with
  | nil => rfl
  | cons a l ih =>
    rw [List.flatMap_cons, List.append_assoc, runFields_record hs]
    exact ih (Or.inl (headerOk_load ..))

end Decoder

namespace FolderTable

/-- What is stored, as it is after a restart. -/
def Stored.reloaded (s : Stored) : Stored := ⟨Decoder.normal s.info, s.blocks, false⟩

theorem getD_blocksAt (t : FolderTable) (i : Nat) : (t.blocksAt i).getD [] = (t.slotAt i).blocks := by
  show _ = ((t.blocks i).getD []).take (t.nblocks i)
  rw [blocksAt]
  split
  · rfl
  · rename_i h
    cases hb : t.blocks i with
    | none => simp
    | some l =>
      have hz : t.nblocks i = 0 := by simpa [hb] using h
      simp [hz]

/-- The records in `l` have come back, and nothing else. -/
structure Loading (t u : FolderTable) (l : List Stored) : Prop where
  ok : u.Ok
  slots : u.slots = l.map Stored.reloaded
  folderId : u.folderId = t.folderId
  shortId : u.shortId = t.shortId

section Load
variable {t : FolderTable} {mem : Nat → Alloc} {s : Decoder} {l : List Stored}

theorem Loading.upsert {u : FolderTable} (h : Loading t u l) (x : Stored) {a : Alloc} (ha : a.Ok)
    (hroom : l.length < foldstateMaxFiles) (hnew : x.name ∉ l.map Stored.name) :
    Loading t (u.upsert (Decoder.normal x.info) x.blocks a).1 (l ++ [x]) := by
  have hkeys : (l.map Stored.reloaded).map Stored.name = l.map Stored.name := by
    rw [List.map_map]
    rfl
  have hnum : u.numFiles < foldstateMaxFiles := by
    rw [← length_slots, h.slots, List.length_map]
    exact hroom
  have hnone : lookup Stored.name (Decoder.normal x.info).name (l.map Stored.reloaded) = none :=
    lookup_eq_none_iff.mpr (hkeys ▸ hnew)
  obtain ⟨hok, hsame⟩ := h.ok.upsert (Decoder.normal x.info) x.blocks a
  refine ⟨hok, ?_, hsame.folderId.trans h.folderId, hsame.shortId.trans h.shortId⟩
  rw [(h.ok.slots_upsert _ x.blocks ha hnum).2, h.slots, hnone, upsert_of_not_mem (hkeys ▸ hnew),
    List.map_append]
  rfl

theorem Loading.load (h : Loading t (s.finish mem).table l) (x : Stored) (hmem : ∀ k, (mem k).Ok)
    (hroom : l.length < foldstateMaxFiles) (hnew : x.name ∉ l.map Stored.name) :
    Loading t ((s.load mem (Decoder.normal x.info) x.blocks).finish mem).table (l ++ [x]) :=
  h.upsert x (hmem _) hroom hnew

/-- **Loop.** -/
theorem Loading.foldl (h : Loading t (s.finish mem).table l) (hmem : ∀ k, (mem k).Ok) (is : List Nat)
    (hroom : l.length + is.length ≤ foldstateMaxFiles)
    (hnew : NodupKeys Stored.name (l ++ is.map t.slotAt)) :
    Loading t ((is.foldl (fun s i => s.load mem (Decoder.normal (t.metaAt i)) ((t.blocksAt i).getD [])) s).finish mem).table
      (l ++ is.map t.slotAt) := by
  induction is generalizing s l with
  | nil => simpa using h
  | cons i is ih =>
    rw [List.length_cons] at hroom
    rw [List.map_cons, List.append_cons] at hnew ⊢
    have hfresh : (t.slotAt i).name ∉ l.map Stored.name := by
      have hpart : NodupKeys Stored.name (l ++ [t.slotAt i]) :=
        hnew.sublist ((List.sublist_append_left _ _).map _)
      rw [NodupKeys, List.map_append, List.map_singleton, List.nodup_append] at hpart
      exact fun hmem => hpart.2.2 _ hmem _ (List.mem_singleton.mpr rfl) rfl
    rw [List.foldl_cons, getD_blocksAt]
    exact ih (h.load (t.slotAt i) hmem (by omega) hfresh)
      (by rw [List.length_append, List.length_singleton]; omega) hnew

/-! ## The round trip -/

/-- The variables after the header of `t` has been read into `u`. -/
def headerRead (t u : FolderTable) : Decoder :=
  { Decoder.init u.resetRecords with
    magic := idxMagic
    format := idxFormat
    folder := t.folderId
    shortId := t.shortId
    highSeq := t.sequence.toUInt64 }

theorem assign_header (t u : FolderTable) :
    (Decoder.init u.resetRecords).assign [.num fMagic idxMagic, .num fFormat idxFormat,
      .data fFolderId t.folderId.bytes, .num fShortId t.shortId, .num fHighSeq t.sequence.toUInt64] =
      headerRead t u := by
  simp [Decoder.assign, Field.number, Field.value, Decoder.store, Decoder.storeNum, Decoder.storeData, fMagic,
    fFormat, fShortId, fHighSeq, fFolderId, headerRead]

theorem finish_highSeq (s : Decoder) : (s.finish mem).highSeq = s.highSeq := by
  rw [Decoder.finish]
  split <;> rfl

theorem finish_count (s : Decoder) : (s.finish mem).count = s.count := by
  rw [Decoder.finish]
  split <;> rfl

variable (t mem) in
/-- What the records leave of the header. -/
theorem foldl_load_frame (is : List Nat) (s : Decoder) (hs : s.headerOk = true ∨ s.headerMatches = true) :
    let s' := is.foldl (fun s i => s.load mem (Decoder.normal (t.metaAt i)) ((t.blocksAt i).getD [])) s
    s'.highSeq = s.highSeq ∧ (s'.headerOk = true ∨ s'.headerMatches = true) := by
  induction is generalizing s with
  | nil => exact ⟨rfl, hs⟩
  | cons i is ih =>
    obtain ⟨hseq, hok⟩ := ih (s.load mem (Decoder.normal (t.metaAt i)) ((t.blocksAt i).getD [])) (Or.inl rfl)
    exact ⟨hseq.trans (finish_highSeq s), hok⟩

theorem toInt_count {n : Nat} (h : n < 2 ^ 31) : (UInt64.ofNat n).toInt64.toInt = n := by
  have hcast : (UInt64.ofNat n).toInt64 = Int64.ofNat n := by simp
  rw [hcast, Int64.toInt_ofNat_of_lt (by omega)]

theorem ok_resetRecords (u : FolderTable) : u.resetRecords.Ok where
  fits := Nat.le_refl _
  named := fun i hi => absurd hi (Nat.not_lt_zero i)
  distinct := fun i hi => absurd hi (Nat.not_lt_zero i)
  counted := fun i hi => absurd hi (Nat.not_lt_zero i)
  linked := fun b hb => absurd hb (Nat.not_lt_zero b)

theorem headerMatches_headerRead {u : FolderTable} (hid : u.folderId = t.folderId)
    (hshort : u.shortId = t.shortId) : (headerRead t u).headerMatches = true := by
  have hid' : (headerRead t u).table.folderId = t.folderId := hid
  have hshort' : (headerRead t u).table.shortId = t.shortId := hshort
  rw [Decoder.headerMatches, hid', hshort']
  simp [headerRead]

theorem runFields_index {u : FolderTable} (hid : u.folderId = t.folderId) (hshort : u.shortId = t.shortId) :
    runFields (Decoder.start mem) Decoder.store (Decoder.init u.resetRecords)
        (t.indexFields ++ [.num fEnd (UInt64.ofNat t.numFiles)]) =
      (((List.range t.numFiles).foldl (fun s i => s.load mem (Decoder.normal (t.metaAt i)) ((t.blocksAt i).getD []))
        (headerRead t u)).store fEnd (.num (UInt64.ofNat t.numFiles)), true) := by
  have hmatch := headerMatches_headerRead hid hshort
  rw [indexFields, List.append_assoc, Decoder.runFields_assign ?_, assign_header,
    show t.slotFields = fun i => recordFields (t.metaAt i) (t.blocksAt i) from rfl,
    Decoder.runFields_records t.metaAt t.blocksAt _ (Or.inr hmatch), runFields,
    show Decoder.start mem _ (Field.num fEnd _).number (Field.num fEnd _).wiretype = some _ from
      Decoder.start_header (f := fEnd) (w := wtVarint) (by decide) (by decide)]
  · rfl
  · intro f hf s _
    simp only [List.mem_cons, List.not_mem_nil, or_false] at hf
    rcases hf with rfl | rfl | rfl | rfl | rfl
    · exact Decoder.start_header (f := fMagic) (w := wtVarint) (by decide) (by decide)
    · exact Decoder.start_header (f := fFormat) (w := wtVarint) (by decide) (by decide)
    · exact Decoder.start_header (f := fFolderId) (w := wtLen) (by decide) (by decide)
    · exact Decoder.start_header (f := fShortId) (w := wtVarint) (by decide) (by decide)
    · exact Decoder.start_header (f := fHighSeq) (w := wtVarint) (by decide) (by decide)

/-- A stream that was read to its end and is complete. -/
theorem decode_of_read {u : FolderTable} {data : Bytes} {s : Decoder}
    (hread : readFields (Decoder.start mem) Decoder.store data.length (Decoder.init u.resetRecords) data =
      (s, true)) (hchecked : s.headerOk = true ∨ s.headerMatches = true)
    (hcount : ((s.finish mem).table.numFiles : Int) = s.count.toInt) :
    u.indexStoreDecode data mem = ({ (s.finish mem).table with sequence := s.highSeq.toInt64 }, true) := by
  have hheader : ¬ (!s.headerOk && !s.headerMatches) = true := by
    rcases hchecked with h | h <;> simp [h]
  have hcomplete : ¬ ((s.finish mem).count < 0 ∨
      ((s.finish mem).table.numFiles : Int) ≠ (s.finish mem).count.toInt) := by
    rw [finish_count, Int64.lt_iff_toInt_lt, hcount]
    rintro (h | h)
    · have hzero : (0 : Int64).toInt = 0 := rfl
      omega
    · exact h rfl
  rw [indexStoreDecode, hread]
  dsimp only
  rw [if_neg (by simp), if_neg hheader, if_neg hcomplete, finish_highSeq]

/-- **Loading.** -/
theorem loading_decode {u : FolderTable} {cap : UInt64} {b : Bytes} (h : t.Ok)
    (hnum : t.numFiles ≤ foldstateMaxFiles) (hb : t.indexStoreEncode cap = some b)
    (hid : u.folderId = t.folderId) (hshort : u.shortId = t.shortId) (hmem : ∀ k, (mem k).Ok) :
    (u.indexStoreDecode b mem).2 = true ∧ (u.indexStoreDecode b mem).1.sequence = t.sequence ∧
      Loading t (u.indexStoreDecode b mem).1 t.slots := by
  obtain ⟨hbytes, hlen⟩ := eq_of_encode hb
  rw [hbytes] at hlen
  have hread := (readFields_bytes (Decoder.start mem) Decoder.store
    (sized_of_length hlen) (Nat.le_refl _) (Decoder.init u.resetRecords)).trans
    (runFields_index hid hshort)
  have hmatch := headerMatches_headerRead hid hshort
  obtain ⟨hseq, hchecked⟩ := foldl_load_frame t mem (List.range t.numFiles) _ (Or.inr hmatch)
  have hstart : Loading t ((headerRead t u).finish mem).table [] :=
    ⟨ok_resetRecords u, rfl, hid, hshort⟩
  have hload := hstart.foldl hmem (List.range t.numFiles) (by simpa using hnum) h.nodup
  rw [← hbytes] at hread
  generalize (List.range t.numFiles).foldl (fun s i => s.load mem (Decoder.normal (t.metaAt i)) ((t.blocksAt i).getD []))
    (headerRead t u) = s at hread hseq hchecked hload
  have hfiles : (s.finish mem).table.numFiles = t.numFiles := by
    rw [← length_slots, hload.slots, List.length_map, List.nil_append, List.length_map, List.length_range]
  have hfinish : ((s.store fEnd (.num (UInt64.ofNat t.numFiles))).finish mem).table =
      (s.finish mem).table := by
    show (Decoder.finish mem { s with count := (UInt64.ofNat t.numFiles).toInt64 }).table = _
    rw [Decoder.finish, Decoder.finish]
    split <;> rfl
  have hcount := toInt_count (n := t.numFiles) (by simp only [foldstateMaxFiles] at hnum; omega)
  rw [decode_of_read hread hchecked (by rw [hfinish, hfiles]; exact hcount.symm), hfinish]
  refine ⟨rfl, ?_, ?_⟩
  · show s.highSeq.toInt64 = t.sequence
    rw [hseq]
    simp [headerRead]
  · obtain ⟨hok, hslots, hfolder, hsid⟩ := hload
    exact ⟨⟨⟨hok.fits, hok.named, hok.distinct, hok.counted⟩, hok.linked⟩, hslots, hfolder, hsid⟩

theorem lookup_reloaded (n : FileName) (l : List Stored) :
    lookup Stored.name n (l.map Stored.reloaded) = (lookup Stored.name n l).map Stored.reloaded := by
  rw [lookup, lookup, List.find?_map]
  rfl

theorem Ok.holds {t : FolderTable} (h : t.Ok) :
    t.Holds ⟨fun n => lookup Stored.name n t.slots, t.sequence⟩ :=
  ⟨h, fun _ => rfl, rfl⟩

/-- What is found in a table that came back. -/
theorem Loading.find {u : FolderTable} (h : Loading t u t.slots) (ht : t.Ok) (n : FileName) :
    (u.findSlot n).map u.metaAt = (t.findSlot n).map (fun i => Decoder.normal (t.metaAt i)) ∧
      ∀ k, u.blocksOf n k = t.blocksOf n k := by
  have hu : lookup Stored.name n u.slots = (lookup Stored.name n t.slots).map Stored.reloaded := by
    rw [h.slots, lookup_reloaded]
  constructor
  · have hinfo : ((u.findSlot n).map u.slotAt).map Stored.info =
        ((t.findSlot n).map t.slotAt).map (fun s => Decoder.normal s.info) := by
      rw [← h.ok.lookup_slots, hu, ← ht.lookup_slots, Option.map_map]
      rfl
    rw [Option.map_map, Option.map_map] at hinfo
    exact hinfo
  · intro k
    have hblocks : (lookup Stored.name n u.slots).map Stored.blocks =
        (lookup Stored.name n t.slots).map Stored.blocks := by
      rw [hu, Option.map_map]
      rfl
    rw [h.ok.holds.blocksOf, ht.holds.blocksOf]
    dsimp only
    rw [hblocks]

/-- **The index store round trip.** -/
theorem indexStore_round_trip {u : FolderTable} {cap : UInt64} {b : Bytes} (h : t.Ok)
    (hflags : ∀ i < t.numFiles, (t.metaAt i).Flags)
    (hhash : ∀ i < t.numFiles, (t.metaAt i).hasContentHash = 0 → (t.metaAt i).contentHash = zeroHash)
    (hnum : t.numFiles < foldstateMaxFiles) (hb : t.indexStoreEncode cap = some b)
    (hid : u.folderId = t.folderId) (hshort : u.shortId = t.shortId) (hmem : ∀ k, (mem k).Ok) :
    ∃ u', u.indexStoreDecode b mem = (u', true) ∧ u'.Ok ∧ u'.sequence = t.sequence ∧
      u'.numFiles = t.numFiles ∧ ∀ n, (u'.findSlot n).map u'.metaAt = (t.findSlot n).map t.metaAt ∧
        ∀ k, u'.blocksOf n k = t.blocksOf n k := by
  obtain ⟨hok, hseq, hload⟩ := loading_decode h hnum.le hb hid hshort hmem
  refine ⟨_, Prod.ext rfl hok, hload.ok, hseq, ?_, fun n => ⟨?_, (hload.find h n).2⟩⟩
  · rw [← length_slots, hload.slots, List.length_map, length_slots]
  · rw [(hload.find h n).1]
    cases hf : t.findSlot n with
    | none => rfl
    | some i =>
      obtain ⟨hi, -⟩ := h.findSlot_eq_some.mp hf
      exact congrArg some (Decoder.normal_eq (hflags i hi) (hhash i hi))

def sampleRecord : FileMeta where
  name := .ofBytes _ [102]
  size := -1
  permissions := 420
  modifiedS := 5
  modifiedNs := -6
  modifiedBy := 7
  sequence := 8
  blockSize := -131072
  version := ⟨[⟨7, 1⟩], by decide⟩
  contentHash := zeroHash
  type := 0
  deleted := 0
  invalid := 0
  hasContentHash := 1

def sampleTable : FolderTable :=
  ((init (.ofBytes _ [97]) 7 sampleArrays).upsert sampleRecord [zeroHash] sampleAlloc).1

/-- An index with one record. -/
theorem indexStore_round_trip_sample :
    ∃ b u', sampleTable.indexStoreEncode 4096 = some b ∧
      (init (.ofBytes _ [97]) 7 sampleArrays).indexStoreDecode b (fun _ => sampleAlloc) = (u', true) ∧
        (u'.findSlot sampleRecord.name).map u'.metaAt =
          (sampleTable.findSlot sampleRecord.name).map sampleTable.metaAt := by
  have hok : sampleTable.Ok := ((ok_init ..).upsert sampleRecord [zeroHash] sampleAlloc).1
  have hnum : sampleTable.numFiles = 1 := rfl
  have hmeta : ∀ i < sampleTable.numFiles, sampleTable.metaAt i = sampleRecord := by
    intro i hi
    obtain rfl : i = 0 := by omega
    rfl
  have hsome : (sampleTable.indexStoreEncode 4096).isSome = true := by decide +kernel
  obtain ⟨b, hb⟩ := Option.isSome_iff_exists.mp hsome
  obtain ⟨u', hu', -, -, -, hfind⟩ := indexStore_round_trip (u := init (.ofBytes _ [97]) 7 sampleArrays)
    hok (fun i hi => hmeta i hi ▸ ⟨by decide, by decide, by decide⟩)
    (fun i hi => hmeta i hi ▸ fun h => absurd h (by decide)) (by decide) hb rfl rfl
    (fun (_ : Nat) => sampleAlloc_ok)
  exact ⟨b, u', hb, hu', (hfind sampleRecord.name).1⟩

end Load

end FolderTable

end Amisync

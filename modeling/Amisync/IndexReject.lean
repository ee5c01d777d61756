import Amisync.IndexLoad

/-!
# Rejecting an index

The loader commits records as it goes, and empties the table again if the stream
turns out to be another folder's or to stop early.

* `Loaded`: what the variables of the loop have to do with the fields read so far
  (`loaded_step`).
* `count_runFields`, `decode_prefix`: the end marker is the last field, so a stream
  that is cut short has none.
* `indexStore_all_or_nothing`: the result.
-/

namespace Amisync

open Pbuf Keyed

namespace Decoder

variable {mem : Nat → Alloc} {s s' : Decoder}

/-- **Inversion.** What is done before a value is read. -/
theorem start_cases {f : UInt32} {w : UInt64} (h : s.start mem f w = some s') :
    (f < fName ∧ s' = s) ∨ (¬ f < fName ∧ (s.headerOk = true ∨ s.headerMatches = true) ∧
      (s' = { s with headerOk := true } ∨ s' = s.load mem .zero [])) := by
  rw [start] at h
  split at h
  · simp at h
  · split at h
    · rename_i hf
      exact Or.inl ⟨hf, (Option.some.inj h).symm⟩
    · rename_i hf
      split at h
      · simp at h
      · rename_i hchecked
        have hok : s.headerOk = true ∨ s.headerMatches = true := by
          cases ho : s.headerOk with
          | true => exact Or.inl rfl
          | false => exact Or.inr (by simpa [ho] using hchecked)
        split at h
        · exact Or.inr ⟨hf, hok, Or.inr (Option.some.inj h).symm⟩
        · exact Or.inr ⟨hf, hok, Or.inl (Option.some.inj h).symm⟩

/-- An earlier case that changes nothing. -/
theorem ite_skip {α : Type} {f g k : UInt32} (a b : α) (h : g ≠ k) :
    (if f = g then a else if f = k then b else a) = if f = k then b else a := by
  split
  · rename_i he
    rw [if_neg (fun e => h (he.symm.trans e))]
  · rfl

/-- What a value does to the variables of the header. -/
theorem store_num (s : Decoder) (f : UInt32) (v : UInt64) :
    (s.store f (.num v)).magic = (if f = fMagic then v else s.magic) ∧
    (s.store f (.num v)).format = (if f = fFormat then v else s.format) ∧
    (s.store f (.num v)).shortId = (if f = fShortId then v else s.shortId) ∧
    (s.store f (.num v)).count = (if f = fEnd then v.toInt64 else s.count) ∧
    (s.store f (.num v)).folder = s.folder := by
  simp only [store, storeNum, apply_ite Decoder.magic, apply_ite Decoder.format, apply_ite Decoder.shortId,
    apply_ite Decoder.count, apply_ite Decoder.folder, ite_self, true_and, and_true]
  rw [ite_skip _ _ (by decide : fFormat ≠ fShortId), ite_skip _ _ (by decide : fMagic ≠ fShortId),
    ite_skip _ _ (by decide : fMagic ≠ fFormat), ite_skip _ _ (by decide : fHighSeq ≠ fEnd),
    ite_skip _ _ (by decide : fShortId ≠ fEnd), ite_skip _ _ (by decide : fFormat ≠ fEnd),
    ite_skip _ _ (by decide : fMagic ≠ fEnd)]
  exact ⟨rfl, rfl, rfl⟩

theorem store_data (s : Decoder) (f : UInt32) (b : Bytes) :
    (s.store f (.data b)).magic = s.magic ∧ (s.store f (.data b)).format = s.format ∧
    (s.store f (.data b)).shortId = s.shortId ∧ (s.store f (.data b)).count = s.count ∧
    (s.store f (.data b)).folder = (if f = fFolderId then .ofBytes _ b else s.folder) := by
  simp only [store, storeData, apply_ite Decoder.magic, apply_ite Decoder.format, apply_ite Decoder.shortId,
    apply_ite Decoder.count, apply_ite Decoder.folder, apply_dite Decoder.magic, apply_dite Decoder.format,
    apply_dite Decoder.shortId, apply_dite Decoder.count, apply_dite Decoder.folder, dite_eq_ite, ite_self,
    and_self]

/-- The variables of the header hold the last value of each field. -/
structure Header (s : Decoder) (l : List (UInt32 × Value)) : Prop where
  magic : s.magic = (lastNum fMagic l).getD 0
  format : s.format = (lastNum fFormat l).getD 0
  shortId : s.shortId = (lastNum fShortId l).getD 0
  folder : s.folder = .ofBytes _ ((lastData fFolderId l).getD [])

theorem Header.store {l : List (UInt32 × Value)} (h : s.Header l) (f : UInt32) (v : Value) :
    (s.store f v).Header (l ++ [(f, v)]) := by
  cases v with
  | num v =>
    obtain ⟨hmagic, hformat, hshort, -, hfolder⟩ := store_num s f v
    refine ⟨?_, ?_, ?_, ?_⟩
    · rw [hmagic, lastNum_concat, h.magic]
      split <;> rfl
    · rw [hformat, lastNum_concat, h.format]
      split <;> rfl
    · rw [hshort, lastNum_concat, h.shortId]
      split <;> rfl
    · rw [hfolder, lastData_concat, h.folder]
  | data b =>
    obtain ⟨hmagic, hformat, hshort, -, hfolder⟩ := store_data s f b
    refine ⟨?_, ?_, ?_, ?_⟩
    · rw [hmagic, lastNum_concat, h.magic]
    · rw [hformat, lastNum_concat, h.format]
    · rw [hshort, lastNum_concat, h.shortId]
    · rw [hfolder, lastData_concat, h.folder]
      split <;> rfl
  | fixed =>
    refine ⟨?_, ?_, ?_, ?_⟩
    · rw [lastNum_concat, ← h.magic]
      rfl
    · rw [lastNum_concat, ← h.format]
      rfl
    · rw [lastNum_concat, ← h.shortId]
      rfl
    · rw [lastData_concat, ← h.folder]
      rfl

end Decoder

/-- The header that `l` carries is that of folder `folderId` on device `shortId`. -/
structure HeaderOk (u : FolderTable) (l : List (UInt32 × Value)) : Prop where
  magic : lastNum fMagic l = some idxMagic
  format : lastNum fFormat l = some idxFormat
  shortId : (lastNum fShortId l).getD 0 = u.shortId
  folder : CString.ofBytes 63 ((lastData fFolderId l).getD []) = u.folderId

/-- The fields before the first one of a record. -/
def headerPart (l : List (UInt32 × Value)) : List (UInt32 × Value) := l.takeWhile fun x => x.1 < fName

section Part
variable {l : List (UInt32 × Value)}

theorem headerPart_header (h : headerPart l = l) {f : UInt32} (hf : f < fName) (v : Value) :
    headerPart (l ++ [(f, v)]) = l ++ [(f, v)] := by
  rw [headerPart] at h ⊢
  rw [List.takeWhile_append, if_pos (congrArg List.length h)]
  simp [hf]

theorem headerPart_first (h : headerPart l = l) {f : UInt32} (hf : ¬ f < fName) (v : Value) :
    headerPart (l ++ [(f, v)]) = l := by
  rw [headerPart] at h ⊢
  rw [List.takeWhile_append, if_pos (congrArg List.length h)]
  simp [hf]

theorem headerPart_record (h : headerPart l ≠ l) (x : UInt32 × Value) :
    headerPart (l ++ [x]) = headerPart l := by
  rw [headerPart] at h ⊢
  rw [List.takeWhile_append, if_neg fun e => h ((List.takeWhile_prefix _).eq_of_length e)]
  rfl

theorem concat_ne {m : List (UInt32 × Value)} (h : m <+: l) (x : UInt32 × Value) : m ≠ l ++ [x] := by
  intro e
  have hle := h.length_le
  rw [e, List.length_append, List.length_singleton] at hle
  omega

end Part

/-- **The invariant of the loop.** -/
structure Loaded (u : FolderTable) (l : List (UInt32 × Value)) (s : Decoder) : Prop where
  ok : s.table.Ok
  folderId : s.table.folderId = u.folderId
  shortId : s.table.shortId = u.shortId
  count : s.count = ((lastNum fEnd l).map UInt64.toInt64).getD (-1)
  header : headerPart l = l → s.headerOk = false ∧ s.Header l
  checked : headerPart l ≠ l → s.headerOk = true ∧ HeaderOk u (headerPart l)

section Loop
variable {u : FolderTable} {mem : Nat → Alloc} {s s' : Decoder} {l : List (UInt32 × Value)}

/-- The record before is stored in a table of the same folder. -/
theorem Loaded.finish (h : Loaded u l s) : (s.finish mem).table.Ok ∧
    (s.finish mem).table.folderId = u.folderId ∧ (s.finish mem).table.shortId = u.shortId := by
  rw [Decoder.finish]
  split
  · obtain ⟨hok, hsame⟩ := h.ok.upsert s.cur s.blocks (mem s.upserts)
    exact ⟨hok, hsame.folderId.trans h.folderId, hsame.shortId.trans h.shortId⟩
  · exact ⟨h.ok, h.folderId, h.shortId⟩

theorem Loaded.headerOk (h : Loaded u l s) (hpart : headerPart l = l) (hm : s.headerMatches = true) :
    HeaderOk u l := by
  have hdr := (h.header hpart).2
  simp only [Decoder.headerMatches, Bool.and_eq_true, beq_iff_eq, decide_eq_true_eq] at hm
  obtain ⟨⟨⟨hmagic, hformat⟩, hshort⟩, hfolder⟩ := hm
  rw [hdr.magic] at hmagic
  rw [hdr.format] at hformat
  rw [hdr.shortId, h.shortId] at hshort
  rw [hdr.folder, h.folderId] at hfolder
  refine ⟨?_, ?_, hshort, hfolder⟩
  · cases hl : lastNum fMagic l with
    | none => simp [hl, idxMagic] at hmagic
    | some v => rw [hl] at hmagic; exact congrArg some hmagic
  · cases hl : lastNum fFormat l with
    | none => simp [hl, idxFormat] at hformat
    | some v => rw [hl] at hformat; exact congrArg some hformat

theorem count_store (s : Decoder) (l : List (UInt32 × Value)) (f : UInt32) (v : Value)
    (h : s.count = ((lastNum fEnd l).map UInt64.toInt64).getD (-1)) :
    (s.store f v).count = ((lastNum fEnd (l ++ [(f, v)])).map UInt64.toInt64).getD (-1) := by
  rw [lastNum_concat]
  cases v with
  | num v =>
    rw [(Decoder.store_num s f v).2.2.2.1, h]
    dsimp only
    split <;> rfl
  | data b => rw [(Decoder.store_data s f b).2.2.2.1, h]
  | fixed => exact h

theorem count_start {f : UInt32} {w : UInt64} (h : s.start mem f w = some s') : s'.count = s.count := by
  rcases Decoder.start_cases h with ⟨-, rfl⟩ | ⟨-, -, rfl | rfl⟩
  · rfl
  · rfl
  · exact FolderTable.finish_count s

/-- **Step.** -/
theorem loaded_step {f : UInt32} {w : UInt64} (v : Value) (h : Loaded u l s)
    (hs : s.start mem f w = some s') : Loaded u (l ++ [(f, v)]) (s'.store f v) := by
  obtain ⟨htable, hok, -⟩ := Decoder.store_frame s' f v
  have hcount := count_store s' l f v ((count_start hs).trans h.count)
  have hprefix : headerPart l <+: l := List.takeWhile_prefix _
  rcases Decoder.start_cases hs with ⟨hf, rfl⟩ | ⟨hf, hchecked, hcase⟩
  · refine ⟨htable ▸ h.ok, htable ▸ h.folderId, htable ▸ h.shortId, hcount, fun hpart => ?_, fun hpart => ?_⟩
    · by_cases hl : headerPart l = l
      · exact ⟨hok.trans (h.header hl).1, (h.header hl).2.store f v⟩
      · rw [headerPart_record hl] at hpart
        exact absurd hpart (concat_ne hprefix _)
    · by_cases hl : headerPart l = l
      · exact absurd (headerPart_header hl hf v) hpart
      · rw [headerPart_record hl]
        exact ⟨hok.trans (h.checked hl).1, (h.checked hl).2⟩
  · have hs' : s'.headerOk = true ∧ s'.table.Ok ∧ s'.table.folderId = u.folderId ∧
        s'.table.shortId = u.shortId := by
      rcases hcase with rfl | rfl
      · exact ⟨rfl, h.ok, h.folderId, h.shortId⟩
      · exact ⟨rfl, h.finish⟩
    obtain ⟨hok', htok, hfolder, hshort⟩ := hs'
    refine ⟨htable ▸ htok, htable ▸ hfolder, htable ▸ hshort, hcount, fun hpart => ?_, fun _ => ⟨hok.trans hok', ?_⟩⟩
    · by_cases hl : headerPart l = l
      · rw [headerPart_first hl hf] at hpart
        exact absurd hpart (concat_ne (List.prefix_refl l) _)
      · rw [headerPart_record hl] at hpart
        exact absurd hpart (concat_ne hprefix _)
    · by_cases hl : headerPart l = l
      · rw [headerPart_first hl hf]
        refine h.headerOk hl (hchecked.resolve_left ?_)
        simp [(h.header hl).1]
      · rw [headerPart_record hl]
        exact (h.checked hl).2

variable (u mem) in
/-- Where the loop ends. -/
theorem loaded_read (data : Bytes)
    (hok : (readFields (Decoder.start mem) Decoder.store data.length (Decoder.init u.resetRecords) data).2 =
      true) : (fieldsOf data).2 = true ∧ Loaded u (fieldsOf data).1
        (readFields (Decoder.start mem) Decoder.store data.length (Decoder.init u.resetRecords) data).1 := by
  have hinit : Loaded u [] (Decoder.init u.resetRecords) :=
    ⟨u.ok_resetRecords, rfl, rfl, rfl, fun _ => ⟨rfl, rfl, rfl, rfl, by rfl⟩, fun h => absurd rfl h⟩
  exact readFields_inv (fun l s f w s' v h hs => loaded_step v h hs) data.length data hinit hok

/-- **Inversion.** What the loader answers. -/
theorem decode_cases (u : FolderTable) (data : Bytes) (mem : Nat → Alloc) :
    ((u.indexStoreDecode data mem).2 = false ∧
      ∃ t : FolderTable, (u.indexStoreDecode data mem).1 = t.resetRecords) ∨
    ∃ s, readFields (Decoder.start mem) Decoder.store data.length (Decoder.init u.resetRecords) data =
        (s, true) ∧ (s.headerOk = true ∨ s.headerMatches = true) ∧ 0 ≤ s.count ∧
      ((u.indexStoreDecode data mem).1.numFiles : Int) = s.count.toInt ∧
      (u.indexStoreDecode data mem).2 = true := by
  rw [FolderTable.indexStoreDecode]
  generalize readFields (Decoder.start mem) Decoder.store data.length (Decoder.init u.resetRecords) data = r
  obtain ⟨s, eof⟩ := r
  dsimp only
  cases eof with
  | false => exact Or.inl ⟨rfl, s.table, rfl⟩
  | true =>
    rw [if_neg (by simp)]
    split
    · exact Or.inl ⟨rfl, s.table, rfl⟩
    · rename_i hheader
      split
      · exact Or.inl ⟨rfl, (s.finish mem).table, rfl⟩
      · rename_i hcount
        rw [FolderTable.finish_count, not_or, not_not] at hcount
        refine Or.inr ⟨s, rfl, ?_, Int64.not_lt.mp hcount.1, hcount.2, rfl⟩
        cases ho : s.headerOk with
        | true => exact Or.inl rfl
        | false => exact Or.inr (by simpa [ho] using hheader)

/-! ## Cut streams -/

variable (mem) in
theorem count_runFields {k : List Field} (hk : ∀ f ∈ k, f.number ≠ fEnd) (s : Decoder) :
    (runFields (Decoder.start mem) Decoder.store s k).1.count = s.count := by
  induction k generalizing s with
  | nil => rfl
  | cons f k ih =>
    rw [runFields]
    cases hs : s.start mem f.number f.wiretype with
    | none => rfl
    | some s' =>
      have hstore : (s'.store f.number f.value).count = s'.count := by
        cases f with
        | num n v =>
          have hn : n ≠ fEnd := hk _ List.mem_cons_self
          exact (Decoder.store_num s' n v).2.2.2.1.trans (if_neg hn)
        | data n b => exact (Decoder.store_data s' n b).2.2.2.1
      exact (ih (fun g hg => hk g (List.mem_cons_of_mem _ hg)) _).trans (hstore.trans (count_start hs))

/-- The end marker comes last. -/
theorem number_indexFields (t : FolderTable) : ∀ f ∈ t.indexFields, f.number ≠ fEnd := by
  intro f hf
  rw [FolderTable.indexFields, List.mem_append] at hf
  rcases hf with hf | hf
  · simp only [List.mem_cons, List.not_mem_nil, or_false] at hf
    rcases hf with rfl | rfl | rfl | rfl | rfl
    · exact (by decide : fMagic ≠ fEnd)
    · exact (by decide : fFormat ≠ fEnd)
    · exact (by decide : fFolderId ≠ fEnd)
    · exact (by decide : fShortId ≠ fEnd)
    · exact (by decide : fHighSeq ≠ fEnd)
  · obtain ⟨i, -, hf⟩ := List.mem_flatMap.mp hf
    rcases List.mem_cons.mp hf with rfl | hf
    · exact (by decide : fName ≠ fEnd)
    · have hplain := (Decoder.plain_recordBody _ _ f hf).1
      intro e
      rw [e] at hplain
      exact absurd hplain (by decide)

/-- **Cut.** -/
theorem decode_prefix {t u : FolderTable} {cap : UInt64} {b p : Bytes} (hb : t.indexStoreEncode cap = some b)
    (hp : p <+: b) (hne : p ≠ b) (mem : Nat → Alloc) : (u.indexStoreDecode p mem).2 = false := by
  obtain ⟨rfl, hlen⟩ := FolderTable.eq_of_encode hb
  rcases decode_cases u p mem with ⟨hfail, -⟩ | ⟨s, hread, -, hcount, -⟩
  · exact hfail
  · obtain ⟨l₁, f, l₂, hl, hrun⟩ := readFields_prefix (Decoder.start mem) Decoder.store
      (sized_of_length hlen) hp hne (Nat.le_refl _) (Decoder.init u.resetRecords) (by rw [hread])
    -- what was read whole comes before the end marker
    have hpart : l₁ <+: t.indexFields := by
      have hlast : l₁.length < (t.indexFields ++ [Field.num fEnd (UInt64.ofNat t.numFiles)]).length := by
        rw [hl, List.length_append, List.length_cons]
        omega
      rw [List.length_append, List.length_singleton] at hlast
      refine List.prefix_of_prefix_length_le ⟨f :: l₂, hl.symm⟩ (List.prefix_append _ _) (by omega)
    have hsame := count_runFields mem
      (fun g hg => number_indexFields t g (hpart.subset hg)) (Decoder.init u.resetRecords)
    rw [← hrun, hread] at hsame
    rw [hsame] at hcount
    exact absurd hcount (by decide : ¬ (0 : Int64) ≤ -1)

/-- **All or nothing.** -/
theorem indexStore_all_or_nothing :
    (∀ (t : FolderTable) (cap : UInt64) (b p : Bytes), t.indexStoreEncode cap = some b → p <+: b → p ≠ b →
      ∀ (u : FolderTable) (mem : Nat → Alloc), (u.indexStoreDecode p mem).2 = false) ∧
    ∀ (u : FolderTable) (data : Bytes) (mem : Nat → Alloc),
      ((u.indexStoreDecode data mem).2 = false →
        (u.indexStoreDecode data mem).1.numFiles = 0 ∧ (u.indexStoreDecode data mem).1.sequence = 0 ∧
          ∀ n, (u.indexStoreDecode data mem).1.findSlot n = none) ∧
      ((u.indexStoreDecode data mem).2 = true → ∃ l, fieldsOf data = (l, true) ∧
        (∃ n, lastNum fEnd l = some n ∧
          ((u.indexStoreDecode data mem).1.numFiles : Int) = n.toInt64.toInt) ∧
        HeaderOk u (headerPart l)) := by
  refine ⟨fun t cap b p hb hp hne u mem => decode_prefix hb hp hne mem, fun u data mem => ⟨fun hfail => ?_, fun hok => ?_⟩⟩
  · rcases decode_cases u data mem with ⟨-, t, ht⟩ | ⟨-, -, -, -, -, hok⟩
    · rw [ht]
      exact ⟨rfl, rfl, fun _ => rfl⟩
    · rw [hfail] at hok
      exact absurd hok (by decide)
  · rcases decode_cases u data mem with ⟨hfail, -⟩ | ⟨s, hread, hchecked, hcount, hnum, -⟩
    · rw [hfail] at hok
      exact absurd hok (by decide)
    · obtain ⟨heof, hloaded⟩ := loaded_read u mem data (by rw [hread])
      rw [hread] at hloaded
      refine ⟨(fieldsOf data).1, Prod.ext rfl heof, ?_, ?_⟩
      · have hc := hloaded.count
        cases hl : lastNum fEnd (fieldsOf data).1 with
        | none =>
          rw [hl] at hc
          rw [show s.count = -1 from hc] at hcount
          exact absurd hcount (by decide)
        | some n =>
          rw [hl] at hc
          exact ⟨n, rfl, by rw [hnum, show s.count = n.toInt64 from hc]⟩
      · by_cases hpart : headerPart (fieldsOf data).1 = (fieldsOf data).1
        · have hno : s.headerOk = false := (hloaded.header hpart).1
          rw [hpart]
          exact hloaded.headerOk hpart (hchecked.resolve_left (by simp [hno]))
        · exact (hloaded.checked hpart).2

/-- Three bytes of an index. -/
theorem indexStore_cut : ∃ b, FolderTable.sampleTable.indexStoreEncode 4096 = some b ∧ 3 < b.length ∧
    (FolderTable.sampleTable.indexStoreDecode (b.take 3) (fun _ => FolderTable.sampleAlloc)).2 = false := by
  have hsome : (FolderTable.sampleTable.indexStoreEncode 4096).any (fun b => 3 < b.length) = true := by
    decide +kernel
  obtain ⟨b, hb, hlong⟩ := (Option.any_eq_true _ _).mp hsome
  have hlen : 3 < b.length := by simpa using hlong
  have hne : b.take 3 ≠ b := fun e => by
    have := congrArg List.length e
    rw [List.length_take] at this
    omega
  exact ⟨b, hb, hlen, indexStore_all_or_nothing.1 _ _ b _ hb (List.take_prefix 3 b) hne _ _⟩

end Loop

end Amisync

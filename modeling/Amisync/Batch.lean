import Amisync.FileInfo

/-!
# Index messages (`bep.c`)

An Index is a folder's id and any number of records. It is written record by
record into a batch, or at once, and read with an iterator.

* `batchAdd`: a record that does not fit leaves the batch as it was.
* `indexBytes`: what every writer writes.
* `readIndex_indexBytes`: what the iterator makes of it.
* `encodeIndexFile_isSome`: when one record fits.
-/

namespace Amisync

open Pbuf

namespace Bep

/-! ## Writing -/

/-- The batch in the connection's buffer; `buf` is the part that is written. -/
structure IndexBatch where
  buf : Bytes
  cap : Nat
  num : Nat
  error : Bool

def batchBegin (outCap : Nat) (folder : CString 63) : IndexBatch :=
  let w := (Writer.init outCap).writeBytes 1 folder.bytes
  if w.error then ⟨[], outCap, 0, true⟩ else ⟨w.buf, outCap, 0, false⟩

/-- The tag and the length of a record of `n` bytes, in a buffer of eight. -/
def entryHead (n : Nat) : Writer := ((Writer.init 8).writeTag 2 wtLen).writeVarint (UInt64.ofNat n)

/-- A record after `used` bytes of a buffer of `cap`: its head and its body. -/
def encodeEntry (cap used : Nat) (fi : FileInfo) (hashes : List Hash) : Option Bytes :=
  let fw := encodeFileInfoBody (Writer.init (cap - used)) fi (some hashes)
  if fw.error then none
  else
    let pw := entryHead fw.buf.length
    if pw.error then none
    else if cap < used + pw.buf.length + fw.buf.length then none
    else some (pw.buf ++ fw.buf)

/-- `none` is a refusal. -/
def batchAdd (b : IndexBatch) (fi : FileInfo) (hashes : List Hash) : Option IndexBatch :=
  if b.error then none
  else (encodeEntry b.cap b.buf.length fi hashes).map fun e =>
    { b with buf := b.buf ++ e, num := b.num + 1 }

def encodeIndexFile (folder : CString 63) (fi : FileInfo) (hashes : List Hash) (cap : Nat) :
    Option Bytes :=
  let w := (Writer.init cap).writeBytes 1 folder.bytes
  if w.error then none
  else (encodeEntry cap w.buf.length fi hashes).map fun e => w.buf ++ e

/-- One record on the stack. -/
def indexScratch : Nat := 4096

def encodeIndex (folder : CString 63) (files : List FileInfo) (cap : Nat) : Option Bytes :=
  (files.foldlM (fun w fi => (encodeFileInfo fi indexScratch).map fun b => w.writeBytes 2 b)
    ((Writer.init cap).writeBytes 1 folder.bytes)).bind fun w => if w.error then none else some w.buf

/-! ## Reading -/

/-- The folder that an Index names: the first field 1. -/
def indexFolderFrom : Nat → Bytes → CString 63
  | 0, _ => .empty _
  | fuel + 1, b =>
    match readTag b with
    | .tag field wt rest =>
      if field = 1 ∧ wt = wtLen then
        match readBytes rest with
        | some (d, _) => .ofBytes _ d
        | none => .empty _
      else match readValue wt rest with
        | some (_, rest) => indexFolderFrom fuel rest
        | none => .empty _
    | _ => .empty _

def indexFolder (body : Bytes) : CString 63 := indexFolderFrom body.length body

structure IndexIter where
  rest : Bytes
  error : Bool

/-- The loop of `bep_index_iter_next_cb`. A tag that cannot be read ends it like the end. -/
def iterLoop : Nat → Bytes → IndexIter × Option FileInfo
  | 0, _ => (⟨[], false⟩, none)
  | fuel + 1, b =>
    match readTag b with
    | .tag field wt rest =>
      if field = 2 ∧ wt = wtLen then
        match readBytes rest with
        | none => (⟨b, true⟩, none)
        | some (d, rest) =>
          match decodeFileInfoCb d with
          | none => (⟨rest, true⟩, none)
          | some fi => (⟨rest, false⟩, some fi)
      else match readValue wt rest with
        | none => (⟨b, true⟩, none)
        | some (_, rest) => iterLoop fuel rest
    | _ => (⟨[], false⟩, none)

def iterNext (it : IndexIter) : IndexIter × Option FileInfo :=
  if it.error || it.rest.isEmpty then (it, none) else iterLoop it.rest.length it.rest

/-- The records of an Index as they are delivered, and the iterator's error flag at the end. -/
def iterAll : Nat → IndexIter → List FileInfo × Bool
  | 0, it => ([], it.error)
  | fuel + 1, it =>
    match iterNext it with
    | (it, none) => ([], it.error)
    | (it, some fi) => (fi :: (iterAll fuel it).1, (iterAll fuel it).2)

def readIndex (body : Bytes) : List FileInfo × Bool := iterAll (body.length + 1) ⟨body, false⟩

/-! ## What is written -/

/-- The records of an Index with the blocks they are sent with. -/
def entryFields (items : List (FileInfo × List BlockInfo)) : List Field :=
  items.map fun x => .data 2 (infoBytes x.1 x.2)

def indexBytes (folder : CString 63) (items : List (FileInfo × List BlockInfo)) : Bytes :=
  (Field.data 1 folder.bytes :: entryFields items).flatMap Field.bytes

theorem indexBytes_concat (folder : CString 63) (items : List (FileInfo × List BlockInfo)) (fi : FileInfo)
    (blocks : List BlockInfo) :
    indexBytes folder (items ++ [(fi, blocks)]) =
      indexBytes folder items ++ (Field.data 2 (infoBytes fi blocks)).bytes := by
  rw [indexBytes, indexBytes, entryFields, entryFields, List.map_append, ← List.cons_append,
    List.flatMap_append]
  simp

theorem wrote_folder (cap : Nat) (folder : CString 63) :
    Writer.Wrote cap ((Writer.init cap).writeBytes 1 folder.bytes) (indexBytes folder []) := by
  have h := (Writer.wrote_init cap).writeBytes 1 folder.bytes
  simpa [indexBytes, entryFields] using h

section Entry
variable {cap used : Nat} {fi : FileInfo} {hashes : List Hash}

/-- **An entry.** -/
theorem encodeEntry_eq {e : Bytes} (h : encodeEntry cap used fi hashes = some e) :
    e = (Field.data 2 (infoBytes fi (blocksOut fi (some hashes)))).bytes := by
  have hbody := wrote_encodeFileInfoBody (Writer.wrote_init (cap - used)) fi (some hashes)
  rw [List.nil_append] at hbody
  rw [encodeEntry] at h
  split at h
  · simp at h
  · rename_i hok
    rw [Bool.not_eq_true] at hok
    rw [hbody.buf hok] at h
    have hhead := ((Writer.wrote_init 8).foldl_putByte (Varint.put (tagOf 2 wtLen))).foldl_putByte
      (Varint.put (UInt64.ofNat (infoBytes fi (blocksOut fi (some hashes))).length))
    dsimp only at h
    split at h
    · simp at h
    · rename_i hok'
      rw [Bool.not_eq_true] at hok'
      split at h
      · simp at h
      · have hbuf : (entryHead (infoBytes fi (blocksOut fi (some hashes))).length).buf = _ := hhead.buf hok'
        rw [Option.some.injEq, hbuf] at h
        rw [← h, Field.bytes, Field.payload]
        simp [Field.number, Field.wiretype, List.append_assoc]

theorem length_put_tag : (Varint.put (tagOf 2 wtLen)).length = 1 := by decide

/-- The head of a record has room in its eight bytes. -/
theorem entryHead_buf {n : Nat} (hn : n < 2 ^ 49) :
    (entryHead n).error = false ∧
      (entryHead n).buf = Varint.put (tagOf 2 wtLen) ++ Varint.put (UInt64.ofNat n) := by
  have h := ((Writer.wrote_init 8).foldl_putByte (Varint.put (tagOf 2 wtLen))).foldl_putByte
    (Varint.put (UInt64.ofNat n))
  rw [List.nil_append] at h
  have hn' : n < 128 ^ (6 + 1) := hn
  have hput := length_put_ofNat hn'
  have htag := length_put_tag
  have hok : (entryHead n).error = false := h.fits.mpr (by rw [List.length_append]; omega)
  exact ⟨hok, h.buf hok⟩

/-- An entry of fewer than 2^21 bytes needs five more at most. -/
theorem encodeEntry_isSome (hlen : (infoBytes fi (blocksOut fi (some hashes))).length < 2 ^ 21)
    (hfit : used + 4 + (infoBytes fi (blocksOut fi (some hashes))).length ≤ cap) :
    (encodeEntry cap used fi hashes).isSome = true := by
  have hbody := wrote_encodeFileInfoBody (Writer.wrote_init (cap - used)) fi (some hashes)
  rw [List.nil_append] at hbody
  have hok := hbody.fits.mpr (by omega)
  have hlen' : (infoBytes fi (blocksOut fi (some hashes))).length < 128 ^ (2 + 1) := hlen
  have hput := length_put_ofNat hlen'
  have htag := length_put_tag
  obtain ⟨hheadOk, hheadBuf⟩ := entryHead_buf (Nat.lt_trans hlen (by decide))
  rw [encodeEntry, if_neg (by simp [hok]), hbody.buf hok]
  dsimp only
  rw [if_neg (by simp [hheadOk]), hheadBuf, if_neg ?_]
  · rfl
  · rw [List.length_append]
    omega

end Entry

/-! ## The size of a record -/

theorem length_blocks_le (blocks : List BlockInfo) :
    ((blocks.map fun b => Field.data 16 ((blockFields b).flatMap Field.bytes)).flatMap
      Field.bytes).length ≤ 60 * blocks.length := by
  induction blocks with
  | nil => exact Nat.le_refl _
  | cons b blocks ih =>
    have hb := length_blockFields b
    have hd := length_data_le (f := 16) ((blockFields b).flatMap Field.bytes) (by decide) (by omega)
    rw [List.map_cons, List.flatMap_cons, List.length_append, List.length_cons]
    omega

/-- **Size.** -/
theorem length_infoBytes_le (fi : FileInfo) (blocks : List BlockInfo) :
    (infoBytes fi blocks).length ≤ 800 + 60 * blocks.length := by
  have hname := length_data_le (f := 1) fi.name.bytes (by decide)
    (Nat.lt_of_le_of_lt fi.name.short (by decide))
  have hshort : fi.name.bytes.length ≤ 255 := fi.name.short
  have hvec := (wrote_counters fi.version).2
  have hvec' : ((vectorFields fi.version).flatMap Field.bytes).length ≤ 400 := hvec
  have hversion := length_data_le (f := 9) ((vectorFields fi.version).flatMap Field.bytes) (by decide)
    (by omega)
  have h2 := length_optional_le (p := fi.type ≠ 0) (length_num_le (f := 2) fi.type.toUInt32.toUInt64 (by decide))
  have h3 := length_num_le (f := 3) fi.size.toUInt64 (by decide)
  have h4 := length_optional_le (p := fi.permissions ≠ 0)
    (length_num_le (f := 4) fi.permissions.toUInt64 (by decide))
  have h5 := length_num_le (f := 5) fi.modifiedS.toUInt64 (by decide)
  have h11 := length_optional_le (p := fi.modifiedNs ≠ 0)
    (length_num_le (f := 11) fi.modifiedNs.toUInt32.toUInt64 (by decide))
  have h12 := length_optional_le (p := fi.modifiedBy ≠ 0) (length_num_le (f := 12) fi.modifiedBy (by decide))
  have h6 := length_optional_le (p := fi.deleted ≠ 0) (length_num_le (f := 6) 1 (by decide))
  have h7 := length_optional_le (p := fi.invalid ≠ 0) (length_num_le (f := 7) 1 (by decide))
  have h10 := length_num_le (f := 10) fi.sequence.toUInt64 (by decide)
  have h13 := length_optional_le (p := fi.blockSize ≠ 0)
    (length_num_le (f := 13) fi.blockSize.toUInt32.toUInt64 (by decide))
  have hblocks := length_blocks_le blocks
  rw [infoBytes, infoFields]
  simp only [List.flatMap_append, List.length_append, List.flatMap_cons, List.flatMap_nil, List.append_nil]
  omega

/-! ## What the writers write -/

/-- The batch holds these records. -/
structure IndexBatch.Holds (b : IndexBatch) (folder : CString 63)
    (items : List (FileInfo × List BlockInfo)) : Prop where
  buf : b.error = false → b.buf = indexBytes folder items
  num : b.num = items.length
  error : b.error = true → items = []

theorem holds_batchBegin (outCap : Nat) (folder : CString 63) :
    (batchBegin outCap folder).Holds folder [] := by
  have h := wrote_folder outCap folder
  rw [batchBegin]
  split
  · exact ⟨fun h => absurd h (by simp), rfl, fun _ => rfl⟩
  · rename_i hok
    rw [Bool.not_eq_true] at hok
    exact ⟨fun _ => h.buf hok, rfl, fun _ => rfl⟩

/-- **Adding.** -/
theorem IndexBatch.Holds.add {b b' : IndexBatch} {folder : CString 63}
    {items : List (FileInfo × List BlockInfo)} (h : b.Holds folder items) {fi : FileInfo}
    {hashes : List Hash} (hadd : batchAdd b fi hashes = some b') :
    b'.Holds folder (items ++ [(fi, blocksOut fi (some hashes))]) := by
  rw [batchAdd] at hadd
  split at hadd
  · simp at hadd
  · rename_i hok
    rw [Bool.not_eq_true] at hok
    obtain ⟨e, he, rfl⟩ := Option.map_eq_some_iff.mp hadd
    refine ⟨fun _ => ?_, ?_, fun herr => absurd (hok.symm.trans herr) (by simp)⟩
    · show b.buf ++ e = _
      rw [h.buf hok, encodeEntry_eq he, indexBytes_concat]
    · show b.num + 1 = _
      rw [h.num, List.length_append]
      rfl

theorem encodeIndexFile_eq {folder : CString 63} {fi : FileInfo} {hashes : List Hash} {cap : Nat}
    {body : Bytes} (h : encodeIndexFile folder fi hashes cap = some body) :
    body = indexBytes folder [(fi, blocksOut fi (some hashes))] := by
  rw [encodeIndexFile] at h
  split at h
  · simp at h
  · rename_i hok
    rw [Bool.not_eq_true] at hok
    obtain ⟨e, he, rfl⟩ := Option.map_eq_some_iff.mp h
    rw [(wrote_folder cap folder).buf hok, encodeEntry_eq he, ← indexBytes_concat]
    rfl

theorem length_folder (folder : CString 63) : (indexBytes folder []).length ≤ 67 := by
  have hshort : folder.bytes.length ≤ 63 := folder.short
  have h := length_data_le (f := 1) folder.bytes (by decide) (by omega)
  simp only [indexBytes, entryFields, List.map_nil, List.flatMap_cons, List.flatMap_nil, List.append_nil]
  omega

/-- The record of a file fits where there is room for its blocks. -/
theorem encodeIndexFile_isSome (folder : CString 63) {fi : FileInfo} {hashes : List Hash} {cap : Nat}
    (hlen : hashes.length ≤ folderMaxBlocks) (hcap : 200000 ≤ cap) :
    (encodeIndexFile folder fi hashes cap).isSome = true := by
  have hfolder := length_folder folder
  have hw := wrote_folder cap folder
  have hok := hw.fits.mpr (by omega)
  have hbody := length_infoBytes_le fi (blocksOut fi (some hashes))
  have hblocks : (blocksOut fi (some hashes)).length = hashes.length := List.length_mapIdx
  have hmax : folderMaxBlocks = 2048 := rfl
  rw [encodeIndexFile, if_neg (by simp [hok]), Option.isSome_map, hw.buf hok]
  exact encodeEntry_isSome (by omega) (by omega)

theorem encodeFileInfo_eq (fi : FileInfo) (hblocks : fi.blocks = []) :
    encodeFileInfo fi indexScratch = some (infoBytes fi []) := by
  have h := wrote_encodeFileInfoBody (Writer.wrote_init indexScratch) fi none
  rw [List.nil_append, show blocksOut fi none = [] from hblocks] at h
  have hlen := length_infoBytes_le fi []
  have hok := h.fits.mpr (Nat.le_trans hlen (by decide))
  rw [encodeFileInfo, if_neg (by simp [hok]), h.buf hok]

theorem encodeIndex_nil (folder : CString 63) (cap : Nat) : encodeIndex folder [] cap =
    if (indexBytes folder []).length ≤ cap then some (indexBytes folder []) else none := by
  have hw := wrote_folder cap folder
  rw [encodeIndex]
  show (if ((Writer.init cap).writeBytes 1 folder.bytes).error then none else _) = _
  exact hw.returned

theorem encodeIndex_single (folder : CString 63) (fi : FileInfo) (hblocks : fi.blocks = []) (cap : Nat) :
    encodeIndex folder [fi] cap =
      if (indexBytes folder [(fi, [])]).length ≤ cap then some (indexBytes folder [(fi, [])]) else none := by
  have hw := (wrote_folder cap folder).writeBytes 2 (infoBytes fi [])
  rw [← indexBytes_concat, List.nil_append] at hw
  rw [encodeIndex, List.foldlM_cons, encodeFileInfo_eq fi hblocks]
  show (if (((Writer.init cap).writeBytes 1 folder.bytes).writeBytes 2 (infoBytes fi [])).error then none
    else _) = _
  exact hw.returned

/-! ## What is read back -/

/-- No more blocks than a file has at most. -/
def Sendable (items : List (FileInfo × List BlockInfo)) : Prop := ∀ x ∈ items, x.2.length ≤ folderMaxBlocks

/-- The lengths that a varint holds. -/
def Readable (items : List (FileInfo × List BlockInfo)) : Prop :=
  ∀ x ∈ items, (infoBytes x.1 x.2).length < 2 ^ 64

theorem Sendable.readable {items : List (FileInfo × List BlockInfo)} (h : Sendable items) :
    Readable items := by
  intro x hx
  have hlen := length_infoBytes_le x.1 x.2
  have hblocks := h x hx
  have hmax : folderMaxBlocks = 2048 := rfl
  omega

theorem iterLoop_entry {fi : FileInfo} {blocks : List BlockInfo} (h : (infoBytes fi blocks).length < 2 ^ 64)
    (fuel : Nat) (rest : Bytes) :
    iterLoop (fuel + 1) ((Field.data 2 (infoBytes fi blocks)).bytes ++ rest) =
      (⟨rest, false⟩, some (fi.received blocks)) := by
  have hread : readBytes ((Field.data 2 (infoBytes fi blocks)).payload ++ rest) =
      some (infoBytes fi blocks, rest) := readBytes_put h rest
  rw [iterLoop, Field.bytes, List.append_assoc, readTag_put]
  dsimp only
  rw [if_pos ⟨rfl, rfl⟩, hread]
  dsimp only
  rw [decodeFileInfoCb_fields fi blocks h]

theorem iterLoop_folder (folder : CString 63) (fuel : Nat) (rest : Bytes) :
    iterLoop (fuel + 1) ((Field.data 1 folder.bytes).bytes ++ rest) = iterLoop fuel rest := by
  have hsized : (Field.data 1 folder.bytes).Sized :=
    Nat.lt_of_le_of_lt folder.short (by decide)
  have hread := readValue_payload hsized rest
  rw [iterLoop, Field.bytes, List.append_assoc, readTag_put]
  dsimp only
  rw [if_neg (by simp [Field.number]), hread]

theorem iterNext_of_ne_nil {b : Bytes} (h : b ≠ []) : iterNext ⟨b, false⟩ = iterLoop b.length b := by
  rw [iterNext, if_neg (by simpa using h)]

/-- **Records.** -/
theorem iterAll_entries {items : List (FileInfo × List BlockInfo)} (h : Readable items) {fuel : Nat}
    (hfuel : items.length < fuel) :
    iterAll fuel ⟨(entryFields items).flatMap Field.bytes, false⟩ =
      (items.map fun x => x.1.received x.2, false) := by
  induction items generalizing fuel with
  | nil =>
    cases fuel with
    | zero => rfl
    | succ fuel => rfl
  | cons x items ih =>
    cases fuel with
    | zero => exact absurd hfuel (Nat.not_lt_zero _)
    | succ fuel =>
      have hne : (entryFields (x :: items)).flatMap Field.bytes ≠ [] := by
        rw [entryFields, List.map_cons, List.flatMap_cons]
        simp [Field.bytes_ne_nil]
      have hlen : ∃ k, ((entryFields (x :: items)).flatMap Field.bytes).length = k + 1 :=
        Nat.exists_eq_add_one.mpr (List.length_pos_of_ne_nil hne)
      obtain ⟨k, hk⟩ := hlen
      have hnext : iterNext ⟨(entryFields (x :: items)).flatMap Field.bytes, false⟩ =
          (⟨(entryFields items).flatMap Field.bytes, false⟩, some (x.1.received x.2)) := by
        rw [iterNext_of_ne_nil hne, hk]
        exact iterLoop_entry (h x List.mem_cons_self) k _
      rw [iterAll, hnext]
      dsimp only
      rw [ih (fun y hy => h y (List.mem_cons_of_mem _ hy)) (Nat.lt_of_succ_lt_succ hfuel)]
      rfl

/-- **Reading an Index.** Every record that was written, and the folder. -/
theorem readIndex_of_readable (folder : CString 63) {items : List (FileInfo × List BlockInfo)}
    (h : Readable items) :
    readIndex (indexBytes folder items) = (items.map fun x => x.1.received x.2, false) ∧
      indexFolder (indexBytes folder items) = folder := by
  have hsplit : indexBytes folder items =
      (Field.data 1 folder.bytes).bytes ++ (entryFields items).flatMap Field.bytes := by
    rw [indexBytes, List.flatMap_cons]
  have hne : indexBytes folder items ≠ [] := by
    rw [hsplit]
    simp [Field.bytes_ne_nil]
  have hlen := length_le_flatMap (entryFields items)
  have hpos : 0 < (Field.data 1 folder.bytes).bytes.length :=
    List.length_pos_of_ne_nil (Field.bytes_ne_nil _)
  have hcount : (entryFields items).length = items.length := List.length_map _
  obtain ⟨k, hk⟩ : ∃ k, (indexBytes folder items).length = k + 1 :=
    Nat.exists_eq_add_one.mpr (List.length_pos_of_ne_nil hne)
  have hk' : items.length ≤ k := by
    rw [hsplit, List.length_append] at hk
    omega
  constructor
  · rw [readIndex, iterAll, iterNext_of_ne_nil hne, hk, hsplit, iterLoop_folder]
    cases items with
    | nil =>
      cases k with
      | zero => rfl
      | succ k => rfl
    | cons x items =>
      obtain ⟨j, rfl⟩ : ∃ j, k = j + 1 := Nat.exists_eq_add_one.mpr (Nat.lt_of_lt_of_le (Nat.succ_pos _) hk')
      have hentry : iterLoop (j + 1) ((entryFields (x :: items)).flatMap Field.bytes) =
          (⟨(entryFields items).flatMap Field.bytes, false⟩, some (x.1.received x.2)) :=
        iterLoop_entry (h x List.mem_cons_self) j _
      rw [hentry]
      dsimp only
      rw [iterAll_entries (fun y hy => h y (List.mem_cons_of_mem _ hy))
        (Nat.lt_of_lt_of_le (Nat.lt_succ_self _) (Nat.le_succ_of_le hk'))]
      rfl
  · have hread : readBytes ((Field.data 1 folder.bytes).payload ++ (entryFields items).flatMap Field.bytes) =
        some (folder.bytes, (entryFields items).flatMap Field.bytes) :=
      readBytes_put (Nat.lt_of_le_of_lt folder.short (by decide)) _
    rw [indexFolder, hk, hsplit, indexFolderFrom, Field.bytes, List.append_assoc, readTag_put]
    dsimp only
    rw [if_pos ⟨rfl, rfl⟩, hread]
    exact CString.ofBytes_bytes folder

theorem readIndex_indexBytes (folder : CString 63) {items : List (FileInfo × List BlockInfo)}
    (h : Sendable items) :
    readIndex (indexBytes folder items) = (items.map fun x => x.1.received x.2, false) ∧
      indexFolder (indexBytes folder items) = folder :=
  readIndex_of_readable folder h.readable

end Bep

end Amisync

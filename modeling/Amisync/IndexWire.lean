import Amisync.Batch
import Amisync.Lib.Buffer
import Mathlib.Algebra.Order.Ring.Int

/-!
# Index messages in the buffer (`bep.c`)

Two of the three writers of an Index put a record into the rest of the buffer,
move it up by the length of its head, and put the head before it. A record that
does not fit leaves its bytes behind the end of what is written.

* `entryInPlace`: the record, the move and the head, in the caller's buffer.
* `entryInPlace_fits`, `entryInPlace_refused`: what is in the buffer afterwards.
* `BatchBuf`: a batch in its buffer. `holds_addAll`: what any calls leave in it.
* `encodeIndex_eq`: the writer that takes its blocks from the records.
* `extBlock_geometry`: where the blocks of a file lie.
* `index_round_trip`: what the iterator makes of what each of them wrote.
-/

namespace Amisync

open Pbuf

namespace Bep

/-! ## A record in the buffer -/

/-- A record and its hashes, where they are kept elsewhere. -/
abbrev Outgoing := FileInfo × Option (List Hash)

/-- The record with the blocks that it is sent with. -/
def sentInfo (x : Outgoing) : FileInfo := { x.1 with blocks := blocksOut x.1 x.2 }

def entryBytes (x : Outgoing) : Bytes := (Field.data 2 (infoBytes x.1 (blocksOut x.1 x.2))).bytes

/-- The buffer after the attempt, and the bytes it has added. -/
def entryInPlace (mem : Bytes) (used : Nat) (x : Outgoing) : Bytes × Option Nat :=
  let fw := encodeFileInfoBody (Writer.init (mem.length - used)) x.1 x.2
  let mem := Buffer.write mem used fw.buf
  if fw.error then (mem, none)
  else
    let pw := entryHead fw.buf.length
    if pw.error then (mem, none)
    else if mem.length < used + pw.buf.length + fw.buf.length then (mem, none)
    else
      let mem := Buffer.write mem (used + pw.buf.length) (Buffer.read mem used fw.buf.length)
      (Buffer.write mem used pw.buf, some (pw.buf.length + fw.buf.length))

/-- `bep_encode_index_file`: the buffer, and the length of what it holds. -/
def encodeIndexFileBuf (mem : Bytes) (folder : CString 63) (x : Outgoing) : Bytes × Option Nat :=
  let w := (Writer.init mem.length).writeBytes 1 folder.bytes
  let mem := Buffer.write mem 0 w.buf
  if w.error then (mem, none)
  else
    let r := entryInPlace mem w.buf.length x
    (r.1, r.2.map fun n => w.buf.length + n)

/-- The batch and its buffer. -/
structure BatchBuf where
  mem : Bytes
  len : Nat
  num : Nat
  error : Bool

namespace BatchBuf

/-- `bep_index_batch_begin` -/
def start (out : Bytes) (folder : CString 63) : BatchBuf :=
  let w := (Writer.init out.length).writeBytes 1 folder.bytes
  let mem := Buffer.write out 0 w.buf
  if w.error then ⟨mem, 0, 0, true⟩ else ⟨mem, w.buf.length, 0, false⟩

/-- `bep_index_batch_add` -/
def add (b : BatchBuf) (x : Outgoing) : BatchBuf × Bool :=
  if b.error then (b, false)
  else match entryInPlace b.mem b.len x with
    | (mem, none) => ({ b with mem := mem }, false)
    | (mem, some n) => ({ b with mem := mem, len := b.len + n, num := b.num + 1 }, true)

/-- What is sent of it. -/
def body (b : BatchBuf) : Bytes := b.mem.take b.len

/-- Any calls of `bep_index_batch_add`, and the records that were taken. -/
def addAll (b : BatchBuf) : List Outgoing → BatchBuf × List Outgoing
  | [] => (b, [])
  | x :: xs =>
    let r := b.add x
    let q := addAll r.1 xs
    (q.1, if r.2 then x :: q.2 else q.2)

end BatchBuf

/-! ## What an attempt leaves in the buffer -/

section Entry
variable {mem : Bytes} {used : Nat} {x : Outgoing}

theorem bounded_encodeFileInfoBody {w : Writer} (h : w.Bounded) (fi : FileInfo)
    (ext : Option (List Hash)) : (encodeFileInfoBody w fi ext).Bounded := by
  have h1 := h.writeBytes 1 fi.name.bytes
  have h2 := Writer.Bounded.optional (p := fi.type ≠ 0) h1 (h1.writeUint64 2 fi.type.toUInt32.toUInt64)
  have h3 := h2.writeUint64 3 fi.size.toUInt64
  have h4 := Writer.Bounded.optional (p := fi.permissions ≠ 0) h3
    (h3.writeUint64 4 fi.permissions.toUInt64)
  have h5 := h4.writeUint64 5 fi.modifiedS.toUInt64
  have h6 := Writer.Bounded.optional (p := fi.modifiedNs ≠ 0) h5
    (h5.writeUint64 11 fi.modifiedNs.toUInt32.toUInt64)
  have h7 := Writer.Bounded.optional (p := fi.modifiedBy ≠ 0) h6 (h6.writeUint64 12 fi.modifiedBy)
  have h8 := Writer.Bounded.optional (p := fi.deleted ≠ 0) h7 (h7.writeUint64 6 1)
  have h9 := Writer.Bounded.optional (p := fi.invalid ≠ 0) h8 (h8.writeUint64 7 1)
  have h10 : (encodeVector _ fi.version).Bounded := h9.writeMessage 9 _
  have h11 := h10.writeUint64 10 fi.sequence.toUInt64
  have h12 := Writer.Bounded.optional (p := fi.blockSize ≠ 0) h11
    (h11.writeUint64 13 fi.blockSize.toUInt32.toUInt64)
  have hblocks : ∀ (l : List BlockInfo) {v : Writer}, v.Bounded → (l.foldl encodeBlock v).Bounded := by
    intro l
    induction l with
    | nil => exact fun hv => hv
    | cons b l ih => exact fun hv => ih (hv.writeMessage 16 _)
  exact hblocks (blocksOut fi ext) h12

theorem entryBytes_eq (x : Outgoing) :
    entryBytes x = (Varint.put (tagOf 2 wtLen) ++
      Varint.put (UInt64.ofNat (infoBytes x.1 (blocksOut x.1 x.2)).length)) ++
      infoBytes x.1 (blocksOut x.1 x.2) := by
  rw [entryBytes, Field.bytes, Field.payload, ← List.append_assoc]
  rfl

variable (mem used x) in
/-- **A record that fits.** -/
theorem entryInPlace_fits (hcap : mem.length < 2 ^ 31)
    (hfit : used + (entryBytes x).length ≤ mem.length) :
    ∃ mem', entryInPlace mem used x = (mem', some (entryBytes x).length) ∧
      mem'.length = mem.length ∧
      mem'.take (used + (entryBytes x).length) = mem.take used ++ entryBytes x := by
  have hbody := wrote_encodeFileInfoBody (Writer.wrote_init (mem.length - used)) x.1 x.2
  rw [List.nil_append] at hbody
  have heq := entryBytes_eq x
  have hlen := congrArg List.length heq
  rw [List.length_append, List.length_append] at hlen
  have hok := hbody.fits.mpr (by omega)
  obtain ⟨hhead, hbuf⟩ := entryHead_buf (n := (infoBytes x.1 (blocksOut x.1 x.2)).length) (by omega)
  have hheadLen := congrArg List.length hbuf
  rw [List.length_append] at hheadLen
  have hmem : (Buffer.write mem used (infoBytes x.1 (blocksOut x.1 x.2))).length = mem.length :=
    Buffer.length_write (by omega)
  obtain ⟨hsame, htake⟩ := Buffer.shift mem used
    (entryHead (infoBytes x.1 (blocksOut x.1 x.2)).length).buf
    (infoBytes x.1 (blocksOut x.1 x.2)) (by omega)
  unfold entryInPlace
  simp only [hok, hbody.buf hok, hhead, hmem, Bool.false_eq_true, if_false]
  rw [if_neg (by omega)]
  have hcat : (entryHead (infoBytes x.1 (blocksOut x.1 x.2)).length).buf ++
      infoBytes x.1 (blocksOut x.1 x.2) = entryBytes x := by rw [hbuf, heq]
  have hsum := congrArg List.length hcat
  rw [List.length_append] at hsum
  rw [hsum, hcat] at htake
  rw [hsum]
  exact ⟨_, rfl, hsame, htake⟩

variable (mem used x) in
/-- **A record that does not fit.** What was written before is as it was. -/
theorem entryInPlace_refused (hcap : mem.length < 2 ^ 31) (hused : used ≤ mem.length)
    (hfull : mem.length < used + (entryBytes x).length) :
    ∃ mem', entryInPlace mem used x = (mem', none) ∧ mem'.length = mem.length ∧
      mem'.take used = mem.take used := by
  have hbody := wrote_encodeFileInfoBody (Writer.wrote_init (mem.length - used)) x.1 x.2
  rw [List.nil_append] at hbody
  have hbound : (encodeFileInfoBody (Writer.init (mem.length - used)) x.1 x.2).buf.length ≤
      mem.length - used := by
    have hb := bounded_encodeFileInfoBody (Writer.bounded_init (mem.length - used)) x.1 x.2
    exact le_of_le_of_eq hb hbody.room
  have hmem := Buffer.length_write (m := mem) (i := used)
    (d := (encodeFileInfoBody (Writer.init (mem.length - used)) x.1 x.2).buf) (by omega)
  refine ⟨_, ?_, hmem, Buffer.take_write (Nat.le_refl _) hused⟩
  unfold entryInPlace
  dsimp only
  split
  · rfl
  · rename_i hok
    rw [Bool.not_eq_true] at hok
    have hle := hbody.fits.mp hok
    have hlen := congrArg List.length (entryBytes_eq x)
    rw [List.length_append, List.length_append] at hlen
    obtain ⟨hhead, hbuf⟩ := entryHead_buf (n := (infoBytes x.1 (blocksOut x.1 x.2)).length) (by omega)
    have hheadLen := congrArg List.length hbuf
    rw [List.length_append] at hheadLen
    rw [hmem, hbody.buf hok, hhead, if_neg (by simp), if_pos (by omega)]

end Entry

/-! ## A batch in its buffer -/

/-- The fields that an Index with these records has. -/
def outItems (xs : List Outgoing) : List (FileInfo × List BlockInfo) :=
  xs.map fun x => (x.1, blocksOut x.1 x.2)

theorem indexBytes_snoc (folder : CString 63) (xs : List Outgoing) (x : Outgoing) :
    indexBytes folder (outItems (xs ++ [x])) = indexBytes folder (outItems xs) ++ entryBytes x := by
  rw [outItems, List.map_append]
  exact indexBytes_concat folder (outItems xs) x.1 (blocksOut x.1 x.2)

namespace BatchBuf
variable {b : BatchBuf} {cap : Nat} {folder : CString 63} {xs : List Outgoing} {x : Outgoing}

/-- The batch is sound and holds these records. -/
structure Holds (b : BatchBuf) (cap : Nat) (folder : CString 63) (xs : List Outgoing) : Prop where
  room : b.mem.length = cap
  error : b.error = false
  len : b.len = (indexBytes folder (outItems xs)).length
  body : b.body = indexBytes folder (outItems xs)
  num : b.num = xs.length

theorem Holds.fits (h : b.Holds cap folder xs) : b.len ≤ cap := by
  have hlen := congrArg List.length h.body
  rw [BatchBuf.body, List.length_take, ← h.len, h.room] at hlen
  omega

/-- The folder alone. -/
theorem start_holds (out : Bytes) (folder : CString 63)
    (hfit : (indexBytes folder []).length ≤ out.length) :
    (start out folder).Holds out.length folder [] := by
  have hw := wrote_folder out.length folder
  have hok := hw.fits.mpr hfit
  have hbuf := hw.buf hok
  have htake := Buffer.take_write_end (m := out) (d := indexBytes folder []) (Nat.zero_le out.length)
  rw [Nat.zero_add, List.take_zero, List.nil_append] at htake
  unfold start
  simp only [hok, hbuf, Bool.false_eq_true, if_false]
  exact ⟨Buffer.length_write (by omega), rfl, rfl, htake, rfl⟩

theorem start_error (out : Bytes) (folder : CString 63)
    (hfull : out.length < (indexBytes folder []).length) : (start out folder).error = true := by
  have hw := wrote_folder out.length folder
  unfold start
  dsimp only
  split
  · rfl
  · rename_i hok
    rw [Bool.not_eq_true] at hok
    exact absurd (hw.fits.mp hok) (by omega)

/-- A record that fits is taken. -/
theorem Holds.add (h : b.Holds cap folder xs) (hcap : cap < 2 ^ 31)
    (hfit : b.len + (entryBytes x).length ≤ cap) :
    ∃ b', b.add x = (b', true) ∧ b'.Holds cap folder (xs ++ [x]) := by
  obtain ⟨mem', he, hlen, htake⟩ := entryInPlace_fits b.mem b.len x
    (by rw [h.room]; exact hcap) (by rw [h.room]; exact hfit)
  refine ⟨_, by rw [BatchBuf.add, if_neg (by simp [h.error]), he], ?_⟩
  have hbody : mem'.take (b.len + (entryBytes x).length) = indexBytes folder (outItems (xs ++ [x])) := by
    rw [htake, show b.mem.take b.len = _ from h.body, indexBytes_snoc]
  refine ⟨hlen.trans h.room, h.error, ?_, hbody, ?_⟩
  · show b.len + (entryBytes x).length = _
    rw [indexBytes_snoc, List.length_append, h.len]
  · show b.num + 1 = _
    rw [h.num, List.length_append]
    rfl

/-- **A refusal.** One that does not fit is refused, and the batch is as it was. -/
theorem Holds.refuse (h : b.Holds cap folder xs) (hcap : cap < 2 ^ 31)
    (hfull : cap < b.len + (entryBytes x).length) :
    ∃ b', b.add x = (b', false) ∧ b'.len = b.len ∧ b'.Holds cap folder xs := by
  obtain ⟨mem', he, hlen, htake⟩ := entryInPlace_refused b.mem b.len x
    (by rw [h.room]; exact hcap) (by rw [h.room]; exact h.fits) (by rw [h.room]; exact hfull)
  refine ⟨{ b with mem := mem' }, by rw [BatchBuf.add, if_neg (by simp [h.error]), he], rfl, ?_⟩
  exact ⟨hlen.trans h.room, h.error, h.len, htake.trans h.body, h.num⟩

/-- **Any calls.** -/
theorem holds_addAll (hcap : cap < 2 ^ 31) (ys : List Outgoing) (h : b.Holds cap folder xs) :
    (b.addAll ys).1.Holds cap folder (xs ++ (b.addAll ys).2) := by
  induction ys generalizing b xs with
  | nil =>
    rw [addAll, List.append_nil]
    exact h
  | cons y ys ih =>
    rw [addAll]
    rcases Nat.lt_or_ge cap (b.len + (entryBytes y).length) with hfull | hfit
    · obtain ⟨b', hb, -, hold⟩ := h.refuse hcap hfull
      rw [hb]
      exact ih hold
    · obtain ⟨b', hb, hold⟩ := h.add hcap hfit
      rw [hb]
      have hrest := ih hold
      rw [← List.append_cons] at hrest
      exact hrest

/-- Nothing is taken by a batch that could not be begun. -/
theorem addAll_error (h : b.error = true) (ys : List Outgoing) : b.addAll ys = (b, []) := by
  induction ys with
  | nil => rfl
  | cons y ys ih =>
    rw [addAll, show b.add y = (b, false) from by rw [BatchBuf.add, if_pos h]]
    dsimp only
    rw [ih]
    rfl

theorem mem_of_mem_addAll (b : BatchBuf) {ys : List Outgoing} (hx : x ∈ (b.addAll ys).2) : x ∈ ys := by
  induction ys generalizing b with
  | nil => exact hx
  | cons y ys ih =>
    rw [BatchBuf.addAll] at hx
    dsimp only at hx
    split at hx
    · rcases List.mem_cons.mp hx with rfl | hx
      · exact List.mem_cons_self
      · exact List.mem_cons_of_mem _ (ih _ hx)
    · exact List.mem_cons_of_mem _ (ih _ hx)

/-- A batch that is sound after any calls holds what they have put into it. -/
theorem holds_of_addAll {out : Bytes} (hout : out.length < 2 ^ 31) (ys : List Outgoing)
    (hok : ((start out folder).addAll ys).1.error = false) :
    ((start out folder).addAll ys).1.Holds out.length folder ((start out folder).addAll ys).2 := by
  rcases Nat.lt_or_ge out.length (indexBytes folder []).length with hfull | hfit
  · have herr := start_error out folder hfull
    rw [addAll_error herr] at hok
    exact absurd (herr.symm.trans hok) (by simp)
  · exact holds_addAll hout ys (start_holds out folder hfit)

/-- What one more call does. -/
theorem Holds.add_spec (h : b.Holds cap folder xs) (hcap : cap < 2 ^ 31) (x : Outgoing) :
    ((b.add x).2 = true ↔ b.len + (entryBytes x).length ≤ cap) ∧
      ((b.add x).2 = false → (b.add x).1.len = b.len ∧ (b.add x).1.num = b.num ∧
        (b.add x).1.mem.take b.len = b.mem.take b.len) := by
  rcases Nat.lt_or_ge cap (b.len + (entryBytes x).length) with hno | hyes
  · obtain ⟨b', hb, hlen, hold⟩ := h.refuse hcap hno
    rw [hb]
    refine ⟨⟨fun h => absurd h (by simp), fun h => absurd h (by omega)⟩,
      fun _ => ⟨hlen, hold.num.trans h.num.symm, ?_⟩⟩
    have hbody := hold.body.trans h.body.symm
    rw [BatchBuf.body, hlen] at hbody
    exact hbody
  · obtain ⟨b', hb, -⟩ := h.add hcap hyes
    rw [hb]
    exact ⟨⟨fun _ => hyes, fun _ => rfl⟩, fun h => absurd h (by simp)⟩

end BatchBuf

/-! ## One record, and all at once -/

/-- What a writer leaves in the buffer. -/
def written (r : Bytes × Option Nat) : Option Bytes := r.2.map fun n => r.1.take n

/-- **One record.** -/
theorem written_encodeIndexFileBuf (mem : Bytes) (folder : CString 63) (x : Outgoing)
    (hcap : mem.length < 2 ^ 31) :
    written (encodeIndexFileBuf mem folder x) =
      if (indexBytes folder (outItems [x])).length ≤ mem.length then
        some (indexBytes folder (outItems [x]))
      else none := by
  have hw := wrote_folder mem.length folder
  have hsnoc : indexBytes folder (outItems [x]) = indexBytes folder [] ++ entryBytes x :=
    indexBytes_snoc folder [] x
  have hlen := congrArg List.length hsnoc
  rw [List.length_append] at hlen
  unfold encodeIndexFileBuf
  dsimp only
  split
  · rename_i herr
    rw [if_neg fun hle => absurd (hw.fits.mpr (by omega)) (by simp [herr])]
    rfl
  · rename_i hok
    rw [Bool.not_eq_true] at hok
    have hfit := hw.fits.mp hok
    rw [hw.buf hok]
    have hmem := Buffer.length_write (m := mem) (i := 0) (d := indexBytes folder []) (by omega)
    have hstart := Buffer.take_write_end (m := mem) (d := indexBytes folder []) (Nat.zero_le mem.length)
    rw [Nat.zero_add, List.take_zero, List.nil_append] at hstart
    split
    · rename_i hle
      obtain ⟨mem', he, -, htake⟩ := entryInPlace_fits
        (Buffer.write mem 0 (indexBytes folder [])) (indexBytes folder []).length x
        (hmem.trans_lt hcap) (by rw [hmem]; omega)
      rw [he, written, Option.map_some, Option.map_some]
      dsimp only
      rw [htake, hstart, hsnoc]
    · rename_i hgt
      obtain ⟨mem', he, -⟩ := entryInPlace_refused
        (Buffer.write mem 0 (indexBytes folder [])) (indexBytes folder []).length x
        (hmem.trans_lt hcap) (by rw [hmem]; omega) (by rw [hmem]; omega)
      rw [he]
      rfl

def bepMaxBlocks : Nat := 16

/-- A record with the blocks it can hold itself fits the scratch buffer. -/
theorem encodeFileInfo_blocks {fi : FileInfo} (h : fi.blocks.length ≤ bepMaxBlocks) :
    encodeFileInfo fi indexScratch = some (infoBytes fi fi.blocks) := by
  have hw := wrote_encodeFileInfoBody (Writer.wrote_init indexScratch) fi none
  rw [List.nil_append, show blocksOut fi none = fi.blocks from rfl] at hw
  have hlen := length_infoBytes_le fi fi.blocks
  have hscratch : 800 + 60 * bepMaxBlocks ≤ indexScratch := by decide
  exact hw.returned.trans (if_pos (by omega))

/-- **All at once.** -/
theorem encodeIndex_eq (folder : CString 63) {files : List FileInfo} (cap : Nat)
    (h : ∀ fi ∈ files, fi.blocks.length ≤ bepMaxBlocks) :
    encodeIndex folder files cap =
      if (indexBytes folder (files.map fun fi => (fi, fi.blocks))).length ≤ cap then
        some (indexBytes folder (files.map fun fi => (fi, fi.blocks)))
      else none := by
  have hrun : ∀ (files : List FileInfo) (w : Writer) (x : Bytes),
      (∀ fi ∈ files, fi.blocks.length ≤ bepMaxBlocks) → Writer.Wrote cap w x →
      ∃ w', files.foldlM (fun w fi => (encodeFileInfo fi indexScratch).map fun b => w.writeBytes 2 b) w =
        some w' ∧ Writer.Wrote cap w' (x ++
          (entryFields (files.map fun fi => (fi, fi.blocks))).flatMap Field.bytes) := by
    intro files
    induction files with
    | nil => exact fun w x _ hw => ⟨w, rfl, by simpa [entryFields] using hw⟩
    | cons fi files ih =>
      intro w x hb hw
      obtain ⟨w', hf, hw'⟩ := ih _ _ (fun g hg => hb g (List.mem_cons_of_mem _ hg))
        (hw.writeBytes 2 (infoBytes fi fi.blocks))
      refine ⟨w', ?_, ?_⟩
      · rw [List.foldlM_cons, encodeFileInfo_blocks (hb fi List.mem_cons_self)]
        exact hf
      · rw [List.append_assoc] at hw'
        exact hw'
  obtain ⟨w', hf, hw⟩ := hrun files _ _ h (wrote_folder cap folder)
  have hbytes : indexBytes folder [] ++
      (entryFields (files.map fun fi => (fi, fi.blocks))).flatMap Field.bytes =
      indexBytes folder (files.map fun fi => (fi, fi.blocks)) := by
    simp [indexBytes, entryFields]
  rw [hbytes] at hw
  rw [encodeIndex, hf, Option.bind_some]
  exact hw.returned

/-! ## What the iterator makes of it -/

/-- C truth values that are 0 or 1. -/
def FileInfo.Flags (fi : FileInfo) : Prop :=
  (fi.deleted = 0 ∨ fi.deleted = 1) ∧ (fi.invalid = 0 ∨ fi.invalid = 1)

instance (fi : FileInfo) : Decidable fi.Flags := inferInstanceAs (Decidable (_ ∧ _))

theorem received_of_flags {fi : FileInfo} (h : fi.Flags) (blocks : List BlockInfo) :
    fi.received blocks = { fi with blocks := blocks } := by
  have htruth : ∀ v : Int32, v = 0 ∨ v = 1 → truth v = v := by
    rintro v (rfl | rfl) <;> rfl
  rw [FileInfo.received, htruth _ h.1, htruth _ h.2]

/-- Lengths that an Index of bounded length has. -/
theorem readable_of_length {folder : CString 63} {items : List (FileInfo × List BlockInfo)}
    (h : (indexBytes folder items).length < 2 ^ 64) : Readable items := fun x hx =>
  sized_of_length h (.data 2 (infoBytes x.1 x.2))
    (List.mem_cons_of_mem _ (List.mem_map.mpr ⟨x, hx, rfl⟩))

/-- **Reading.** -/
theorem read_outItems {folder : CString 63} {xs : List Outgoing}
    (hlen : (indexBytes folder (outItems xs)).length < 2 ^ 31) (hflags : ∀ x ∈ xs, x.1.Flags) :
    indexFolder (indexBytes folder (outItems xs)) = folder ∧
      readIndex (indexBytes folder (outItems xs)) = (xs.map sentInfo, false) := by
  obtain ⟨hread, hfolder⟩ := readIndex_of_readable folder
    (readable_of_length (Nat.lt_trans hlen (by decide)))
  refine ⟨hfolder, hread.trans ?_⟩
  rw [outItems, List.map_map]
  refine congrArg (·, false) (List.map_congr_left fun x hx => ?_)
  exact received_of_flags (hflags x hx) _

/-! ## Where the blocks lie -/

/-- **Geometry.** -/
theorem extBlock_geometry {fi : FileInfo} (hbs : 0 < fi.blockSize.toInt) {i : Nat}
    (hi : (i : Int) * fi.blockSize.toInt ≤ fi.size.toInt) (h : Hash) :
    (extBlock fi i h).offset.toInt = i * fi.blockSize.toInt ∧
      (extBlock fi i h).size.toInt = min fi.blockSize.toInt (fi.size.toInt - i * fi.blockSize.toInt) ∧
      (extBlock fi i h).hash = some h := by
  have hsize := fi.size.toInt_lt
  have hbs32 := fi.blockSize.toInt_lt
  have hne : fi.blockSize ≠ 0 := by
    intro h0
    rw [h0] at hbs
    exact absurd hbs (by decide)
  have hile : (i : Int) ≤ i * fi.blockSize.toInt :=
    le_mul_of_one_le_right (Int.natCast_nonneg i) hbs
  have hoff : (Int64.ofNat i * fi.blockSize.toInt64).toInt = i * fi.blockSize.toInt := by
    rw [Int64.toInt_mul, Int64.toInt_ofNat_of_lt (by omega), Int32.toInt_toInt64]
    exact Int.bmod_eq_of_le (by omega) (by omega)
  have hleft : (fi.size - Int64.ofNat i * fi.blockSize.toInt64).toInt =
      fi.size.toInt - i * fi.blockSize.toInt := by
    rw [Int64.toInt_sub, hoff]
    exact Int.bmod_eq_of_le (by omega) (by omega)
  unfold extBlock
  simp only [if_pos hne]
  refine ⟨hoff, ?_, trivial⟩
  split
  · rename_i hgt
    have hlt := Int64.lt_iff_toInt_lt.mp hgt
    rw [hleft, Int32.toInt_toInt64] at hlt
    rw [Int64.toInt_toInt32, Int32.toInt_toInt64, min_eq_left hlt.le]
    exact Int.bmod_eq_of_le (by omega) (by omega)
  · rename_i hle
    have hge : fi.size.toInt - i * fi.blockSize.toInt ≤ fi.blockSize.toInt := by
      rw [← hleft, ← Int32.toInt_toInt64]
      exact not_lt.mp fun hlt => hle (Int64.lt_iff_toInt_lt.mpr hlt)
    rw [Int64.toInt_toInt32, hleft, min_eq_right hge]
    exact Int.bmod_eq_of_le (by omega) (by omega)

/-! ## The main result -/

/-- An Index with this folder and exactly these records; the iterator ends without an error. -/
def Reads (body : Bytes) (folder : CString 63) (infos : List FileInfo) : Prop :=
  indexFolder body = folder ∧ readIndex body = (infos, false)

theorem encodeIndex_reads {folder : CString 63} {files : List FileInfo} {cap : Nat} {body : Bytes}
    (hcap : cap < 2 ^ 31) (hfiles : ∀ fi ∈ files, fi.Flags ∧ fi.blocks.length ≤ bepMaxBlocks)
    (h : encodeIndex folder files cap = some body) : Reads body folder files := by
  obtain ⟨rfl, hle⟩ := Writer.returned_eq (encodeIndex_eq folder cap fun fi hfi => (hfiles fi hfi).2) h
  have hitems : (files.map fun fi => (fi, fi.blocks)) = outItems (files.map fun fi => (fi, none)) := by
    rw [outItems, List.map_map]
    rfl
  have hflags : ∀ x ∈ files.map fun fi => ((fi, none) : Outgoing), x.1.Flags := by
    intro x hx
    obtain ⟨fi, hfi, rfl⟩ := List.mem_map.mp hx
    exact (hfiles fi hfi).1
  rw [hitems] at hle ⊢
  obtain ⟨hfolder, hinfos⟩ := read_outItems (Nat.lt_of_le_of_lt hle hcap) hflags
  rw [List.map_map] at hinfos
  exact ⟨hfolder, hinfos.trans (congrArg (·, false) (List.map_id files))⟩

theorem encodeIndexFileBuf_reads {folder : CString 63} {x : Outgoing} {mem body : Bytes}
    (hmem : mem.length < 2 ^ 31) (hflags : x.1.Flags)
    (h : written (encodeIndexFileBuf mem folder x) = some body) : Reads body folder [sentInfo x] := by
  obtain ⟨rfl, hle⟩ := Writer.returned_eq (written_encodeIndexFileBuf mem folder x hmem) h
  exact read_outItems (Nat.lt_of_le_of_lt hle hmem) fun y hy => List.mem_singleton.mp hy ▸ hflags

/-- A batch after any calls, all of them on records with proper flags. -/
theorem reads_addAll {out : Bytes} {folder : CString 63} (hout : out.length < 2 ^ 31)
    {xs : List Outgoing} (hflags : ∀ x ∈ xs, x.1.Flags)
    (hok : ((BatchBuf.start out folder).addAll xs).1.error = false) :
    Reads ((BatchBuf.start out folder).addAll xs).1.body folder
      (((BatchBuf.start out folder).addAll xs).2.map sentInfo) := by
  have h := BatchBuf.holds_of_addAll hout xs hok
  have hlen := h.fits
  rw [h.len] at hlen
  rw [h.body]
  exact read_outItems (Nat.lt_of_le_of_lt hlen hout) fun x hx =>
    hflags x (BatchBuf.mem_of_mem_addAll _ hx)

/-- A batch of one record is what `bep_encode_index_file` writes. -/
theorem batch_of_one {out mem : Bytes} (folder : CString 63) (x : Outgoing)
    (hsame : mem.length = out.length) (hout : out.length < 2 ^ 31) :
    written (encodeIndexFileBuf mem folder x) =
      (let r := (BatchBuf.start out folder).add x
       if r.2 then some r.1.body else none) := by
  rw [written_encodeIndexFileBuf mem folder x (hsame.trans_lt hout), hsame]
  have hsnoc : indexBytes folder (outItems [x]) = indexBytes folder [] ++ entryBytes x :=
    indexBytes_snoc folder [] x
  have hlen := congrArg List.length hsnoc
  rw [List.length_append] at hlen
  rcases Nat.lt_or_ge out.length (indexBytes folder []).length with hfull | hfit
  · have herr := BatchBuf.start_error out folder hfull
    rw [if_neg (by omega), BatchBuf.add, if_pos herr]
    rfl
  · have h := BatchBuf.start_holds out folder hfit
    have hstart : (BatchBuf.start out folder).len = (indexBytes folder []).length := h.len
    rcases Nat.lt_or_ge out.length
        ((BatchBuf.start out folder).len + (entryBytes x).length) with hno | hyes
    · obtain ⟨b', hb, -⟩ := h.refuse hout hno
      rw [hb, if_neg (by omega)]
      rfl
    · obtain ⟨b', hb, hold⟩ := h.add hout hyes
      rw [hb, if_pos (by omega)]
      exact congrArg some hold.body.symm

/-- **Index messages.** Each of the three writers succeeds where its bytes fit, and what it has
written is read as the folder and the records. The blocks of a record whose hashes are kept
elsewhere lie one behind the other. A refused record leaves the batch as it was, and a batch of one
record is what the writer of one record writes. -/
theorem index_round_trip (folder : CString 63) :
    (∀ (files : List FileInfo) (cap : Nat), cap < 2 ^ 31 →
      (∀ fi ∈ files, fi.Flags ∧ fi.blocks.length ≤ bepMaxBlocks) →
      ((encodeIndex folder files cap).isSome ↔
        (indexBytes folder (files.map fun fi => (fi, fi.blocks))).length ≤ cap) ∧
      ∀ body, encodeIndex folder files cap = some body → Reads body folder files) ∧
    (∀ (x : Outgoing) (mem : Bytes), mem.length < 2 ^ 31 → x.1.Flags →
      ((written (encodeIndexFileBuf mem folder x)).isSome ↔
        (indexBytes folder (outItems [x])).length ≤ mem.length) ∧
      ∀ body, written (encodeIndexFileBuf mem folder x) = some body →
        Reads body folder [sentInfo x]) ∧
    (∀ (out : Bytes) (xs : List Outgoing), out.length < 2 ^ 31 → (∀ x ∈ xs, x.1.Flags) →
      let r := (BatchBuf.start out folder).addAll xs
      r.1.error = false →
        Reads r.1.body folder (r.2.map sentInfo) ∧
        ∀ x, ((r.1.add x).2 = true ↔ r.1.len + (entryBytes x).length ≤ out.length) ∧
          ((r.1.add x).2 = false → (r.1.add x).1.len = r.1.len ∧ (r.1.add x).1.num = r.1.num ∧
            (r.1.add x).1.mem.take r.1.len = r.1.mem.take r.1.len)) ∧
    (∀ (fi : FileInfo) (hashes : List Hash), 0 < fi.blockSize.toInt →
      (∀ i < hashes.length, (i : Int) * fi.blockSize.toInt ≤ fi.size.toInt) →
      let blocks := (sentInfo (fi, some hashes)).blocks
      blocks.length = hashes.length ∧
      ∀ (i : Nat) (h : Hash), hashes[i]? = some h → ∃ b, blocks[i]? = some b ∧
        b.offset.toInt = i * fi.blockSize.toInt ∧
        b.size.toInt = min fi.blockSize.toInt (fi.size.toInt - i * fi.blockSize.toInt) ∧
        b.hash = some h) ∧
    (∀ (out mem : Bytes) (x : Outgoing), mem.length = out.length → out.length < 2 ^ 31 →
      written (encodeIndexFileBuf mem folder x) =
        (let r := (BatchBuf.start out folder).add x
         if r.2 then some r.1.body else none)) := by
  refine ⟨fun files cap hcap hfiles => ⟨?_, fun body h => encodeIndex_reads hcap hfiles h⟩,
    fun x mem hmem hflags => ⟨?_, fun body h => encodeIndexFileBuf_reads hmem hflags h⟩,
    ?_, fun fi hashes hbs hpos => ?_, fun out mem x hsame hout => batch_of_one folder x hsame hout⟩
  · exact Writer.returned_isSome (encodeIndex_eq folder cap fun fi hfi => (hfiles fi hfi).2)
  · exact Writer.returned_isSome (written_encodeIndexFileBuf mem folder x hmem)
  · intro out xs hout hflags r hok
    exact ⟨reads_addAll hout hflags hok, (BatchBuf.holds_of_addAll hout xs hok).add_spec hout⟩
  · intro blocks
    refine ⟨List.length_mapIdx, fun i h hi => ⟨extBlock fi i h, ?_, ?_⟩⟩
    · show (hashes.mapIdx (extBlock fi))[i]? = _
      rw [List.getElem?_mapIdx, hi]
      rfl
    · exact extBlock_geometry hbs (hpos i (List.getElem?_eq_some_iff.mp hi).1) h

/-- A file of two blocks, the second one shorter. -/
def twoBlockFile : Outgoing :=
  ({ FileInfo.zero with name := .ofBytes _ [97], size := 5000, modifiedS := -1, blockSize := 4096 },
    some [sampleHash 1, sampleHash 2])

set_option maxRecDepth 4000 in
theorem two_blocks_read :
    ∃ body, written (encodeIndexFileBuf (List.replicate 160 0) (.ofBytes _ [102]) twoBlockFile) =
        some body ∧
      Reads body (.ofBytes _ [102]) [sentInfo twoBlockFile] := by
  have hlen : (List.replicate 160 (0 : UInt8)).length < 2 ^ 31 := by decide
  have h := (index_round_trip (.ofBytes _ [102])).2.1 twoBlockFile (List.replicate 160 0) hlen
    ⟨Or.inl rfl, Or.inl rfl⟩
  obtain ⟨body, hbody⟩ := Option.isSome_iff_exists.mp (h.1.mpr (by decide +kernel))
  exact ⟨body, hbody, h.2 body hbody⟩

end Bep

end Amisync

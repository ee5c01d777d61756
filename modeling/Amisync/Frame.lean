import Amisync.FileInfo
import Amisync.Lib.Buffer
import Amisync.Lib.Words

/-!
# Framed messages (`bep.c`)

A message goes out as the length of its header, the header, the length of its
body and the body. A large body of metadata is compressed in the buffer `plain`,
and one that is small enough joins the rest in the buffer `frame`.

* `growBuf`: a buffer that is made larger keeps what is in it.
* `writeFull`, `readFull`: the transport, which takes and gives bytes in parts.
* `sendMessage`, `readMessage`: the two ends.
* `sendMessage_written`: whatever way it took, one frame.
* `readMessage_frame`: what is read of a frame, and what is left.
* `frame_round_trip`: the two together.
-/

namespace Amisync

open Pbuf

namespace Frame

def bepMsgMax : Nat := (1024 + 64) * 1024
def growStep : Nat := 128 * 1024
def bepCompressMin : Nat := 1024
def bepCoalesceMax : Nat := 2048
def bepFrameMax : Nat := 22

def bepResponse : Int32 := 4
def bepCompressNone : Int32 := 0
def bepCompressLz4 : Int32 := 1

/-! ## Buffers -/

/-- `while (newcap < need) newcap += 128 * 1024` -/
def raise (need : Nat) : Nat → Nat → Nat
  | 0, newcap => newcap
  | fuel + 1, newcap => if newcap < need then raise need fuel (newcap + growStep) else newcap

/-- `grow_buf`; `none` leaves the buffer as it is. What is new in it is not initialised. -/
def growBuf (buf : Bytes) (need : Nat) (granted : Bool) : Option Bytes :=
  if need ≤ buf.length then some buf
  else if bepMsgMax < need then none
  else if !granted then none
  else
    let newcap := min (raise need need buf.length) bepMsgMax
    some (buf ++ List.replicate (newcap - buf.length) 0)

theorem le_raise (need fuel cap : Nat) (h : need ≤ cap + fuel) : need ≤ raise need fuel cap := by
  induction fuel generalizing cap with
  | zero => exact h
  | succ fuel ih =>
    have hstep : growStep = 131072 := rfl
    rw [raise]
    split
    · exact ih _ (by omega)
    · omega

/-- **Growth.** There is room for what was asked, and the old contents come first. -/
theorem growBuf_spec {buf buf' : Bytes} {need : Nat} {granted : Bool}
    (h : growBuf buf need granted = some buf') : need ≤ buf'.length ∧ buf <+: buf' := by
  rw [growBuf] at h
  split at h
  · obtain rfl := Option.some.inj h
    exact ⟨‹_›, List.prefix_refl _⟩
  split at h
  · exact absurd h (by simp)
  split at h
  · exact absurd h (by simp)
  · obtain rfl := Option.some.inj h
    have hraise := le_raise need need buf.length (by omega)
    refine ⟨?_, List.prefix_append _ _⟩
    rw [List.length_append, List.length_replicate]
    omega

/-- Below the limit nothing but memory refuses. -/
theorem growBuf_none {buf : Bytes} {need : Nat} {granted : Bool} (h : growBuf buf need granted = none)
    (hneed : need ≤ bepMsgMax) : granted = false := by
  rw [growBuf] at h
  split at h
  · exact absurd h (by simp)
  · rw [if_neg (by omega)] at h
    cases granted with
    | false => rfl
    | true => exact absurd h (by simp)

/-! ## The header -/

structure Header where
  type : Int32
  compression : Int32
  deriving DecidableEq

/-- `bep_encode_header` -/
def encodeHeader (hdr : Header) (cap : Nat) : Option Bytes :=
  let w := (Writer.init cap).writeUint64 1 hdr.type.toUInt32.toUInt64
  let w := if hdr.compression ≠ bepCompressNone then w.writeUint64 2 hdr.compression.toUInt32.toUInt64
    else w
  if w.error then none else some w.buf

/-- `bep_decode_header` -/
def decodeHeader (b : Bytes) : Option Header :=
  readMessage (fun h f v =>
    match v with
    | .num v => some (if f = 1 then { h with type := Bep.toInt v }
        else if f = 2 then { h with compression := Bep.toInt v } else h)
    | _ => some h) ⟨0, bepCompressNone⟩ b

def headerFields (hdr : Header) : List Field :=
  .num 1 hdr.type.toUInt32.toUInt64 ::
    optional (hdr.compression ≠ bepCompressNone) (.num 2 hdr.compression.toUInt32.toUInt64)

def headerBytes (hdr : Header) : Bytes := (headerFields hdr).flatMap Field.bytes

theorem length_headerBytes (hdr : Header) : (headerBytes hdr).length ≤ 12 := by
  have h1 := length_num32 (f := 1) hdr.type.toUInt32 (by decide)
  have h2 := length_optional_le (p := hdr.compression ≠ bepCompressNone)
    (length_num32 (f := 2) hdr.compression.toUInt32 (by decide))
  rw [headerBytes, headerFields, List.flatMap_cons, List.length_append]
  omega

theorem encodeHeader_eq (hdr : Header) : encodeHeader hdr 16 = some (headerBytes hdr) := by
  have h1 := (Writer.wrote_init 16).writeUint64 1 hdr.type.toUInt32.toUInt64
  have h2 := Wrote.optional (p := hdr.compression ≠ bepCompressNone) h1
    (h1.writeUint64 2 hdr.compression.toUInt32.toUInt64)
  have hlen := length_headerBytes hdr
  have hbytes : [] ++ (Field.num 1 hdr.type.toUInt32.toUInt64).bytes ++
      (optional (hdr.compression ≠ bepCompressNone)
        (.num 2 hdr.compression.toUInt32.toUInt64)).flatMap Field.bytes = headerBytes hdr := by
    rw [headerBytes, headerFields, List.flatMap_cons, List.nil_append]
  rw [hbytes] at h2
  exact h2.returned.trans (if_pos (by omega))

theorem decodeHeader_bytes (hdr : Header) : decodeHeader (headerBytes hdr) = some hdr := by
  have hlen := length_headerBytes hdr
  have hsized : ∀ f ∈ headerFields hdr, f.Sized := sized_of_length (by
    rw [← headerBytes]
    omega)
  rw [decodeHeader, headerBytes, readMessage_bytes hsized, headerFields, optional]
  by_cases hc : hdr.compression = bepCompressNone
  · rw [if_neg (not_not.mpr hc)]
    cases hdr
    simp only at hc
    simp [List.foldlM_cons, Field.number, Field.value, Bep.toInt, hc]
  · rw [if_pos hc]
    simp [List.foldlM_cons, Field.number, Field.value, Bep.toInt]

/-! ## The transport -/

/-- What the transport answers to a call to read. `got n`: `n` bytes at most. -/
inductive ReadAnswer where
  | got (n : Nat)
  | reset
  | error
  deriving DecidableEq

/-- What `read_full` has come to; `calls` is the number of calls so far. -/
inductive ReadEnd where
  | all (calls : Nat) (data rest : Bytes)
  | eof
  | reset
  | error

/-- `write_full`, from call number `i` on: the calls made, the bytes that have gone out, and whether
these are all. -/
def writeFull (accepts : Nat → Nat) : Nat → Nat → Bytes → Nat × Bytes × Bool
  | 0, i, buf => (i, [], buf.isEmpty)
  | fuel + 1, i, buf =>
    if buf = [] then (i, [], true)
    else
      let n := min (accepts i) buf.length
      if n = 0 then (i + 1, [], false)
      else
        let r := writeFull accepts fuel (i + 1) (buf.drop n)
        (r.1, buf.take n ++ r.2.1, r.2.2)

/-- `read_full` -/
def readFull (answers : Nat → ReadAnswer) : Nat → Nat → Nat → Bytes → ReadEnd
  | 0, i, len, s => if len = 0 then .all i [] s else .error
  | fuel + 1, i, len, s =>
    if len = 0 then .all i [] s
    else match answers i with
      | .reset => .reset
      | .error => .error
      | .got n =>
        let n := min (min n len) s.length
        if n = 0 then .eof
        else match readFull answers fuel (i + 1) (len - n) (s.drop n) with
          | .all i d rest => .all i (s.take n ++ d) rest
          | e => e

/-- A write that succeeds has put out every byte, in whatever parts. -/
theorem writeFull_ok {accepts : Nat → Nat} {fuel i : Nat} {buf : Bytes}
    (h : (writeFull accepts fuel i buf).2.2 = true) : (writeFull accepts fuel i buf).2.1 = buf := by
  induction fuel generalizing i buf with
  | zero =>
    rw [writeFull] at h ⊢
    exact (List.isEmpty_iff.mp h).symm
  | succ fuel ih =>
    rw [writeFull] at h ⊢
    split at h
    · rename_i hnil
      rw [if_pos hnil]
      exact hnil.symm
    · rename_i hne
      rw [if_neg hne]
      dsimp only at h ⊢
      split at h
      · exact absurd h (by simp)
      · rename_i hpos
        rw [if_neg hpos]
        dsimp only at h ⊢
        rw [ih h, List.take_append_drop]

/-- Each call of the transport gives some bytes. -/
def Positive (answers : Nat → ReadAnswer) : Prop := ∀ i, ∃ n, 0 < n ∧ answers i = .got n

/-- As many bytes as were asked for, if they are there, in whatever parts. -/
theorem readFull_eq {answers : Nat → ReadAnswer} (hpos : Positive answers) (fuel i len : Nat) (s : Bytes)
    (hfuel : len ≤ fuel) (hlen : len ≤ s.length) :
    ∃ j, readFull answers fuel i len s = .all j (s.take len) (s.drop len) := by
  induction fuel generalizing i len s with
  | zero =>
    obtain rfl := Nat.le_zero.mp hfuel
    exact ⟨i, rfl⟩
  | succ fuel ih =>
    rw [readFull]
    by_cases h0 : len = 0
    · subst h0
      exact ⟨i, rfl⟩
    · obtain ⟨n, hn, ha⟩ := hpos i
      rw [if_neg h0, ha]
      dsimp only
      have hk : 0 < min (min n len) s.length := by omega
      rw [if_neg (by omega)]
      obtain ⟨j, hj⟩ := ih (i + 1) (len - min (min n len) s.length)
        (s.drop (min (min n len) s.length)) (by omega) (by rw [List.length_drop]; omega)
      rw [hj]
      have hsum : min (min n len) s.length + (len - min (min n len) s.length) = len := by omega
      refine ⟨j, ?_⟩
      dsimp only
      rw [List.drop_drop, hsum]
      congr 1
      conv_rhs => rw [← hsum, List.take_add]

/-! ## The connection -/

/-- `LZ4_compress_default`, with no bytes where it fails, and `LZ4_decompress_safe`. -/
structure Lz4 where
  compress : Bytes → Nat → Bytes
  decompress : Bytes → Nat → Option Bytes

/-- What is compressed is expanded again, given its length. -/
def Lz4.Inverts (z : Lz4) : Prop := ∀ src cap, z.compress src cap ≠ [] →
  z.decompress (z.compress src cap) src.length = some src

structure Conn where
  wire : Bytes
  plain : Bytes
  frame : Bytes
  frameRoom : frame.length = bepFrameMax + bepCoalesceMax
  compress : Bool
  bodyInPlain : Bool
  inHandler : Bool
  plainSkips : Nat

/-! ## Sending -/

/-- The body that goes out, and whether it is compressed. `granted`: there is memory, should `plain`
have to grow. -/
def chooseBody (z : Lz4) (granted : Bool) (c : Conn) (type : Int32) (msg : Bytes) :
    Conn × Bytes × Bool :=
  if c.inHandler && c.bodyInPlain && c.compress && decide (bepCompressMin ≤ msg.length) &&
      decide (type ≠ bepResponse) then
    ({ c with plainSkips := c.plainSkips + 1 }, msg, false)
  else if c.compress && decide (bepCompressMin ≤ msg.length) && decide (type ≠ bepResponse) then
    match growBuf c.plain (msg.length + 4) granted with
    | none => (c, msg, false)
    | some plain =>
      let packed := z.compress msg (plain.length - 4)
      let plain := Buffer.write plain 4 packed
      if 0 < packed.length ∧ packed.length + 4 < msg.length then
        let plain := Buffer.write plain 0 (Words.put32 (UInt32.ofNat msg.length))
        ({ c with plain := plain }, plain.take (packed.length + 4), true)
      else ({ c with plain := plain }, msg, false)
  else (c, msg, false)

/-- The lengths and the header in `frame`. -/
def putHead (frame h : Bytes) (bodyLen : Nat) : Bytes :=
  let frame := Buffer.write frame 0 (Words.put16 (UInt16.ofNat h.length))
  let frame := Buffer.write frame 2 h
  Buffer.write frame (2 + h.length) (Words.put32 (UInt32.ofNat bodyLen))

/-- One write; the body joins the head. -/
def writeCoalesced (accepts : Nat → Nat) (frame : Bytes) (flen : Nat) (body : Bytes) : Bytes × Bool :=
  let out := (Buffer.write frame flen body).take (flen + body.length)
  (writeFull accepts out.length 0 out).2

/-- Two writes. -/
def writeSplit (accepts : Nat → Nat) (frame : Bytes) (flen : Nat) (body : Bytes) : Bytes × Bool :=
  let head := frame.take flen
  let r := writeFull accepts head.length 0 head
  if r.2.2 then
    let q := writeFull accepts body.length r.1 body
    (r.2.1 ++ q.2.1, q.2.2)
  else r.2

structure Sent where
  conn : Conn
  /-- What has gone out. -/
  written : Bytes
  ok : Bool

/-- `bep_send_message`. What is in `frame` afterwards is not kept: each call writes it anew. -/
def sendMessage (z : Lz4) (granted : Bool) (accepts : Nat → Nat) (c : Conn) (type : Int32)
    (msg : Bytes) : Sent :=
  let r := chooseBody z granted c type msg
  let body := r.2.1
  match encodeHeader ⟨type, if r.2.2 then bepCompressLz4 else bepCompressNone⟩ 16 with
  | none => ⟨r.1, [], false⟩
  | some h =>
    let frame := putHead r.1.frame h body.length
    let flen := 2 + h.length + 4
    let w :=
      if body.length = 0 then (writeFull accepts (frame.take flen).length 0 (frame.take flen)).2
      else if body.length ≤ bepCoalesceMax then writeCoalesced accepts frame flen body
      else writeSplit accepts frame flen body
    ⟨r.1, w.1, w.2⟩

/-! ## Reading -/

/-- The parts of a frame, as the texts of the failures name them. -/
inductive Part where
  | headerLength
  | header
  | bodyLength
  | body
  deriving DecidableEq

inductive Failure where
  /-- The peer closed between two frames; the only one that is no error. -/
  | closed
  | reset (part : Part)
  | closedMidFrame (part : Part)
  | readError (part : Part)
  | headerRange (hlen : Nat)
  | noMemoryHeader (hlen : Nat)
  | badHeader (hlen : Nat)
  | bodyRange (mlen : Int) (hdr : Header)
  | noMemoryBody (mlen : Nat)
  | lz4Short (mlen : Nat)
  | lz4Range (usize : Int)
  | noMemoryExpand (usize : Nat)
  | lz4Expanded (dec : Option Nat) (usize mlen : Nat)
  deriving DecidableEq

structure Message where
  hdr : Header
  body : Bytes
  conn : Conn
  rest : Bytes

/-- Whether there is memory, should a buffer have to grow. -/
structure ReadMem where
  header : Bool
  body : Bool
  expand : Bool

def ReadEnd.orFail (part : Part) : ReadEnd → Except Failure (Nat × Bytes × Bytes)
  | .all i d rest => .ok (i, d, rest)
  | .eof => .error (.closedMidFrame part)
  | .reset => .error (.reset part)
  | .error => .error (.readError part)

/-- The header length, and whether the peer has closed instead. -/
def readHeaderLength (answers : Nat → ReadAnswer) (stream : Bytes) : Except Failure (Nat × Bytes × Bytes) :=
  match readFull answers 2 0 2 stream with
  | .eof => .error .closed
  | e => e.orFail .headerLength

/-- The end of `bep_read_message`: the body as it is handed out. -/
def openBody (z : Lz4) (mem : ReadMem) (c : Conn) (hdr : Header) (mlen : Nat) :
    Except Failure (Bytes × Conn) :=
  if hdr.compression = bepCompressLz4 then
    if mlen < 4 then .error (.lz4Short mlen)
    else
      let usize : Int := (Words.get32 c.wire).toInt32.toInt
      if usize < 0 ∨ bepMsgMax < usize then .error (.lz4Range usize)
      else match growBuf c.plain usize.toNat mem.expand with
        | none => .error (.noMemoryExpand usize.toNat)
        | some plain =>
          match z.decompress ((c.wire.drop 4).take (mlen - 4)) usize.toNat with
          | none => .error (.lz4Expanded none usize.toNat mlen)
          | some d =>
            if d.length ≠ usize.toNat then .error (.lz4Expanded (some d.length) usize.toNat mlen)
            else
              let plain := Buffer.write plain 0 d
              .ok (plain.take usize.toNat, { c with plain := plain, bodyInPlain := true })
  else .ok (c.wire.take mlen, { c with bodyInPlain := false })

/-- The body of the frame, from call number `i` on. -/
def readBody (z : Lz4) (mem : ReadMem) (answers : Nat → ReadAnswer) (c : Conn) (hdr : Header) (i : Nat)
    (stream : Bytes) : Except Failure Message :=
  (readFull answers 4 i 4 stream).orFail .bodyLength |>.bind fun (i, lenbuf, stream) =>
    let mlen : Int := (Words.get32 lenbuf).toInt32.toInt
    if mlen < 0 ∨ bepMsgMax < mlen then .error (.bodyRange mlen hdr)
    else match growBuf c.wire mlen.toNat mem.body with
      | none => .error (.noMemoryBody mlen.toNat)
      | some wire =>
        (readFull answers mlen.toNat i mlen.toNat stream).orFail .body |>.bind fun (_, d, rest) =>
          (openBody z mem { c with wire := Buffer.write wire 0 d } hdr mlen.toNat).map fun (body, c) =>
            ⟨hdr, body, c, rest⟩

/-- `bep_read_message` -/
def readMessage (z : Lz4) (mem : ReadMem) (answers : Nat → ReadAnswer) (c : Conn) (stream : Bytes) :
    Except Failure Message :=
  (readHeaderLength answers stream).bind fun (i, lenbuf, stream) =>
    let hlen := (Words.get16 lenbuf).toNat
    if bepMsgMax < hlen then .error (.headerRange hlen)
    else match growBuf c.wire hlen mem.header with
      | none => .error (.noMemoryHeader hlen)
      | some wire =>
        (readFull answers hlen i hlen stream).orFail .header |>.bind fun (i, d, stream) =>
          let wire := Buffer.write wire 0 d
          match decodeHeader (wire.take hlen) with
          | none => .error (.badHeader hlen)
          | some hdr => readBody z mem answers { c with wire := wire } hdr i stream

/-! ## What goes out -/

/-- A frame. -/
def frameBytes (hdr : Header) (body : Bytes) : Bytes :=
  Words.put16 (UInt16.ofNat (headerBytes hdr).length) ++ headerBytes hdr ++
    Words.put32 (UInt32.ofNat body.length) ++ body

section Send
variable {z : Lz4} {granted : Bool} {accepts : Nat → Nat} {c : Conn} {type : Int32} {msg body : Bytes}
  {frame h : Bytes} {n : Nat}

theorem length_putHead (hroom : h.length + 6 ≤ frame.length) :
    (putHead frame h n).length = frame.length := by
  have h1 := Buffer.length_write (m := frame) (i := 0) (d := Words.put16 (UInt16.ofNat h.length))
    (by rw [Words.length_put16]; omega)
  have h2 := Buffer.length_write (m := Buffer.write frame 0 (Words.put16 (UInt16.ofNat h.length)))
    (i := 2) (d := h) (by omega)
  rw [putHead, Buffer.length_write, h2, h1]
  rw [h2, h1, Words.length_put32]
  omega

/-- The head in the buffer. -/
theorem take_putHead (hroom : h.length + 6 ≤ frame.length) :
    (putHead frame h n).take (2 + h.length + 4) =
      Words.put16 (UInt16.ofNat h.length) ++ h ++ Words.put32 (UInt32.ofNat n) := by
  have h1 := Buffer.length_write (m := frame) (i := 0) (d := Words.put16 (UInt16.ofNat h.length))
    (by rw [Words.length_put16]; omega)
  have h2 := Buffer.length_write (m := Buffer.write frame 0 (Words.put16 (UInt16.ofNat h.length)))
    (i := 2) (d := h) (by omega)
  have t1 : (Buffer.write frame 0 (Words.put16 (UInt16.ofNat h.length))).take 2 =
      Words.put16 (UInt16.ofNat h.length) :=
    Buffer.take_write_end (d := Words.put16 (UInt16.ofNat h.length)) (Nat.zero_le frame.length)
  have t2 := Buffer.take_write_end (m := Buffer.write frame 0 (Words.put16 (UInt16.ofNat h.length)))
    (i := 2) (d := h) (by omega)
  have t3 := Buffer.take_write_end
    (m := Buffer.write (Buffer.write frame 0 (Words.put16 (UInt16.ofNat h.length))) 2 h)
    (i := 2 + h.length) (d := Words.put32 (UInt32.ofNat n)) (by omega)
  rw [Words.length_put32, t2, t1] at t3
  exact t3

/-- One write or two: the same bytes. -/
theorem writeCoalesced_ok {flen : Nat} (hlen : flen ≤ frame.length)
    (hok : (writeCoalesced accepts frame flen body).2 = true) :
    (writeCoalesced accepts frame flen body).1 = frame.take flen ++ body := by
  rw [writeCoalesced] at hok ⊢
  rw [writeFull_ok hok, Buffer.take_write_end hlen]

theorem writeSplit_ok {flen : Nat} (hok : (writeSplit accepts frame flen body).2 = true) :
    (writeSplit accepts frame flen body).1 = frame.take flen ++ body := by
  rw [writeSplit] at hok ⊢
  split at hok
  · rename_i hhead
    rw [if_pos hhead]
    dsimp only at hok ⊢
    rw [writeFull_ok hhead, writeFull_ok hok]
  · rename_i hhead
    exact absurd hok hhead

/-- **Sending.** Whatever way it takes, what a send that succeeds has put out is one frame. -/
theorem sendMessage_written (hok : (sendMessage z granted accepts c type msg).ok = true) :
    (sendMessage z granted accepts c type msg).written =
      frameBytes ⟨type, if (chooseBody z granted c type msg).2.2 then bepCompressLz4 else bepCompressNone⟩
        (chooseBody z granted c type msg).2.1 := by
  unfold sendMessage at hok ⊢
  dsimp only at hok ⊢
  rw [encodeHeader_eq] at hok ⊢
  dsimp only at hok ⊢
  generalize chooseBody z granted c type msg = r at hok ⊢
  generalize hhdr : (⟨type, if r.2.2 then bepCompressLz4 else bepCompressNone⟩ : Header) = hdr at hok ⊢
  have hlen := length_headerBytes hdr
  have hframe : r.1.frame.length = 2070 := r.1.frameRoom
  have hroom : (headerBytes hdr).length + 6 ≤ r.1.frame.length := by omega
  have htake := take_putHead (n := r.2.1.length) hroom
  have hput := length_putHead (n := r.2.1.length) hroom
  split at hok
  · rename_i h0
    rw [if_pos h0, writeFull_ok hok, htake, frameBytes, List.length_eq_zero_iff.mp h0, List.append_nil]
  · rename_i h0
    rw [if_neg h0]
    split at hok
    · rename_i hsmall
      rw [if_pos hsmall, writeCoalesced_ok (by omega) hok, htake, frameBytes]
    · rename_i hbig
      rw [if_neg hbig, writeSplit_ok hok, htake, frameBytes]

/-- **The body.** It is the message, or the message compressed. -/
theorem chooseBody_cases (z : Lz4) (granted : Bool) (c : Conn) (type : Int32) (msg : Bytes) :
    ((chooseBody z granted c type msg).2 = (msg, false)) ∨
    ∃ cap, z.compress msg cap ≠ [] ∧ (z.compress msg cap).length + 4 < msg.length ∧
      (chooseBody z granted c type msg).2 =
        (Words.put32 (UInt32.ofNat msg.length) ++ z.compress msg cap, true) := by
  rw [chooseBody]
  split
  · exact Or.inl rfl
  split
  · cases hg : growBuf c.plain (msg.length + 4) granted with
    | none => exact Or.inl rfl
    | some plain =>
      have hroom := (growBuf_spec hg).1
      dsimp only
      split
      · rename_i hp
        refine Or.inr ⟨plain.length - 4, List.ne_nil_of_length_pos hp.1, hp.2, ?_⟩
        refine congrArg (·, true) ?_
        have hsplit := Buffer.write_zero
          (Buffer.write plain 4 (z.compress msg (plain.length - 4)))
          (Words.put32 (UInt32.ofNat msg.length))
        rw [Words.length_put32, Buffer.drop_write (by omega), ← List.append_assoc] at hsplit
        rw [hsplit]
        refine List.take_left' ?_
        rw [List.length_append, Words.length_put32, Nat.add_comm]
      · exact Or.inl rfl
  · exact Or.inl rfl

/-- What a handler is still reading in `plain` is left alone. -/
theorem chooseBody_plain (hh : c.inHandler = true) (hb : c.bodyInPlain = true) :
    (chooseBody z granted c type msg).1.plain = c.plain := by
  rw [chooseBody]
  split
  · rfl
  · rename_i hno
    split
    · rename_i hyes
      rw [hh, hb] at hno
      simp only [Bool.true_and] at hno
      exact absurd hyes hno
    · rfl

end Send

/-! ## What is read of a frame -/

section Read
variable {z : Lz4} {mem : ReadMem} {answers : Nat → ReadAnswer} {c : Conn} {hdr : Header}
  {body rest : Bytes}

/-- A memory answer that was no. -/
def Failure.OutOfMemory : Failure → Prop
  | .noMemoryHeader _ | .noMemoryBody _ | .noMemoryExpand _ => True
  | _ => False

def ReadMem.Granted (mem : ReadMem) : Prop := mem.header = true ∧ mem.body = true ∧ mem.expand = true

/-- `P` holds of the result, unless memory was refused. -/
def Gives (mem : ReadMem) {α : Type} (P : α → Prop) (x : Except Failure α) : Prop :=
  (∃ a, x = .ok a ∧ P a) ∨ ∃ f, x = .error f ∧ f.OutOfMemory ∧ ¬mem.Granted

theorem toInt_ofNat {n : Nat} (h : n < 2 ^ 31) : (UInt32.ofNat n).toInt32.toInt = n := by
  show (BitVec.ofNat 32 n).toInt = n
  rw [BitVec.toInt_ofNat', Int.bmod_eq_of_le (by omega) (by omega)]

/-- **An uncompressed body.** -/
theorem openBody_plain (hdr : Header) (hc : hdr.compression ≠ bepCompressLz4) {tail : Bytes}
    (hw : c.wire = body ++ tail) :
    openBody z mem c hdr body.length = .ok (body, { c with bodyInPlain := false }) := by
  rw [openBody, if_neg hc, hw, List.take_left]

/-- **A compressed body.** -/
theorem openBody_packed {msg packed tail : Bytes} (hdr : Header) (hc : hdr.compression = bepCompressLz4)
    (hlen : msg.length ≤ bepMsgMax) (hz : z.decompress packed msg.length = some msg)
    (hbody : body = Words.put32 (UInt32.ofNat msg.length) ++ packed) (hw : c.wire = body ++ tail) :
    Gives mem (fun r => r.1 = msg) (openBody z mem c hdr body.length) := by
  have hmax : bepMsgMax = 1114112 := rfl
  have hblen : body.length = packed.length + 4 := by
    rw [hbody, List.length_append, Words.length_put32, Nat.add_comm]
  have hsize : (Words.get32 c.wire).toInt32.toInt = msg.length := by
    rw [hw, hbody, List.append_assoc, Words.get32_put32, toInt_ofNat (by omega)]
  have hpacked : (c.wire.drop 4).take (body.length - 4) = packed := by
    rw [hw, hbody, List.append_assoc, List.drop_left' (Words.length_put32 _), List.length_append,
      Words.length_put32, Nat.add_sub_cancel_left, List.take_left]
  rw [openBody, if_pos hc, if_neg (by omega), hsize]
  dsimp only
  rw [if_neg (by omega), Int.toNat_natCast]
  cases hg : growBuf c.plain msg.length mem.expand with
  | none =>
    exact Or.inr ⟨_, rfl, trivial, fun h => absurd h.2.2 (by simp [growBuf_none hg hlen])⟩
  | some plain =>
    have hroom := (growBuf_spec hg).1
    dsimp only
    rw [hpacked, hz]
    dsimp only
    rw [if_neg (by simp)]
    refine Or.inl ⟨_, rfl, ?_⟩
    have htake := Buffer.take_write_end (m := plain) (d := msg) (Nat.zero_le plain.length)
    rwa [Nat.zero_add, List.take_zero, List.nil_append] at htake

/-- The body of a frame gets into `wire`. -/
theorem readBody_frame (hpos : Positive answers) (hdr : Header) (i : Nat)
    (hlen : body.length ≤ bepMsgMax) {P : Bytes → Prop}
    (hopen : ∀ c' tail, c'.wire = body ++ tail →
      Gives mem (fun r => P r.1) (openBody z mem c' hdr body.length)) :
    Gives mem (fun m => m.hdr = hdr ∧ P m.body ∧ m.rest = rest)
      (readBody z mem answers c hdr i (Words.put32 (UInt32.ofNat body.length) ++ (body ++ rest))) := by
  have hmax : bepMsgMax = 1114112 := rfl
  obtain ⟨j, hj⟩ := readFull_eq hpos 4 i 4
    (Words.put32 (UInt32.ofNat body.length) ++ (body ++ rest)) (Nat.le_refl 4)
    (by rw [List.length_append, Words.length_put32]; omega)
  rw [List.take_left' (Words.length_put32 _), List.drop_left' (Words.length_put32 _)] at hj
  have hsize : (Words.get32 (Words.put32 (UInt32.ofNat body.length))).toInt32.toInt = body.length := by
    have hget := Words.get32_put32 (UInt32.ofNat body.length) []
    rw [List.append_nil] at hget
    rw [hget, toInt_ofNat (by omega)]
  rw [readBody, hj]
  simp only [ReadEnd.orFail, Except.bind, hsize]
  rw [if_neg (by omega), Int.toNat_natCast]
  cases hg : growBuf c.wire body.length mem.body with
  | none =>
    exact Or.inr ⟨_, rfl, trivial, fun h => absurd h.2.1 (by simp [growBuf_none hg hlen])⟩
  | some wire =>
    obtain ⟨k, hk⟩ := readFull_eq hpos body.length j body.length (body ++ rest)
      (Nat.le_refl _) (by rw [List.length_append]; omega)
    rw [List.take_left, List.drop_left] at hk
    simp only [hk]
    rcases hopen { c with wire := Buffer.write wire 0 body } (wire.drop body.length)
      (Buffer.write_zero wire body) with ⟨r, hr, hP⟩ | ⟨f, hf, hoom, hmem⟩
    · exact Or.inl ⟨_, by rw [hr]; rfl, rfl, hP, rfl⟩
    · exact Or.inr ⟨f, by rw [hf]; rfl, hoom, hmem⟩

/-- **Reading.** A frame with anything behind it gives its header and its body, and leaves what is
behind it. -/
theorem readMessage_frame (hpos : Positive answers) (hdr : Header) (hlen : body.length ≤ bepMsgMax)
    {P : Bytes → Prop}
    (hopen : ∀ c' tail, c'.wire = body ++ tail →
      Gives mem (fun r => P r.1) (openBody z mem c' hdr body.length)) :
    Gives mem (fun m => m.hdr = hdr ∧ P m.body ∧ m.rest = rest)
      (readMessage z mem answers c (frameBytes hdr body ++ rest)) := by
  have hhdr := length_headerBytes hdr
  have hmax : bepMsgMax = 1114112 := rfl
  have hsplit : frameBytes hdr body ++ rest = Words.put16 (UInt16.ofNat (headerBytes hdr).length) ++
      (headerBytes hdr ++ (Words.put32 (UInt32.ofNat body.length) ++ (body ++ rest))) := by
    rw [frameBytes]
    simp only [List.append_assoc]
  obtain ⟨j, hj⟩ := readFull_eq hpos 2 0 2 (frameBytes hdr body ++ rest)
    (Nat.le_refl 2)
    (by rw [hsplit, List.length_append, Words.length_put16]; omega)
  rw [hsplit, List.take_left' (Words.length_put16 _), List.drop_left' (Words.length_put16 _)] at hj
  have hsize : (Words.get16 (Words.put16 (UInt16.ofNat (headerBytes hdr).length))).toNat =
      (headerBytes hdr).length := by
    have hget := Words.get16_put16 (UInt16.ofNat (headerBytes hdr).length) []
    rw [List.append_nil] at hget
    rw [hget, UInt16.toNat_ofNat', Nat.mod_eq_of_lt (by omega)]
  rw [readMessage, readHeaderLength, hsplit, hj]
  simp only [ReadEnd.orFail, Except.bind, hsize]
  rw [if_neg (by omega)]
  cases hg : growBuf c.wire (headerBytes hdr).length mem.header with
  | none =>
    exact Or.inr ⟨_, rfl, trivial, fun h => absurd h.1 (by simp [growBuf_none hg (by omega)])⟩
  | some wire =>
    obtain ⟨k, hk⟩ := readFull_eq hpos (headerBytes hdr).length j (headerBytes hdr).length
      (headerBytes hdr ++ (Words.put32 (UInt32.ofNat body.length) ++ (body ++ rest)))
      (Nat.le_refl _) (by rw [List.length_append]; omega)
    rw [List.take_left, List.drop_left] at hk
    have htake : (Buffer.write wire 0 (headerBytes hdr)).take (headerBytes hdr).length =
        headerBytes hdr := by
      rw [Buffer.write_zero, List.take_left]
    simp only [hk, htake, decodeHeader_bytes]
    exact readBody_frame hpos hdr k hlen hopen

end Read

/-! ## The main result -/

/-- **Framing.** What a send that succeeds has put out is one frame, however the transport has split
it and whether it took one write or two; a reader that is given it, with anything behind it and in
any parts, has the type and the body, and what was behind it is left, unless its memory runs out.
And a handler's body in `plain` is not touched. -/
theorem frame_round_trip (z : Lz4) (hz : z.Inverts) (granted : Bool) (accepts : Nat → Nat) (c : Conn)
    (type : Int32) (msg : Bytes) (hlen : msg.length ≤ bepMsgMax) :
    ((sendMessage z granted accepts c type msg).ok = true →
      (∃ hdr body, (sendMessage z granted accepts c type msg).written = frameBytes hdr body) ∧
      ∀ (c' : Conn) (mem : ReadMem) (answers : Nat → ReadAnswer) (rest : Bytes), Positive answers →
        Gives mem (fun m => m.hdr.type = type ∧ m.body = msg ∧ m.rest = rest)
          (readMessage z mem answers c'
            ((sendMessage z granted accepts c type msg).written ++ rest))) ∧
    (∀ (accepts' : Nat → Nat) (frame : Bytes) (flen : Nat) (body : Bytes), flen ≤ frame.length →
      (writeCoalesced accepts frame flen body).2 = true → (writeSplit accepts' frame flen body).2 = true →
      (writeCoalesced accepts frame flen body).1 = (writeSplit accepts' frame flen body).1) ∧
    (c.inHandler = true → c.bodyInPlain = true →
      (sendMessage z granted accepts c type msg).conn.plain = c.plain) := by
  refine ⟨fun hok => ?_, fun accepts' frame flen body hflen h h' => ?_, fun hh hb => ?_⟩
  · have hw := sendMessage_written hok
    have hnone : bepCompressNone ≠ bepCompressLz4 := by decide
    refine ⟨⟨_, _, hw⟩, fun c' mem answers rest hpos => ?_⟩
    rw [hw]
    rcases chooseBody_cases z granted c type msg with h | ⟨cap, hne, hshort, h⟩
    · rw [h]
      have hread : Gives mem (fun m => m.hdr = ⟨type, bepCompressNone⟩ ∧ m.body = msg ∧ m.rest = rest)
          (readMessage z mem answers c' (frameBytes ⟨type, bepCompressNone⟩ msg ++ rest)) :=
        readMessage_frame (P := fun b => b = msg) hpos ⟨type, bepCompressNone⟩ hlen fun c'' tail hwire =>
          Or.inl ⟨_, openBody_plain _ hnone hwire, rfl⟩
      rcases hread with ⟨m, hm, hhdr, hbody, hrest⟩ | hoom
      · exact Or.inl ⟨m, hm, by rw [hhdr], hbody, hrest⟩
      · exact Or.inr hoom
    · rw [h]
      have hbodyLen : (Words.put32 (UInt32.ofNat msg.length) ++ z.compress msg cap).length ≤ bepMsgMax := by
        rw [List.length_append, Words.length_put32]
        omega
      have hread : Gives mem (fun m => m.hdr = ⟨type, bepCompressLz4⟩ ∧ m.body = msg ∧ m.rest = rest)
          (readMessage z mem answers c' (frameBytes ⟨type, bepCompressLz4⟩
            (Words.put32 (UInt32.ofNat msg.length) ++ z.compress msg cap) ++ rest)) :=
        readMessage_frame (P := fun b => b = msg) hpos ⟨type, bepCompressLz4⟩ hbodyLen fun c'' tail hwire =>
          openBody_packed _ rfl hlen (hz msg cap hne) rfl hwire
      rcases hread with ⟨m, hm, hhdr, hbody, hrest⟩ | hoom
      · exact Or.inl ⟨m, hm, by rw [hhdr], hbody, hrest⟩
      · exact Or.inr hoom
  · rw [writeCoalesced_ok hflen h, writeSplit_ok h']
  · have hplain : (chooseBody z granted c type msg).1.plain = c.plain := chooseBody_plain hh hb
    unfold sendMessage
    dsimp only
    rw [encodeHeader_eq]
    exact hplain

def zeros : Bytes := List.replicate 1024 0

/-- One literal, a match of 1018 bytes at distance 1, and the five literals at the end. -/
def packedZeros : Bytes := [0x1f, 0, 1, 0, 255, 255, 255, 234, 0x50, 0, 0, 0, 0, 0]

/-- The codec on this one text. -/
def zerosLz4 : Lz4 where
  compress src cap := if src = zeros ∧ packedZeros.length ≤ cap then packedZeros else []
  decompress b n := if b = packedZeros ∧ zeros.length ≤ n then some zeros else none

theorem zerosLz4_inverts : zerosLz4.Inverts := by
  intro src cap hne
  by_cases h : src = zeros ∧ packedZeros.length ≤ cap
  · have hc : zerosLz4.compress src cap = packedZeros := if_pos h
    rw [hc, h.1]
    simp only [zerosLz4, Nat.le_refl, and_self, if_true]
  · exact absurd (if_neg h) hne

def freshConn : Conn where
  wire := List.replicate 64 0
  plain := List.replicate 1040 0
  frame := List.replicate (bepFrameMax + bepCoalesceMax) 0
  frameRoom := List.length_replicate
  compress := true
  bodyInPlain := false
  inHandler := false
  plainSkips := 0

/-- Three bytes at a time out, and one byte at a time in. -/
theorem zeros_read_back :
    ∃ m, readMessage zerosLz4 ⟨true, true, true⟩ (fun _ => .got 1) freshConn
        ((sendMessage zerosLz4 true (fun _ => 3) freshConn 1 zeros).written ++ [7]) = .ok m ∧
      m.hdr.type = 1 ∧ m.body = zeros ∧ m.rest = [7] := by
  have hok : (sendMessage zerosLz4 true (fun _ => 3) freshConn 1 zeros).ok = true := by
    decide +kernel
  have hlen : zeros.length ≤ bepMsgMax := by decide +kernel
  rcases ((frame_round_trip zerosLz4 zerosLz4_inverts true (fun _ => 3) freshConn 1 zeros hlen).1 hok).2
    freshConn ⟨true, true, true⟩ (fun _ => .got 1) [7] fun _ => ⟨1, Nat.one_pos, rfl⟩ with h | h
  · exact h
  · obtain ⟨f, -, -, hno⟩ := h
    exact absurd ⟨rfl, rfl, rfl⟩ hno

end Frame

end Amisync

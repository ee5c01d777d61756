import Amisync.FrameEnd
import Amisync.Messages
import Amisync.Lib.Pipe

/-!
# The Hello (`bep_send_hello`, `bep_read_hello`)

The first that either end of a connection sends: a magic number, a length and three names. No
header goes before it, and it is never compressed.

* `decodeHello_bytes`: the names are read as they were written.
* `readHello_frame`: a Hello with anything behind it is read, and what is behind it is left.
* `readHello_ok`: what is read is a whole Hello.
* `read_frames`, `read_cut`: the same of the messages behind it, whatever the transport does.
-/

namespace Amisync.Greeting

open Pbuf Bep Amisync.Frame Messages

def bepMagic : UInt32 := 0x2EA7D90B
def bepVersionMax : Nat := 32

/-! ## The names -/

structure Hello where
  deviceName : CString 63
  clientName : CString 63
  clientVersion : CString 31
  deriving DecidableEq

def Hello.zero : Hello := ⟨.empty _, .empty _, .empty _⟩

/-- `bep_encode_hello` -/
def encodeHello (h : Hello) (cap : Nat) : Option Bytes :=
  let w := (Writer.init cap).writeBytes 1 h.deviceName.bytes
  let w := w.writeBytes 2 h.clientName.bytes
  let w := w.writeBytes 3 h.clientVersion.bytes
  if w.error then none else some w.buf

def storeHello (h : Hello) (f : UInt32) : Value → Option Hello
  | .data b => some (if f = 1 then { h with deviceName := .ofBytes _ b }
      else if f = 2 then { h with clientName := .ofBytes _ b }
      else if f = 3 then { h with clientVersion := .ofBytes _ b } else h)
  | _ => some h

/-- `bep_decode_hello` -/
def decodeHello (b : Bytes) : Option Hello := Pbuf.readMessage storeHello Hello.zero b

def helloFields (h : Hello) : List Field :=
  [.data 1 h.deviceName.bytes, .data 2 h.clientName.bytes, .data 3 h.clientVersion.bytes]

def helloBody (h : Hello) : Bytes := (helloFields h).flatMap Field.bytes

theorem length_helloBody (h : Hello) : (helloBody h).length ≤ 163 := by
  have hdevice : h.deviceName.bytes.length ≤ 63 := h.deviceName.short
  have hclient : h.clientName.bytes.length ≤ 63 := h.clientName.short
  have hversion : h.clientVersion.bytes.length ≤ 31 := h.clientVersion.short
  have h1 := length_data_short (f := 1) h.deviceName.bytes (by decide) (by omega)
  have h2 := length_data_short (f := 2) h.clientName.bytes (by decide) (by omega)
  have h3 := length_data_short (f := 3) h.clientVersion.bytes (by decide) (by omega)
  rw [helloBody, helloFields]
  simp only [List.flatMap_cons, List.flatMap_nil, List.length_append, List.length_nil]
  omega

theorem encodeHello_eq (h : Hello) (cap : Nat) :
    encodeHello h cap = if (helloBody h).length ≤ cap then some (helloBody h) else none := by
  have h1 := ((Writer.wrote_init cap).writeBytes 1 h.deviceName.bytes).writeBytes 2 h.clientName.bytes
  have h2 := h1.writeBytes 3 h.clientVersion.bytes
  have hbody : helloBody h = [] ++ (Field.data 1 h.deviceName.bytes).bytes ++
      (Field.data 2 h.clientName.bytes).bytes ++ (Field.data 3 h.clientVersion.bytes).bytes := by
    simp only [helloBody, helloFields, List.flatMap_cons, List.flatMap_nil, List.nil_append, List.append_nil,
      List.append_assoc]
  rw [hbody]
  exact h2.returned

/-- **The names.** -/
theorem decodeHello_bytes (h : Hello) : decodeHello (helloBody h) = some h := by
  have hlen := length_helloBody h
  have hall : assignAll storeHello Hello.zero (helloFields h) = some h := by
    simp [assignAll, helloFields, List.foldlM_cons, storeHello, Field.number, Field.value]
  rw [decodeHello, helloBody, readMessage_assignAll (by rw [← helloBody]; omega), hall]

/-! ## The frame -/

/-- A Hello as it goes out. -/
def helloBytes (h : Hello) : Bytes :=
  Words.put32 bepMagic ++ Words.put16 (UInt16.ofNat (helloBody h).length) ++ helloBody h

/-- `bep_send_hello`: what has gone out, and whether that is all. -/
def sendHello (accepts : Nat → Nat) (h : Hello) : Bytes × Bool :=
  match encodeHello h 256 with
  | none => ([], false)
  | some body =>
    let hdr := Words.put32 bepMagic ++ Words.put16 (UInt16.ofNat body.length)
    if body.length ≤ bepCoalesceMax then (writeFull accepts (hdr ++ body).length 0 (hdr ++ body)).2
    else writeSplit accepts hdr hdr.length body

/-- The parts of a Hello, as the texts of the failures name them. -/
inductive HelloPart where
  | header
  | body
  deriving DecidableEq

inductive HelloFailure where
  | reset (part : HelloPart)
  | closedMidFrame (part : HelloPart)
  | readError (part : HelloPart)
  | badMagic (magic : UInt32)
  | range (len : Nat)
  | noMemory (len : Nat)
  | undecodable (len : Nat)
  deriving DecidableEq

def orHello (part : HelloPart) : ReadEnd → Except HelloFailure (Nat × Bytes × Bytes)
  | .all i d rest => .ok (i, d, rest)
  | .eof => .error (.closedMidFrame part)
  | .reset => .error (.reset part)
  | .error => .error (.readError part)

/-- `bep_read_hello` -/
def readHello (granted : Bool) (answers : Nat → ReadAnswer) (c : Conn) (stream : Bytes) :
    Except HelloFailure (Hello × Conn × Bytes) :=
  (orHello .header (readFull answers 6 0 6 stream)).bind fun (i, hdr, stream) =>
    if Words.get32 hdr ≠ bepMagic then .error (.badMagic (Words.get32 hdr))
    else
      let len := (Words.get16 (hdr.drop 4)).toNat
      if bepMsgMax < len then .error (.range len)
      else match growBuf c.wire len granted with
        | none => .error (.noMemory len)
        | some wire =>
          (orHello .body (readFull answers len i len stream)).bind fun (_, d, rest) =>
            let wire := Buffer.write wire 0 d
            match decodeHello (wire.take len) with
            | none => .error (.undecodable len)
            | some h => .ok (h, { c with wire := wire }, rest)

/-! ## What goes out -/

section Send
variable {accepts : Nat → Nat} {buf : Bytes}

/-- What a write that fails has put out. -/
theorem writeFull_part {fuel i : Nat} (hok : (writeFull accepts fuel i buf).2.2 = false) :
    (writeFull accepts fuel i buf).2.1 <+: buf ∧ (writeFull accepts fuel i buf).2.1.length < buf.length := by
  induction fuel generalizing i buf with
  | zero =>
    rw [writeFull] at hok ⊢
    refine ⟨List.nil_prefix, ?_⟩
    dsimp only at hok ⊢
    cases buf with
    | nil => simp at hok
    | cons b buf => simp
  | succ fuel ih =>
    rw [writeFull] at hok ⊢
    split at hok
    · exact absurd hok (by simp)
    · rename_i hne
      have hpos := List.length_pos_iff.mpr hne
      rw [if_neg hne]
      dsimp only at hok ⊢
      split at hok
      · rename_i hzero
        rw [if_pos hzero]
        exact ⟨List.nil_prefix, by simpa using hpos⟩
      · rename_i hsome
        rw [if_neg hsome]
        dsimp only at hok ⊢
        obtain ⟨⟨q, hq⟩, hlen⟩ := ih hok
        refine ⟨⟨q, ?_⟩, ?_⟩
        · rw [List.append_assoc, hq, List.take_append_drop]
        · rw [List.length_drop] at hlen
          rw [List.length_append, List.length_take]
          omega

theorem writeSplit_part {frame body : Bytes} {flen : Nat} (hok : (writeSplit accepts frame flen body).2 = false) :
    (writeSplit accepts frame flen body).1 <+: frame.take flen ++ body ∧
      (writeSplit accepts frame flen body).1.length < (frame.take flen ++ body).length := by
  rw [writeSplit] at hok ⊢
  dsimp only at hok ⊢
  split at hok
  · rename_i hhead
    rw [if_pos hhead]
    dsimp only at hok ⊢
    obtain ⟨⟨q, hq⟩, hlen⟩ := writeFull_part hok
    refine ⟨⟨q, ?_⟩, ?_⟩
    · rw [writeFull_ok hhead, List.append_assoc, hq]
    · rw [writeFull_ok hhead, List.length_append, List.length_append]
      omega
  · rename_i hhead
    rw [if_neg hhead]
    obtain ⟨⟨q, hq⟩, hlen⟩ := writeFull_part hok
    refine ⟨⟨q ++ body, by rw [← List.append_assoc, hq]⟩, ?_⟩
    rw [List.length_append]
    omega

/-- A send that fails has put out a part of its frame. -/
theorem sendMessage_part {z : Lz4} {granted : Bool} {c : Conn} {type : Int32} {msg : Bytes}
    (hok : (sendMessage z granted accepts c type msg).ok = false) :
    ∃ hdr body, body = (chooseBody z granted c type msg).2.1 ∧
      (sendMessage z granted accepts c type msg).written <+: frameBytes hdr body ∧
      (sendMessage z granted accepts c type msg).written.length < (frameBytes hdr body).length := by
  unfold sendMessage at hok ⊢
  dsimp only at hok ⊢
  rw [encodeHeader_eq] at hok ⊢
  dsimp only at hok ⊢
  generalize chooseBody z granted c type msg = r at hok ⊢
  generalize hhdr : (⟨type, if r.2.2 then bepCompressLz4 else bepCompressNone⟩ : Header) = hdr at hok ⊢
  have hlen := length_headerBytes hdr
  have hframe : r.1.frame.length = 2070 := r.1.frameRoom
  have hroom : (headerBytes hdr).length + 6 ≤ r.1.frame.length := by omega
  have htake := take_putHead (n := r.2.1.length) hroom
  have hput := length_putHead (n := r.2.1.length) hroom
  have hbytes : frameBytes hdr r.2.1 =
      (putHead r.1.frame (headerBytes hdr) r.2.1.length).take (2 + (headerBytes hdr).length + 4) ++ r.2.1 := by
    rw [htake, frameBytes]
  refine ⟨hdr, r.2.1, rfl, ?_⟩
  rw [hbytes]
  split at hok
  · rename_i h0
    rw [if_pos h0, List.length_eq_zero_iff.mp h0, List.append_nil] at *
    exact writeFull_part hok
  · rename_i h0
    rw [if_neg h0]
    split at hok
    · rename_i hsmall
      rw [if_pos hsmall]
      unfold writeCoalesced at hok ⊢
      rw [Buffer.take_write_end (by omega)] at hok ⊢
      exact writeFull_part hok
    · rename_i hbig
      rw [if_neg hbig]
      exact writeSplit_part hok

theorem sendHello_eq (accepts : Nat → Nat) (h : Hello) :
    sendHello accepts h = (writeFull accepts (helloBytes h).length 0 (helloBytes h)).2 := by
  have hlen := length_helloBody h
  have hcoalesce : bepCoalesceMax = 2048 := rfl
  rw [sendHello, encodeHello_eq, if_pos (by omega)]
  dsimp only
  rw [if_pos (by omega), helloBytes]

end Send

/-! ## What is read -/

section Read
variable {z : Lz4} {mem : ReadMem} {answers : Nat → ReadAnswer} {c : Conn} {stream : Bytes}

theorem orHello_ok {part : HelloPart} {e : ReadEnd} {r : Nat × Bytes × Bytes} (h : orHello part e = .ok r) :
    e = .all r.1 r.2.1 r.2.2 := by
  cases e with
  | all i d rest => exact Except.ok.inj h ▸ rfl
  | eof => exact absurd h (by simp [orHello])
  | reset => exact absurd h (by simp [orHello])
  | error => exact absurd h (by simp [orHello])

/-- **A Hello.** It is read off a whole one, and the rest of the stream is left. -/
theorem readHello_ok {granted : Bool} {h : Hello} {c' : Conn} {rest : Bytes}
    (hread : readHello granted answers c stream = .ok (h, c', rest)) :
    ∃ hdr body, stream = hdr ++ body ++ rest ∧ hdr.length = 6 ∧ Words.get32 hdr = bepMagic ∧
      body.length = (Words.get16 (hdr.drop 4)).toNat ∧ decodeHello body = some h ∧
      c' = { c with wire := c'.wire } := by
  unfold readHello at hread
  cases hhead : orHello .header (readFull answers 6 0 6 stream) with
  | error f => rw [hhead] at hread; cases hread
  | ok r =>
    obtain ⟨hs, hsix⟩ := readFull_all (orHello_ok hhead)
    rw [hhead] at hread
    dsimp only [Except.bind] at hread
    split at hread
    · cases hread
    · rename_i hmagic
      split at hread
      · cases hread
      · split at hread
        · cases hread
        · rename_i wire hwire
          cases hbody : orHello .body (readFull answers (Words.get16 (r.2.1.drop 4)).toNat r.1
              (Words.get16 (r.2.1.drop 4)).toNat r.2.2) with
          | error f => rw [hbody] at hread; cases hread
          | ok q =>
            obtain ⟨hs', hlen⟩ := readFull_all (orHello_ok hbody)
            rw [hbody] at hread
            dsimp only [Except.bind] at hread
            rw [Buffer.write_zero, List.take_left' hlen] at hread
            split at hread
            · cases hread
            · rename_i h' hdecode
              obtain ⟨rfl, rfl, rfl⟩ : h' = h ∧ _ = c' ∧ q.2.2 = rest := by simpa using hread
              exact ⟨r.2.1, q.2.1, by rw [hs, hs', List.append_assoc], hsix, not_not.mp hmagic, hlen, hdecode, rfl⟩

/-! ### The transport is of no account -/

theorem readFull_any {fuel i len j : Nat} {s d rest : Bytes} (h : readFull answers fuel i len s = .all j d rest)
    (hfuel : len ≤ fuel) (k : Nat) : ∃ n, readFull (fun _ => .got 1) fuel k len s = .all n d rest := by
  obtain ⟨hs, hlen⟩ := readFull_all h
  have hpos : Positive fun _ => .got 1 := fun _ => ⟨1, Nat.one_pos, rfl⟩
  obtain ⟨n, hn⟩ := readFull_eq hpos fuel k len s hfuel (by rw [hs, List.length_append]; omega)
  rw [hs, List.take_left' hlen, List.drop_left' hlen] at hn
  rw [hs]
  exact ⟨n, hn⟩

theorem orFail_ok {part : Part} {e : ReadEnd} {r : Nat × Bytes × Bytes} (h : e.orFail part = .ok r) :
    e = .all r.1 r.2.1 r.2.2 := by
  cases e with
  | all i d rest => exact Except.ok.inj h ▸ rfl
  | eof => exact absurd h (by simp [ReadEnd.orFail])
  | reset => exact absurd h (by simp [ReadEnd.orFail])
  | error => exact absurd h (by simp [ReadEnd.orFail])

theorem orFail_any {part : Part} {fuel i len : Nat} {s : Bytes} {r : Nat × Bytes × Bytes}
    (h : (readFull answers fuel i len s).orFail part = .ok r) (hfuel : len ≤ fuel) (k : Nat) :
    ∃ n, (readFull (fun _ => .got 1) fuel k len s).orFail part = .ok (n, r.2.1, r.2.2) := by
  obtain ⟨n, hn⟩ := readFull_any (orFail_ok h) hfuel k
  exact ⟨n, by rw [hn]; rfl⟩

theorem readHeaderLength_any {r : Nat × Bytes × Bytes} (h : readHeaderLength answers stream = .ok r) :
    ∃ n, readHeaderLength (fun _ => .got 1) stream = .ok (n, r.2.1, r.2.2) := by
  unfold readHeaderLength at h ⊢
  cases htwo : readFull answers 2 0 2 stream with
  | eof => rw [htwo] at h; cases h
  | reset => rw [htwo] at h; cases h
  | error => rw [htwo] at h; cases h
  | all j lenbuf s =>
    obtain ⟨n, hn⟩ := readFull_any htwo (Nat.le_refl 2) 0
    rw [htwo] at h
    obtain rfl := Except.ok.inj h
    exact ⟨n, by rw [hn]; rfl⟩

theorem readBody_any {hdr : Header} {i : Nat} {m : Message} (h : readBody z mem answers c hdr i stream = .ok m)
    (k : Nat) : readBody z mem (fun _ => .got 1) c hdr k stream = .ok m := by
  unfold readBody at h ⊢
  cases hfour : (readFull answers 4 i 4 stream).orFail .bodyLength with
  | error f => rw [hfour] at h; cases h
  | ok r =>
    obtain ⟨n, hn⟩ := orFail_any hfour (Nat.le_refl 4) k
    rw [hfour] at h
    rw [hn]
    dsimp only [Except.bind] at h ⊢
    split at h
    · cases h
    · rename_i hrange
      rw [if_neg hrange]
      split at h
      · cases h
      · rename_i wire hwire
        rw [hwire]
        dsimp only
        cases hbody : (readFull answers (Words.get32 r.2.1).toInt32.toInt.toNat r.1
            (Words.get32 r.2.1).toInt32.toInt.toNat r.2.2).orFail .body with
        | error f => rw [hbody] at h; cases h
        | ok q =>
          obtain ⟨l, hl⟩ := orFail_any hbody (Nat.le_refl _) n
          rw [hbody] at h
          rw [hl]
          exact h

/-- What is read does not depend on the parts it comes in. -/
theorem readMessage_any {m : Message} (h : readMessage z mem answers c stream = .ok m) :
    readMessage z mem (fun _ => .got 1) c stream = .ok m := by
  unfold Frame.readMessage at h ⊢
  cases htwo : readHeaderLength answers stream with
  | error f => rw [htwo] at h; cases h
  | ok r =>
    obtain ⟨n, hn⟩ := readHeaderLength_any htwo
    rw [htwo] at h
    rw [hn]
    dsimp only [Except.bind] at h ⊢
    split at h
    · cases h
    · rename_i hrange
      rw [if_neg hrange]
      split at h
      · cases h
      · rename_i wire hwire
        rw [hwire]
        dsimp only
        cases hhead : (readFull answers (Words.get16 r.2.1).toNat r.1 (Words.get16 r.2.1).toNat r.2.2).orFail
            .header with
        | error f => rw [hhead] at h; cases h
        | ok q =>
          obtain ⟨l, hl⟩ := orFail_any hhead (Nat.le_refl _) n
          rw [hhead] at h
          rw [hl]
          dsimp only at h ⊢
          split at h
          · cases h
          · rename_i hdr hdecode
            rw [hdecode]
            exact readBody_any h l

/-! ### The words -/

/-- A frame that goes out, and the message it is read as. -/
structure Frames (z : Lz4) (type : Int32) (msg b : Bytes) : Prop where
  frame : ∃ hdr body, hdr.type = type ∧ b = frameBytes hdr body ∧ body.length ≤ bepMsgMax ∧
    ∀ (mem : ReadMem) (c : Conn) (tail : Bytes), c.wire = body ++ tail →
      Gives mem (fun r => r.1 = msg) (openBody z mem c hdr body.length)

/-- **Sent.** What a send that succeeds puts out is a frame of the message. -/
theorem frames_sent (hz : z.Inverts) {granted : Bool} {accepts : Nat → Nat} {type : Int32} {msg : Bytes}
    (hlen : msg.length ≤ bepMsgMax) (hok : (sendMessage z granted accepts c type msg).ok = true) :
    Frames z type msg (sendMessage z granted accepts c type msg).written := by
  have hw := sendMessage_written hok
  rcases chooseBody_cases z granted c type msg with h | ⟨cap, hne, hshort, h⟩
  · rw [h] at hw
    refine ⟨_, _, rfl, hw, hlen, fun mem c' tail hwire => Or.inl ⟨_, openBody_plain _ ?_ hwire, rfl⟩⟩
    show bepCompressNone ≠ bepCompressLz4
    decide
  · rw [h] at hw
    refine ⟨_, _, rfl, hw, ?_, fun mem c' tail hwire => openBody_packed _ rfl hlen (hz msg cap hne) rfl hwire⟩
    rw [List.length_append, Words.length_put32]
    omega

theorem length_chooseBody {granted : Bool} {type : Int32} {msg : Bytes} (hlen : msg.length ≤ bepMsgMax) :
    (chooseBody z granted c type msg).2.1.length ≤ bepMsgMax := by
  rcases chooseBody_cases z granted c type msg with h | ⟨cap, hne, hshort, h⟩
  · rw [h]
    exact hlen
  · rw [h, List.length_append, Words.length_put32]
    omega

/-- **Received.** -/
theorem read_frames {type : Int32} {msg b rest : Bytes} {m : Message} (hb : Frames z type msg b)
    (h : readMessage z mem answers c (b ++ rest) = .ok m) : m.hdr.type = type ∧ m.body = msg ∧ m.rest = rest := by
  obtain ⟨hdr, body, htype, rfl, hlen, hopen⟩ := hb.frame
  have hpos : Positive fun _ => .got 1 := fun _ => ⟨1, Nat.one_pos, rfl⟩
  have hread : Gives mem (fun m => m.hdr = hdr ∧ m.body = msg ∧ m.rest = rest)
      (readMessage z mem (fun _ => .got 1) c (frameBytes hdr body ++ rest)) :=
    readMessage_frame (P := fun b => b = msg) hpos hdr hlen (hopen mem)
  rcases hread with ⟨m', hm', hhdr, hmsg, hrest⟩ | ⟨f, hf, -, -⟩
  · obtain rfl := Except.ok.inj (hm'.symm.trans (readMessage_any h))
    exact ⟨by rw [hhdr, htype], hmsg, hrest⟩
  · cases hf.symm.trans (readMessage_any h)

/-- With memory, and bytes from the transport. -/
theorem readMessage_positive {type : Int32} {msg b : Bytes} (hmem : mem.Granted) (hpos : Positive answers)
    (hb : Frames z type msg b) (rest : Bytes) :
    ∃ m, readMessage z mem answers c (b ++ rest) = .ok m ∧ m.hdr.type = type ∧ m.body = msg := by
  obtain ⟨hdr, body, htype, rfl, hlen, hopen⟩ := hb.frame
  have hread : Gives mem (fun m => m.hdr = hdr ∧ m.body = msg ∧ m.rest = rest)
      (readMessage z mem answers c (frameBytes hdr body ++ rest)) :=
    readMessage_frame (P := fun b => b = msg) hpos hdr hlen (hopen mem)
  rcases hread with ⟨m, hm, hhdr, hmsg, -⟩ | ⟨f, -, -, hno⟩
  · exact ⟨m, hm, by rw [hhdr, htype], hmsg⟩
  · exact absurd hmem hno

/-- A frame within the limits of the reader. -/
def FrameWord (b : Bytes) : Prop := ∃ f : WireFrame, b = f.bytes

theorem frameWord_frameBytes (hdr : Header) {body : Bytes} (hlen : body.length ≤ bepMsgMax) :
    FrameWord (frameBytes hdr body) := by
  have hhdr := length_headerBytes hdr
  refine ⟨⟨headerBytes hdr, body, by omega, hlen⟩, ?_⟩
  rw [frameBytes, WireFrame.bytes]
  simp only [List.append_assoc]

theorem put16_inj {m n : Nat} (hm : m < 2 ^ 16) (hn : n < 2 ^ 16)
    (h : Words.put16 (UInt16.ofNat m) = Words.put16 (UInt16.ofNat n)) : m = n := by
  have hget := congrArg Words.get16 h
  have hm' := Words.get16_put16 (UInt16.ofNat m) []
  have hn' := Words.get16_put16 (UInt16.ofNat n) []
  rw [List.append_nil] at hm' hn'
  rw [hm', hn'] at hget
  have hnat := congrArg UInt16.toNat hget
  rwa [UInt16.toNat_ofNat', UInt16.toNat_ofNat', Nat.mod_eq_of_lt hm, Nat.mod_eq_of_lt hn] at hnat

theorem put32_inj {m n : Nat} (hm : m < 2 ^ 32) (hn : n < 2 ^ 32)
    (h : Words.put32 (UInt32.ofNat m) = Words.put32 (UInt32.ofNat n)) : m = n := by
  have hget := congrArg Words.get32 h
  have hm' := Words.get32_put32 (UInt32.ofNat m) []
  have hn' := Words.get32_put32 (UInt32.ofNat n) []
  rw [List.append_nil] at hm' hn'
  rw [hm', hn'] at hget
  have hnat := congrArg UInt32.toNat hget
  rwa [UInt32.toNat_ofNat', UInt32.toNat_ofNat', Nat.mod_eq_of_lt hm, Nat.mod_eq_of_lt hn] at hnat

/-- **Frames** tell where they end. -/
theorem prefixFree_frames : Pipe.PrefixFree FrameWord := by
  rintro x y r q ⟨f, rfl⟩ ⟨g, rfl⟩ h
  have hmax : bepMsgMax = 1114112 := rfl
  simp only [WireFrame.bytes, List.append_assoc] at h
  obtain ⟨htwo, h⟩ := List.append_inj h (by rw [Words.length_put16, Words.length_put16])
  have hheader := put16_inj f.headerRange g.headerRange htwo
  obtain ⟨hh, h⟩ := List.append_inj h hheader
  obtain ⟨hfour, h⟩ := List.append_inj h (by rw [Words.length_put32, Words.length_put32])
  have hbody := put32_inj (by have := f.bodyRange; omega) (by have := g.bodyRange; omega) hfour
  obtain ⟨hb, -⟩ := List.append_inj h hbody
  rw [WireFrame.bytes, WireFrame.bytes, hh, hb]

/-- **Cut off.** A part of a frame is not read as a message. -/
theorem read_cut {b part : Bytes} {m : Message} (hb : FrameWord b) (hpart : part <+: b)
    (hshort : part.length < b.length) : readMessage z mem answers c part ≠ .ok m := by
  intro h
  have hwhole := readMessage_whole z mem answers c part
  rw [h] at hwhole
  obtain ⟨f, hf, -⟩ := hwhole
  exact prefixFree_frames.cut hb ⟨f, rfl⟩ hpart hshort hf

theorem length_helloBytes (h : Hello) : (helloBytes h).length = 6 + (helloBody h).length := by
  rw [helloBytes, List.length_append, List.length_append, Words.length_put32, Words.length_put16]

/-- **Received.** -/
theorem read_hello {granted : Bool} {h h' : Hello} {c' : Conn} {rest rest' : Bytes}
    (hread : readHello granted answers c (helloBytes h ++ rest) = .ok (h', c', rest')) :
    h' = h ∧ rest' = rest := by
  obtain ⟨hdr, body, hs, hsix, -, hbody, hdecode, -⟩ := readHello_ok hread
  have hlen := length_helloBody h
  have hsplit : Words.put32 bepMagic ++ Words.put16 (UInt16.ofNat (helloBody h).length) ++ (helloBody h ++ rest) =
      hdr ++ (body ++ rest') := by
    rw [← List.append_assoc hdr, ← hs, helloBytes, List.append_assoc _ (helloBody h)]
  obtain ⟨hhdr, hs⟩ := List.append_inj hsplit (by
    rw [List.length_append, Words.length_put32, Words.length_put16, hsix])
  have hsize : body.length = (helloBody h).length := by
    rw [hbody, ← hhdr, List.drop_left' (Words.length_put32 _)]
    have hget := Words.get16_put16 (UInt16.ofNat (helloBody h).length) []
    rw [List.append_nil] at hget
    rw [hget, UInt16.toNat_ofNat', Nat.mod_eq_of_lt (by omega)]
  obtain ⟨hb, hr⟩ := List.append_inj hs hsize.symm
  rw [← hb, decodeHello_bytes] at hdecode
  exact ⟨(Option.some.inj hdecode).symm, hr.symm⟩

/-- **Reading.** A Hello with anything behind it. -/
theorem readHello_frame (hpos : Positive answers) (h : Hello) (rest : Bytes) :
    ∃ c', readHello true answers c (helloBytes h ++ rest) = .ok (h, c', rest) := by
  have hlen := length_helloBody h
  have hmax : bepMsgMax = 1114112 := rfl
  have hsplit : helloBytes h ++ rest =
      (Words.put32 bepMagic ++ Words.put16 (UInt16.ofNat (helloBody h).length)) ++ (helloBody h ++ rest) := by
    rw [helloBytes, List.append_assoc]
  have hsix : (Words.put32 bepMagic ++ Words.put16 (UInt16.ofNat (helloBody h).length)).length = 6 := by
    rw [List.length_append, Words.length_put32, Words.length_put16]
  obtain ⟨j, hj⟩ := readFull_eq hpos 6 0 6 (helloBytes h ++ rest) (Nat.le_refl 6)
    (by rw [hsplit, List.length_append, hsix]; omega)
  rw [hsplit, List.take_left' hsix, List.drop_left' hsix] at hj
  have hmagic : Words.get32 (Words.put32 bepMagic ++ Words.put16 (UInt16.ofNat (helloBody h).length)) = bepMagic :=
    Words.get32_put32 bepMagic _
  have hsize : (Words.get16 ((Words.put32 bepMagic ++ Words.put16 (UInt16.ofNat (helloBody h).length)).drop 4)).toNat
      = (helloBody h).length := by
    rw [List.drop_left' (Words.length_put32 _)]
    have hget := Words.get16_put16 (UInt16.ofNat (helloBody h).length) []
    rw [List.append_nil] at hget
    rw [hget, UInt16.toNat_ofNat', Nat.mod_eq_of_lt (by omega)]
  obtain ⟨k, hk⟩ := readFull_eq hpos (helloBody h).length j (helloBody h).length (helloBody h ++ rest)
    (Nat.le_refl _) (by rw [List.length_append]; omega)
  rw [List.take_left, List.drop_left] at hk
  rw [readHello, hsplit, hj]
  simp only [orHello, Except.bind, hmagic, hsize]
  rw [if_neg (by simp), if_neg (by omega)]
  cases hg : growBuf c.wire (helloBody h).length true with
  | none => exact absurd (growBuf_none hg (by omega)) (by simp)
  | some wire =>
    simp only [hk]
    rw [Buffer.write_zero, List.take_left, decodeHello_bytes]
    exact ⟨_, rfl⟩

/-- **Cut off.** A part of a Hello is not read as one. -/
theorem readHello_cut {granted : Bool} {h : Hello} {part : Bytes} (hpart : part <+: helloBytes h)
    (hshort : part.length < (helloBytes h).length) (r : Hello × Conn × Bytes) :
    readHello granted answers c part ≠ .ok r := by
  intro hread
  obtain ⟨h', c', rest⟩ := r
  obtain ⟨hdr, body, hs, hsix, -, hbody, -⟩ := readHello_ok hread
  obtain ⟨q, hq⟩ := hpart
  have hlen := length_helloBody h
  rw [length_helloBytes] at hshort
  rw [hs, List.append_assoc, List.append_assoc, helloBytes] at hq
  obtain ⟨hhdr, -⟩ := List.append_inj hq (by
    rw [hsix, List.length_append, Words.length_put32, Words.length_put16])
  have hsize : body.length = (helloBody h).length := by
    rw [hbody, hhdr, List.drop_left' (Words.length_put32 _)]
    have hget := Words.get16_put16 (UInt16.ofNat (helloBody h).length) []
    rw [List.append_nil] at hget
    rw [hget, UInt16.toNat_ofNat', Nat.mod_eq_of_lt (by omega)]
  rw [hs, List.length_append, List.length_append] at hshort
  omega

/-! ### The body in its buffer -/

/-- The buffer that holds the body which was read last. -/
def bodyBuffer (c : Conn) : Bytes := if c.bodyInPlain then c.plain else c.wire

theorem openBody_buffer {hdr : Header} {n : Nat} {r : Bytes × Conn} (h : openBody z mem c hdr n = .ok r) :
    r.1 <+: bodyBuffer r.2 := by
  unfold openBody at h
  split at h
  · split at h
    · cases h
    · dsimp only at h
      split at h
      · cases h
      · split at h
        · cases h
        · split at h
          · cases h
          · split at h
            · cases h
            · obtain rfl := Except.ok.inj h
              exact List.take_prefix _ _
  · obtain rfl := Except.ok.inj h
    exact List.take_prefix _ _

theorem readMessage_buffer {m : Message} (h : readMessage z mem answers c stream = .ok m) :
    m.body <+: bodyBuffer m.conn := by
  have hbody : ∀ c hdr i stream, readBody z mem answers c hdr i stream = .ok m → m.body <+: bodyBuffer m.conn := by
    intro c hdr i stream h
    unfold readBody at h
    cases hfour : (readFull answers 4 i 4 stream).orFail .bodyLength with
    | error f => rw [hfour] at h; cases h
    | ok r =>
      rw [hfour] at h
      dsimp only [Except.bind] at h
      split at h
      · cases h
      · split at h
        · cases h
        · rename_i wire hwire
          cases hread : (readFull answers (Words.get32 r.2.1).toInt32.toInt.toNat r.1
              (Words.get32 r.2.1).toInt32.toInt.toNat r.2.2).orFail .body with
          | error f => rw [hread] at h; cases h
          | ok q =>
            rw [hread] at h
            dsimp only [Except.bind] at h
            cases hopen : openBody z mem { c with wire := Buffer.write wire 0 q.2.1 } hdr
                (Words.get32 r.2.1).toInt32.toInt.toNat with
            | error f => rw [hopen] at h; cases h
            | ok o =>
              rw [hopen] at h
              obtain rfl := Except.ok.inj h
              exact openBody_buffer hopen
  unfold Frame.readMessage at h
  cases htwo : readHeaderLength answers stream with
  | error f => rw [htwo] at h; cases h
  | ok r =>
    rw [htwo] at h
    dsimp only [Except.bind] at h
    split at h
    · cases h
    · split at h
      · cases h
      · cases hread : (readFull answers (Words.get16 r.2.1).toNat r.1 (Words.get16 r.2.1).toNat r.2.2).orFail
            .header with
        | error f => rw [hread] at h; cases h
        | ok q =>
          rw [hread] at h
          dsimp only at h
          split at h
          · cases h
          · exact hbody _ _ _ _ h

/-- While a body is handled, a send leaves its buffer alone. -/
theorem sendMessage_buffer {granted : Bool} {accepts : Nat → Nat} {type : Int32} {msg : Bytes}
    (hh : c.inHandler = true) :
    bodyBuffer (sendMessage z granted accepts c type msg).conn = bodyBuffer c ∧
      (sendMessage z granted accepts c type msg).conn.inHandler = true := by
  have hconn : (sendMessage z granted accepts c type msg).conn = (chooseBody z granted c type msg).1 := by
    unfold sendMessage
    dsimp only
    rw [encodeHeader_eq]
  have hframe : (chooseBody z granted c type msg).1.wire = c.wire ∧
      (chooseBody z granted c type msg).1.inHandler = c.inHandler ∧
      (chooseBody z granted c type msg).1.bodyInPlain = c.bodyInPlain := by
    unfold chooseBody
    split
    · exact ⟨rfl, rfl, rfl⟩
    · split
      · split
        · exact ⟨rfl, rfl, rfl⟩
        · dsimp only
          split <;> exact ⟨rfl, rfl, rfl⟩
      · exact ⟨rfl, rfl, rfl⟩
  obtain ⟨hwire, hhandler, hplain⟩ := hframe
  rw [hconn]
  refine ⟨?_, hhandler.trans hh⟩
  unfold bodyBuffer
  rw [hplain, hwire]
  split
  · rename_i hb
    exact chooseBody_plain hh hb
  · rfl

end Read

end Amisync.Greeting

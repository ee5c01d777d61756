import Amisync.Frame
import Amisync.Lib.Outcome

/-!
# Where a stream may end (`read_full`, `bep_read_message`)

A close between two frames is no error; one inside a frame is. Both come from a
`read_full` that says the same whether it had none of its bytes or some.

* `readFull_all`, `readFull_eof`: what a part of a frame leaves of the stream.
* `readMessage_whole`: a message is a whole frame of the stream.
* `readMessage_closed_iff`: when a close is taken for one between two frames.
* `end_of_stream_iff`: this is right unless the stream is one byte long.
-/

namespace Amisync

namespace Frame

/-- Bytes are handed over in some parts until the stream ends; a reset or an error may come first. -/
def Chunked (answers : Nat → ReadAnswer) : Prop := ∀ i, answers i ≠ .got 0

/-- What `bep_read_message` returns. -/
def returned : Except Failure Message → Int
  | .ok _ => 1
  | .error .closed => 0
  | .error _ => -1

/-- `last_err`, which is emptied before a frame is read. -/
def lastErr : Except Failure Message → Option Failure
  | .ok _ => none
  | .error .closed => none
  | .error f => some f

/-- A frame within the limits. -/
structure WireFrame where
  header : Bytes
  body : Bytes
  headerRange : header.length < 2 ^ 16
  bodyRange : body.length ≤ bepMsgMax

def WireFrame.bytes (f : WireFrame) : Bytes :=
  Words.put16 (UInt16.ofNat f.header.length) ++ f.header ++
    (Words.put32 (UInt32.ofNat f.body.length) ++ f.body)

section
variable {answers : Nat → ReadAnswer} {z : Lz4} {mem : ReadMem} {c : Conn} {stream : Bytes}

/-! ## The parts of a frame -/

theorem readFull_all {fuel i len : Nat} {s : Bytes} {j : Nat} {d rest : Bytes}
    (h : readFull answers fuel i len s = .all j d rest) : s = d ++ rest ∧ d.length = len := by
  induction fuel generalizing i len s j d rest with
  | zero =>
    rw [readFull] at h
    split at h
    · rename_i h0
      cases h
      exact ⟨rfl, h0.symm⟩
    · cases h
  | succ fuel ih =>
    rw [readFull] at h
    split at h
    · rename_i h0
      cases h
      exact ⟨rfl, h0.symm⟩
    · split at h
      · cases h
      · cases h
      · rename_i n ha
        dsimp only at h
        split at h
        · cases h
        · rename_i hpos
          cases hrec : readFull answers fuel (i + 1) (len - min (min n len) s.length)
              (s.drop (min (min n len) s.length)) with
          | all k d' rest' =>
            rw [hrec] at h
            cases h
            obtain ⟨hs, hd⟩ := ih hrec
            refine ⟨?_, ?_⟩
            · rw [List.append_assoc, ← hs, List.take_append_drop]
            · rw [List.length_append, List.length_take, hd]
              omega
          | eof => rw [hrec] at h; cases h
          | reset => rw [hrec] at h; cases h
          | error => rw [hrec] at h; cases h

/-- The stream ends where there is less of it than was asked for. -/
theorem readFull_eof (hchunk : Chunked answers) {fuel i len : Nat} {s : Bytes}
    (h : readFull answers fuel i len s = .eof) : s.length < len := by
  induction fuel generalizing i len s with
  | zero =>
    rw [readFull] at h
    split at h
    · cases h
    · cases h
  | succ fuel ih =>
    rw [readFull] at h
    split at h
    · cases h
    · rename_i hlen
      split at h
      · cases h
      · cases h
      · rename_i n ha
        have hn : n ≠ 0 := by
          intro hn
          subst hn
          exact hchunk i ha
        dsimp only at h
        split at h
        · omega
        · cases hrec : readFull answers fuel (i + 1) (len - min (min n len) s.length)
              (s.drop (min (min n len) s.length)) with
          | all k d rest => rw [hrec] at h; cases h
          | eof =>
            have hshort := ih hrec
            rw [List.length_drop] at hshort
            omega
          | reset => rw [hrec] at h; cases h
          | error => rw [hrec] at h; cases h

/-- A part of a frame that is behind the first length. -/
theorem readFull_part (answers : Nat → ReadAnswer) (part : Part) (fuel i len : Nat) (s : Bytes) :
    Outcome (fun r => s = r.2.1 ++ r.2.2 ∧ r.2.1.length = len) (· ≠ .closed)
      ((readFull answers fuel i len s).orFail part) := by
  cases h : readFull answers fuel i len s with
  | all j d rest => exact readFull_all h
  | eof => exact Failure.noConfusion
  | reset => exact Failure.noConfusion
  | error => exact Failure.noConfusion

/-- `msg` is what the body of a frame says. -/
def Carries (z : Lz4) (hdr : Header) (body msg : Bytes) : Prop :=
  if hdr.compression = bepCompressLz4 then 4 ≤ body.length ∧ ∃ n, z.decompress (body.drop 4) n = some msg
  else msg = body

theorem openBody_whole (z : Lz4) (mem : ReadMem) (hdr : Header) {body tail : Bytes} (hlen : body.length ≤ bepMsgMax)
    (hw : c.wire = body ++ tail) :
    Outcome (fun r => Carries z hdr body r.1 ∧ r.1.length ≤ bepMsgMax) (· ≠ .closed)
      (openBody z mem c hdr body.length) := by
  rw [openBody]
  split
  · rename_i hlz4
    split
    · exact Failure.noConfusion
    · rename_i hfour
      dsimp only
      split
      · exact Failure.noConfusion
      · rename_i hrange
        split
        · exact Failure.noConfusion
        · rename_i plain hplain
          split
          · exact Failure.noConfusion
          · rename_i d hd
            split
            · exact Failure.noConfusion
            · rename_i hsize
              have hpacked : (c.wire.drop 4).take (body.length - 4) = body.drop 4 := by
                rw [hw, List.drop_append_of_le_length (by omega), List.take_left' (by rw [List.length_drop])]
              have htake : (Buffer.write plain 0 d).take (Words.get32 c.wire).toInt32.toInt.toNat = d := by
                rw [Buffer.write_zero, List.take_left' (not_not.mp hsize)]
              rw [hpacked] at hd
              show Carries z hdr body ((Buffer.write plain 0 d).take _) ∧ _
              rw [htake, Carries, if_pos hlz4]
              refine ⟨⟨by omega, _, hd⟩, ?_⟩
              show d.length ≤ bepMsgMax
              omega
  · rename_i hplain
    show Carries z hdr body (c.wire.take body.length) ∧ (c.wire.take body.length).length ≤ bepMsgMax
    rw [hw, List.take_left, Carries, if_neg hplain]
    exact ⟨rfl, hlen⟩

theorem ofNat_toInt {w : UInt32} (h : 0 ≤ w.toInt32.toInt) : UInt32.ofNat w.toInt32.toInt.toNat = w := by
  have hw : w.toNat < 2 ^ 32 := w.toNat_lt
  have hcond : w.toInt32.toInt = if 2 * w.toNat < 2 ^ 32 then (w.toNat : Int) else w.toNat - (2 ^ 32 : Nat) :=
    BitVec.toInt_eq_toNat_cond w.toBitVec
  rw [hcond] at h ⊢
  split
  · exact UInt32.ofNat_toNat
  · rename_i hbig
    rw [if_neg hbig] at h
    omega

/-- The second half of a frame. -/
theorem readBody_whole (z : Lz4) (mem : ReadMem) (answers : Nat → ReadAnswer) (c : Conn) (hdr : Header)
    (i : Nat) (stream : Bytes) :
    Outcome (fun m => m.hdr = hdr ∧ m.body.length ≤ bepMsgMax ∧
        ∃ body, stream = Words.put32 (UInt32.ofNat body.length) ++ body ++ m.rest ∧
          body.length ≤ bepMsgMax ∧ Carries z hdr body m.body) (· ≠ .closed)
      (readBody z mem answers c hdr i stream) := by
  rw [readBody]
  refine (readFull_part answers .bodyLength 4 i 4 stream).bind ?_
  rintro ⟨j, lenbuf, s⟩ ⟨hs, hfour⟩
  dsimp only at hs hfour ⊢
  split
  · exact Failure.noConfusion
  · rename_i hrange
    split
    · exact Failure.noConfusion
    · rename_i wire hwire
      refine (readFull_part answers .body _ j (Words.get32 lenbuf).toInt32.toInt.toNat s).bind ?_
      rintro ⟨k, body, rest⟩ ⟨hbody, hmlen⟩
      dsimp only at hbody hmlen ⊢
      have hlen : body.length ≤ bepMsgMax := by omega
      have hword : UInt32.ofNat body.length = Words.get32 lenbuf := by
        rw [hmlen]
        exact ofNat_toInt (by omega)
      rw [← hmlen]
      refine (openBody_whole z mem hdr (c := { c with wire := Buffer.write wire 0 body }) hlen
        (Buffer.write_zero wire body)).map ?_
      rintro ⟨msg, c'⟩ ⟨hcarries, hmsg⟩
      refine ⟨rfl, hmsg, body, ?_, hlen, hcarries⟩
      rw [hword, Words.put32_get32 hfour, hs, hbody, List.append_assoc]

/-- **A message.** It is read off a whole frame, and the rest of the stream is left. -/
theorem readMessage_whole (z : Lz4) (mem : ReadMem) (answers : Nat → ReadAnswer) (c : Conn) (stream : Bytes) :
    Outcome (fun m => ∃ f : WireFrame, stream = f.bytes ++ m.rest ∧ decodeHeader f.header = some m.hdr ∧
        Carries z m.hdr f.body m.body ∧ m.body.length ≤ bepMsgMax)
      (fun f => f = .closed → readFull answers 2 0 2 stream = .eof)
      (readMessage z mem answers c stream) := by
  have hopen : ∀ f : Failure, f ≠ .closed → f = .closed → readFull answers 2 0 2 stream = .eof :=
    fun f hf hclosed => absurd hclosed hf
  rw [readMessage, readHeaderLength]
  cases hread : readFull answers 2 0 2 stream with
  | eof => exact fun _ => rfl
  | reset => exact Failure.noConfusion
  | error => exact Failure.noConfusion
  | all j lenbuf s =>
    obtain ⟨hs, htwo⟩ := readFull_all hread
    dsimp only [ReadEnd.orFail, Except.bind]
    split
    · exact Failure.noConfusion
    · split
      · exact Failure.noConfusion
      · rename_i wire hwire
        rw [← hread]
        refine ((readFull_part answers .header _ j _ s).mono (fun _ h => h) hopen).bind ?_
        rintro ⟨k, header, s'⟩ ⟨hs', hhlen⟩
        dsimp only at hs' hhlen ⊢
        have htake : (Buffer.write wire 0 header).take (Words.get16 lenbuf).toNat = header := by
          rw [Buffer.write_zero, List.take_left' hhlen]
        rw [htake]
        split
        · exact Failure.noConfusion
        · rename_i hdr hdecode
          refine (readBody_whole z mem answers _ hdr k s').mono ?_ hopen
          rintro m ⟨hhdr, hmsg, body, hbody, hblen, hcarries⟩
          have hword : Words.put16 (UInt16.ofNat header.length) = lenbuf := by
            rw [hhlen, UInt16.ofNat_toNat, Words.put16_get16 htwo]
          refine ⟨⟨header, body, by rw [hhlen]; exact UInt16.toNat_lt _, hblen⟩, ?_, ?_, ?_, hmsg⟩
          · rw [WireFrame.bytes, hword, hs, hs', hbody]
            simp only [List.append_assoc]
          · rw [hhdr]
            exact hdecode
          · rw [hhdr]
            exact hcarries

variable (z mem answers c stream) in
/-- **A close.** It is taken for one between two frames where less than a frame's first two bytes come. -/
theorem readMessage_closed_iff :
    readMessage z mem answers c stream = .error .closed ↔ readFull answers 2 0 2 stream = .eof := by
  constructor
  · intro h
    have := readMessage_whole z mem answers c stream
    rw [h] at this
    exact this rfl
  · intro h
    rw [readMessage, readHeaderLength, h]
    rfl

/-- One byte of two, and then the end. -/
theorem readFull_one (hchunk : Chunked answers) (b : UInt8) : readFull answers 2 0 2 [b] = .eof ↔
    (∃ n, answers 0 = .got n) ∧ ∃ n, answers 1 = .got n := by
  have hfirst : ∀ n, answers 0 = .got n → min (min n 2) [b].length = 1 := by
    intro n hn
    have : n ≠ 0 := fun h => hchunk 0 (by rw [hn, h])
    rw [List.length_singleton]
    omega
  rw [readFull, if_neg (by decide)]
  cases h0 : answers 0 with
  | reset => simp
  | error => simp
  | got n =>
    dsimp only
    rw [hfirst n h0, if_neg Nat.one_ne_zero, readFull, if_neg (by decide)]
    cases h1 : answers 1 with
    | reset => simp
    | error => simp
    | got m => simp

/-! ## The end of the stream -/

/-- A close is reported for an empty stream only, one that ends inside a frame is an error, and a
message is a whole frame. -/
def EndsRight (z : Lz4) (stream : Bytes) (r : Except Failure Message) : Prop :=
  (returned r = 0 → stream = []) ∧
  (stream ≠ [] → (∀ (f : WireFrame) rest, stream ≠ f.bytes ++ rest) → returned r = -1 ∧ (lastErr r).isSome) ∧
  (∀ m, r = .ok m → ∃ f : WireFrame, stream = f.bytes ++ m.rest ∧ decodeHeader f.header = some m.hdr ∧
    Carries z m.hdr f.body m.body ∧ m.body.length ≤ bepMsgMax)

/-- **The end.** It is reported right unless it comes, as such, after one byte. -/
theorem end_of_stream_iff (hchunk : Chunked answers) :
    EndsRight z stream (readMessage z mem answers c stream) ↔
      ¬ (stream.length = 1 ∧ (∃ n, answers 0 = .got n) ∧ ∃ n, answers 1 = .got n) := by
  have hclosed := readMessage_closed_iff answers z mem c stream
  have hwhole := readMessage_whole z mem answers c stream
  constructor
  · rintro ⟨hzero, -, -⟩ ⟨hone, hboth⟩
    obtain ⟨b, rfl⟩ := List.length_eq_one_iff.mp hone
    rw [hclosed.mpr ((readFull_one hchunk b).mpr hboth)] at hzero
    exact absurd (hzero rfl) (by simp)
  · intro hno
    have hnil : readMessage z mem answers c stream = .error .closed → stream = [] := by
      intro h
      have heof := hclosed.mp h
      have hshort := readFull_eof hchunk heof
      cases stream with
      | nil => rfl
      | cons b s =>
        obtain rfl : s = [] := List.length_eq_zero_iff.mp (by simp only [List.length_cons] at hshort; omega)
        exact absurd ⟨rfl, (readFull_one hchunk b).mp heof⟩ hno
    cases hr : readMessage z mem answers c stream with
    | ok m =>
      rw [hr] at hwhole
      obtain ⟨f, hf, hrest⟩ := hwhole
      refine ⟨fun h => by simp [returned] at h, fun _ hinside => absurd hf (hinside f m.rest), ?_⟩
      rintro m' ⟨⟩
      exact ⟨f, hf, hrest⟩
    | error f =>
      rw [hr] at hnil
      refine ⟨?_, ?_, fun m h => by cases h⟩
      · cases f with
        | closed => exact fun _ => hnil rfl
        | _ => exact fun h => by simp [returned] at h
      · intro hne _
        cases f with
        | closed => exact absurd (hnil rfl) hne
        | _ => exact ⟨rfl, rfl⟩

/-- An empty stream. -/
theorem end_of_nothing :
    EndsRight zerosLz4 [] (readMessage zerosLz4 ⟨true, true, true⟩ (fun _ => .got 1) freshConn []) :=
  (end_of_stream_iff (fun _ h => by cases h)).mpr fun h => by simp at h

/-- One byte of a header length, taken for a close between two frames. -/
theorem cut_after_one :
    returned (readMessage zerosLz4 ⟨true, true, true⟩ (fun _ => .got 1) freshConn [0]) = 0 ∧
    ¬ EndsRight zerosLz4 [0] (readMessage zerosLz4 ⟨true, true, true⟩ (fun _ => .got 1) freshConn [0]) := by
  have hclosed : readMessage zerosLz4 ⟨true, true, true⟩ (fun _ => .got 1) freshConn [0] = .error .closed :=
    (readMessage_closed_iff _ _ _ _ _).mpr rfl
  rw [hclosed]
  refine ⟨rfl, ?_⟩
  rintro ⟨hzero, -, -⟩
  exact absurd (hzero rfl) (by simp)

end

end Frame

end Amisync

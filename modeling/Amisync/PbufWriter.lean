import Amisync.PbufReader

/-!
# The writer's buffer (`pbuf_writer_init` to `pbuf_write_message`)

What the writer does to its buffer, call by call, also where it fails.

* `PbufWriter`: the buffer, what it may hold, what is in it, and the flag.
* `perform_call`: what a call keeps. `run_kept`: what a run keeps of every writer.
* `writeVarint_refines`, `writeUint64_refines`, `writeBytes_refines`, `writeMessage_refines`: what is
  in the buffer is what `Pbuf` writes.
* `readVarint_written`: a number that was written is read back.
* `primitives_safe`: the reader and the writer, over every run.
-/

namespace Amisync

namespace Pbuf

open Objects (seq Sticky)

/-! ## The calls -/

/-- `buf` is the memory from the destination on. -/
structure PbufWriter where
  buf : Bytes
  cap : Nat
  len : Nat
  error : Bool
deriving DecidableEq

namespace PbufWriter

def init (buf : Bytes) (cap : Nat) : PbufWriter := ⟨buf, cap, 0, false⟩

def putByte (b : UInt8) (w : PbufWriter) : Bool × PbufWriter :=
  if w.error then (false, w)
  else if w.cap ≤ w.len then (false, { w with error := true })
  else (true, { w with buf := Buffer.write w.buf w.len [b], len := w.len + 1 })

-- `len` never exceeds `cap`, so that their difference does not wrap
def putRaw (data : Bytes) (w : PbufWriter) : Bool × PbufWriter :=
  if w.error then (false, w)
  else if w.cap - w.len < data.length then (false, { w with error := true })
  else (true, { w with buf := Buffer.write w.buf w.len data, len := w.len + data.length })

theorem shift_lt {v : UInt64} (h : v >>> 7 ≠ 0) : (v >>> 7).toNat < v.toNat := by
  have hbig := Varint.shift_ne_zero.mp h
  rw [Varint.toNat_shift]
  omega

def writeVarint (v : UInt64) (w : PbufWriter) : Bool × PbufWriter :=
  let b := (v &&& 0x7f).toUInt8
  let b := if v >>> 7 ≠ 0 then b ||| 0x80 else b
  match w.putByte b with
  | (false, w) => (false, w)
  | (true, w) => if _h : v >>> 7 ≠ 0 then writeVarint (v >>> 7) w else (true, w)
termination_by v.toNat
decreasing_by exact shift_lt _h

def writeTag (field : UInt32) (wiretype : Int32) : PbufWriter → Bool × PbufWriter :=
  writeVarint (tagOf field wiretype.toUInt32.toUInt64)

def writeUint64 (field : UInt32) (v : UInt64) : PbufWriter → Bool × PbufWriter :=
  seq (writeTag field 0) (writeVarint v)

def writeInt64 (field : UInt32) (v : Int64) : PbufWriter → Bool × PbufWriter :=
  seq (writeTag field 0) (writeVarint v.toUInt64)

def writeBool (field : UInt32) (v : Int32) : PbufWriter → Bool × PbufWriter :=
  writeUint64 field (if v ≠ 0 then 1 else 0)

def writeEnum (field : UInt32) (v : Int32) : PbufWriter → Bool × PbufWriter :=
  writeUint64 field v.toUInt32.toUInt64

def writeBytes (field : UInt32) (data : Bytes) : PbufWriter → Bool × PbufWriter :=
  seq (writeTag field 2) (seq (writeVarint (UInt64.ofNat data.length)) (putRaw data))

/-- The bytes up to the first NUL. -/
def writeString (field : UInt32) (s : Bytes) : PbufWriter → Bool × PbufWriter :=
  writeBytes field (s.takeWhile (· != 0))

def writeMessage (field : UInt32) (msg w : PbufWriter) : Bool × PbufWriter :=
  if msg.error then (false, { w with error := true })
  else w.writeBytes field (msg.buf.take msg.len)

end PbufWriter

inductive WriteOp
  | varint (v : UInt64)
  | tag (field : UInt32) (wiretype : Int32)
  | uint64 (field : UInt32) (v : UInt64)
  | int64 (field : UInt32) (v : Int64)
  | bool (field : UInt32) (v : Int32)
  | enum (field : UInt32) (v : Int32)
  | bytes (field : UInt32) (data : Bytes)
  | string (field : UInt32) (s : Bytes)
  | message (field : UInt32) (msg : PbufWriter)

def PbufWriter.perform : WriteOp → PbufWriter → Bool × PbufWriter
  | .varint v => writeVarint v
  | .tag f wt => writeTag f wt
  | .uint64 f v => writeUint64 f v
  | .int64 f v => writeInt64 f v
  | .bool f v => writeBool f v
  | .enum f v => writeEnum f v
  | .bytes f data => writeBytes f data
  | .string f s => writeString f s
  | .message f msg => writeMessage f msg

/-! ## What a call keeps -/

namespace PbufWriter

/-- What is written is inside the capacity, which is inside the memory. -/
def Fits (w : PbufWriter) : Prop := w.len ≤ w.cap ∧ w.cap ≤ w.buf.length

/-- The bytes before `len`, and from `cap` on, are as they were. -/
structure Kept (w w' : PbufWriter) : Prop where
  cap : w'.cap = w.cap
  length : w'.buf.length = w.buf.length
  le : w.len ≤ w'.len
  front : w'.buf.take w.len = w.buf.take w.len
  back : w'.buf.drop w.cap = w.buf.drop w.cap
  stuck : w.error = true → w' = w

theorem kept_refl (w : PbufWriter) : w.Kept w :=
  ⟨rfl, rfl, Nat.le_refl _, rfl, rfl, fun _ => rfl⟩

theorem kept_trans (w u t : PbufWriter) (h : w.Kept u) (h' : u.Kept t) : w.Kept t where
  cap := h'.cap.trans h.cap
  length := h'.length.trans h.length
  le := h.le.trans h'.le
  front := by
    have hcut : t.buf.take w.len = (t.buf.take u.len).take w.len := by
      rw [List.take_take, Nat.min_eq_left h.le]
    rw [hcut, h'.front, List.take_take, Nat.min_eq_left h.le, h.front]
  back := by
    have hback := h'.back
    rw [h.cap] at hback
    exact hback.trans h.back
  stuck herr := by
    have hu := h.stuck herr
    exact (h'.stuck (hu ▸ herr)).trans hu

/-- Only the flag is set. -/
theorem kept_flag {w : PbufWriter} (herr : w.error = false) : w.Kept { w with error := true } :=
  ⟨rfl, rfl, Nat.le_refl _, rfl, rfl, fun h => absurd h (by simp [herr])⟩

abbrev Call (f : PbufWriter → Bool × PbufWriter) : Prop := Sticky error Fits Kept f

theorem putRaw_call (data : Bytes) : Call (putRaw data) where
  stuck w herr := by rw [putRaw, if_pos herr]
  fails w := by
    rw [putRaw]
    split
    · simp [*]
    · split
      · rfl
      · simp [*]
  keeps w hw := by
    rw [putRaw]
    split
    · exact hw
    split
    · exact hw
    · rename_i hroom
      obtain ⟨hlen, hcap⟩ := hw
      have hfit : w.len + data.length ≤ w.cap := by omega
      refine ⟨hfit, ?_⟩
      show w.cap ≤ (Buffer.write w.buf w.len data).length
      rw [Buffer.length_write (hfit.trans hcap)]
      exact hcap
  moves w hw := by
    rw [putRaw]
    split
    · exact kept_refl w
    rename_i herr
    rw [Bool.not_eq_true] at herr
    split
    · exact kept_flag herr
    · rename_i hroom
      obtain ⟨hlen, hcap⟩ := hw
      have hfit : w.len + data.length ≤ w.cap := by omega
      exact ⟨rfl, Buffer.length_write (hfit.trans hcap), Nat.le_add_right _ _,
        Buffer.take_write (Nat.le_refl _) (hlen.trans hcap),
        Buffer.drop_write_after hfit (hlen.trans hcap), fun h => absurd h (by simp [herr])⟩

theorem putByte_eq (b : UInt8) : putByte b = putRaw [b] := by
  funext w
  have hfull : w.cap ≤ w.len ↔ w.cap - w.len < [b].length := by
    rw [List.length_singleton]
    omega
  rw [putByte, putRaw]
  simp only [hfull]
  rfl

theorem putByte_call (b : UInt8) : Call (putByte b) := putByte_eq b ▸ putRaw_call [b]

theorem call_seq {f g : PbufWriter → Bool × PbufWriter} (hf : Call f) (hg : Call g) : Call (seq f g) :=
  Objects.sticky_seq kept_trans hf hg

/-- One turn of the loop. -/
theorem writeVarint_eq (v : UInt64) : writeVarint v =
    if v >>> 7 ≠ 0 then seq (putByte ((v &&& 0x7f).toUInt8 ||| 0x80)) (writeVarint (v >>> 7))
    else putByte (v &&& 0x7f).toUInt8 := by
  funext w
  rw [writeVarint]
  by_cases h : v >>> 7 ≠ 0
  · simp only [if_pos h, dif_pos h, seq]
    rcases putByte _ w with ⟨_ | _, u⟩ <;> rfl
  · simp only [if_neg h, dif_neg h]
    rcases putByte _ w with ⟨_ | _, u⟩ <;> rfl

theorem writeVarint_call (v : UInt64) : Call (writeVarint v) := by
  induction h : v.toNat using Nat.strong_induction_on generalizing v with
  | _ n ih =>
    rw [writeVarint_eq]
    split
    · rename_i hmore
      exact call_seq (putByte_call _) (ih _ (h ▸ shift_lt hmore) _ rfl)
    · exact putByte_call _

theorem writeUint64_call (field : UInt32) (v : UInt64) : Call (writeUint64 field v) :=
  call_seq (writeVarint_call _) (writeVarint_call v)

theorem writeBytes_call (field : UInt32) (data : Bytes) : Call (writeBytes field data) :=
  call_seq (writeVarint_call _) (call_seq (writeVarint_call _) (putRaw_call data))

theorem writeMessage_call (field : UInt32) (msg : PbufWriter) : Call (writeMessage field msg) := by
  cases hmsg : msg.error with
  | false =>
    have heq : writeMessage field msg = writeBytes field (msg.buf.take msg.len) := by
      funext w
      rw [writeMessage, hmsg]
      rfl
    rw [heq]
    exact writeBytes_call field _
  | true =>
    have heq : ∀ w, writeMessage field msg w = (false, { w with error := true }) := by
      intro w
      rw [writeMessage, if_pos hmsg]
    refine ⟨fun w herr => ?_, fun w => ?_, fun w hw => ?_, fun w hw => ?_⟩
    · rw [heq, ← herr]
    · rw [heq]
      rfl
    · rw [heq]
      exact hw
    · rw [heq]
      cases herr : w.error with
      | false => exact kept_flag herr
      | true =>
        rw [← herr]
        exact kept_refl w

/-- **Step.** -/
theorem perform_call (o : WriteOp) : Call (perform o) := by
  cases o with
  | varint v => exact writeVarint_call v
  | tag f wt => exact writeVarint_call _
  | uint64 f v => exact writeUint64_call f v
  | int64 f v => exact writeUint64_call f v.toUInt64
  | bool f v => exact writeUint64_call f _
  | enum f v => exact writeUint64_call f _
  | bytes f data => exact writeBytes_call f data
  | string f s => exact writeBytes_call f _
  | message f msg => exact writeMessage_call f msg

/-! ## What is written -/

/-- The writer without the memory it has not written to. -/
def written (w : PbufWriter) : Writer := ⟨w.buf.take w.len, w.cap, w.error⟩

/-- A call does to the buffer what `g` does. -/
def Refines (f : PbufWriter → Bool × PbufWriter) (g : Writer → Writer) : Prop :=
  ∀ w, w.Fits → (f w).2.written = g w.written

theorem putRaw_refines (data : Bytes) : Refines (putRaw data) (Writer.putRaw · data) := by
  intro w hw
  obtain ⟨hlen, hcap⟩ := hw
  have hwrote : (w.buf.take w.len).length = w.len := List.length_take_of_le (hlen.trans hcap)
  show (putRaw data w).2.written = w.written.putRaw data
  rw [putRaw, Writer.putRaw, written, written]
  dsimp only
  rw [hwrote]
  split
  · rfl
  split
  · rfl
  · dsimp only
    rw [Buffer.take_write_end (hlen.trans hcap)]

theorem putByte_refines (b : UInt8) : Refines (putByte b) (Writer.putByte · b) := by
  intro w hw
  rw [putByte_eq]
  exact (putRaw_refines [b] w hw).trans (Writer.putByte_eq w.written b).symm

/-- The functional writer does nothing after a failure. -/
def Stuck (g : Writer → Writer) : Prop := ∀ w, w.error = true → g w = w

theorem refines_seq {f f' : PbufWriter → Bool × PbufWriter} {g g' : Writer → Writer} (hf : Call f)
    (hg : Stuck g') (h : Refines f g) (h' : Refines f' g') : Refines (seq f f') (g' ∘ g) := by
  intro w hw
  have hstep := h w hw
  have hfail := hf.fails w
  have hfits := hf.keeps w hw
  rw [seq, Function.comp_apply, ← hstep]
  rcases hfw : f w with ⟨_ | _, u⟩
  · rw [hfw] at hfail
    have herr : u.error = true := by simpa using hfail.symm
    exact (hg u.written herr).symm
  · rw [hfw] at hfits
    exact h' u hfits

theorem stuck_putByte (b : UInt8) : Stuck (Writer.putByte · b) := by
  intro w herr
  exact if_pos herr

theorem stuck_foldl (x : Bytes) : Stuck (x.foldl Writer.putByte ·) := by
  intro w herr
  induction x with
  | nil => rfl
  | cons b x ih =>
    show x.foldl Writer.putByte (w.putByte b) = w
    rw [show w.putByte b = w from stuck_putByte b w herr]
    exact ih

theorem stuck_putRaw (data : Bytes) : Stuck (Writer.putRaw · data) := by
  intro w herr
  exact if_pos herr

/-- **Loop.** -/
theorem writeVarint_groups (fuel : Nat) (v : UInt64) (hv : v.toNat < 128 ^ (fuel + 1)) :
    Refines (writeVarint v) ((Varint.groups (fuel + 1) v).foldl Writer.putByte ·) := by
  induction fuel generalizing v with
  | zero =>
    have hlast : ¬ v >>> 7 ≠ 0 := fun h => by
      have := Varint.shift_ne_zero.mp h
      omega
    rw [writeVarint_eq, if_neg hlast, Varint.groups_succ, if_neg hlast]
    exact putByte_refines _
  | succ fuel ih =>
    rw [writeVarint_eq, Varint.groups_succ]
    split
    · rw [Nat.pow_succ] at hv
      have hrest := ih (v >>> 7) (by rw [Varint.toNat_shift]; omega)
      exact refines_seq (putByte_call _) (stuck_foldl _) (putByte_refines _) hrest
    · exact putByte_refines _

theorem writeVarint_refines (v : UInt64) : Refines (writeVarint v) (Writer.writeVarint · v) :=
  writeVarint_groups 9 v (Nat.lt_trans v.toNat_lt (by decide))

theorem stuck_writeVarint (v : UInt64) : Stuck (Writer.writeVarint · v) := stuck_foldl _

theorem writeUint64_refines (field : UInt32) (v : UInt64) :
    Refines (writeUint64 field v) (Writer.writeUint64 · field v) :=
  refines_seq (writeVarint_call _) (stuck_writeVarint v) (writeVarint_refines _) (writeVarint_refines v)

theorem writeBytes_refines (field : UInt32) (data : Bytes) :
    Refines (writeBytes field data) (Writer.writeBytes · field data) := by
  have hbody := refines_seq (writeVarint_call (UInt64.ofNat data.length)) (stuck_putRaw data)
    (writeVarint_refines _) (putRaw_refines data)
  refine refines_seq (writeVarint_call _) ?_ (writeVarint_refines _) hbody
  intro w herr
  show (w.writeVarint _).putRaw data = w
  rw [show w.writeVarint _ = w from stuck_writeVarint _ w herr]
  exact stuck_putRaw data w herr

theorem writeMessage_refines (field : UInt32) (msg : PbufWriter) :
    Refines (writeMessage field msg) (Writer.writeMessage · field msg.written) := by
  intro w hw
  show (writeMessage field msg w).2.written = w.written.writeMessage field msg.written
  rw [writeMessage, Writer.writeMessage]
  have hmsg : msg.written.error = msg.error := rfl
  rw [hmsg]
  split
  · rfl
  · exact writeBytes_refines field _ w hw

/-- A number is written where it fits; then it is at the end of what was written. -/
theorem writeVarint_wrote {w : PbufWriter} (hw : w.Fits) (herr : w.error = false) (v : UInt64) :
    (w.writeVarint v).2.written.Wrote w.cap (w.buf.take w.len ++ Varint.put v) := by
  have hwrote : w.written.Wrote w.cap (w.buf.take w.len) := by
    refine ⟨rfl, ⟨fun _ => ?_, fun _ => herr⟩, fun _ => rfl⟩
    rw [List.length_take_of_le (hw.1.trans hw.2)]
    exact hw.1
  have hafter : (w.written.writeVarint v).Wrote w.cap _ := hwrote.foldl_putByte (Varint.put v)
  have href : (w.writeVarint v).2.written = w.written.writeVarint v := writeVarint_refines v w hw
  exact href ▸ hafter

theorem writeVarint_ok {w : PbufWriter} (hw : w.Fits) (v : UInt64) :
    (w.writeVarint v).1 = true ↔ w.error = false ∧ w.len + (Varint.put v).length ≤ w.cap := by
  have hcall := writeVarint_call v
  cases herr : w.error with
  | true =>
    rw [hcall.stuck w herr]
    simp
  | false =>
    have hfits := (writeVarint_wrote hw herr v).fits
    rw [List.length_append, List.length_take_of_le (hw.1.trans hw.2)] at hfits
    rw [hcall.fails w, Bool.not_eq_true', ← hfits]
    exact (and_iff_right rfl).symm

/-- **Round trip.** The reader is over the memory that was written to, at the place where
the number was put. -/
theorem readVarint_written {w : PbufWriter} (hw : w.Fits) (v : UInt64) (hok : (w.writeVarint v).1 = true)
    {r : PbufReader} (hr : r.error = false) (hp : r.p = w.len) (hstop : (w.writeVarint v).2.len ≤ r.stop)
    (hend : r.stop ≤ (w.writeVarint v).2.buf.length) :
    r.readVarint (w.writeVarint v).2.buf = (some v, { r with p := (w.writeVarint v).2.len }) := by
  obtain ⟨herr, hroom⟩ := (writeVarint_ok hw v).mp hok
  have hold : (w.buf.take w.len).length = w.len := List.length_take_of_le (hw.1.trans hw.2)
  have hwrote := writeVarint_wrote hw herr v
  have htake := hwrote.buf (hwrote.fits.mpr (by rw [List.length_append, hold]; exact hroom))
  have hle := ((writeVarint_call v).moves w hw).le
  clear hwrote
  generalize w.writeVarint v = x at htake hle hstop hend ⊢
  obtain ⟨ok, u⟩ := x
  replace htake : u.buf.take u.len = w.buf.take w.len ++ Varint.put v := htake
  dsimp only at hle hstop hend ⊢
  have hlen : u.len = w.len + (Varint.put v).length := by
    have h := congrArg List.length htake
    rwa [List.length_take_of_le (hstop.trans hend), List.length_append, hold] at h
  have hin : r.Inside u.buf := ⟨hp ▸ hle.trans hstop, hend⟩
  have hsplit : u.buf.drop w.len = Varint.put v ++ u.buf.drop u.len := by
    have h := List.take_append_drop u.len u.buf
    rw [htake, List.append_assoc] at h
    rw [← h, List.drop_left' hold, h]
  have hrest : r.rest u.buf = Varint.put v ++ (u.buf.drop u.len).take (r.stop - u.len) := by
    have hn : r.stop - w.len = (Varint.put v).length + (r.stop - u.len) := by omega
    rw [PbufReader.rest, Buffer.read, hp, hsplit, hn, List.take_length_add_append]
  rw [readVarint_put hin hr hrest, hp, hlen]

end PbufWriter

/-! ## Runs -/

/-- A writer is set over a memory that holds its capacity, or a writer is called. -/
inductive WriteEvent
  | init (buf : Bytes) (cap : Nat)
  | call (i : Nat) (o : WriteOp)

namespace WriteState

def step (l : List PbufWriter) : WriteEvent → List PbufWriter
  | .init buf cap => if cap ≤ buf.length then l ++ [PbufWriter.init buf cap] else l
  | .call i o =>
    match l[i]? with
    | none => l
    | some w => l.set i (w.perform o).2

def run (l : List PbufWriter) (es : List WriteEvent) : List PbufWriter := es.foldl step l

def Fits (l : List PbufWriter) : Prop := ∀ w ∈ l, w.Fits

theorem fits_step (l : List PbufWriter) (e : WriteEvent) (hl : Fits l) : Fits (step l e) := by
  cases e with
  | init buf cap =>
    rw [step]
    split
    · rename_i hcap
      intro w hw
      rcases List.mem_append.mp hw with hw | hw
      · exact hl w hw
      · rw [List.mem_singleton.mp hw]
        exact ⟨Nat.zero_le _, hcap⟩
    · exact hl
  | call i o =>
    rw [step]
    split
    · exact hl
    · rename_i w hget
      intro u hu
      rcases List.mem_or_eq_of_mem_set hu with hu | rfl
      · exact hl u hu
      · exact (PbufWriter.perform_call o).keeps w (hl w (List.mem_of_getElem? hget))

theorem kept_step (l : List PbufWriter) (e : WriteEvent) (hl : Fits l) :
    Objects.Grown PbufWriter.Kept l (step l e) := by
  cases e with
  | init buf cap =>
    rw [step]
    split
    · exact Objects.grown_append PbufWriter.kept_refl _ _
    · exact Objects.grown_refl PbufWriter.kept_refl _
  | call i o =>
    rw [step]
    split
    · exact Objects.grown_refl PbufWriter.kept_refl _
    · rename_i w hget
      exact Objects.grown_set PbufWriter.kept_refl hget
        ((PbufWriter.perform_call o).moves w (hl w (List.mem_of_getElem? hget)))

theorem fits_run {l : List PbufWriter} (hl : Fits l) (es : List WriteEvent) : Fits (run l es) :=
  Objects.inv_foldl fits_step es hl

/-- **Run.** -/
theorem run_kept {l : List PbufWriter} (hl : Fits l) (es : List WriteEvent) :
    Objects.Grown PbufWriter.Kept l (run l es) :=
  Objects.grown_foldl id PbufWriter.kept_refl PbufWriter.kept_trans fits_step kept_step es hl

end WriteState

/-- A number that was written is read back. A reader goes forward in its message and takes at
least a byte with each success, a writer adds to its buffer up to its capacity, and neither does
anything after its first error. -/
theorem primitives_safe :
    (∀ (w : PbufWriter) (v : UInt64), w.Fits →
      ((w.writeVarint v).1 = true ↔ w.error = false ∧ w.len + (Varint.put v).length ≤ w.cap) ∧
      ((w.writeVarint v).1 = true → ∀ r : PbufReader, r.error = false → r.p = w.len →
        (w.writeVarint v).2.len ≤ r.stop → r.stop ≤ (w.writeVarint v).2.buf.length →
        r.readVarint (w.writeVarint v).2.buf = (some v, { r with p := (w.writeVarint v).2.len }))) ∧
    (∀ (m : Bytes) (es fs : List ReadEvent) (i : Nat) (r : PbufReader),
      ((ReadState.start m).run m es).readers[i]? = some r →
      r.p ≤ r.stop ∧ r.stop ≤ m.length ∧
      (∀ o, ((r.perform m o).1 ≠ none → r.p < (r.perform m o).2.p) ∧
        (r.error = true → r.perform m o = (none, r))) ∧
      ∃ r', (((ReadState.start m).run m es).run m fs).readers[i]? = some r' ∧ r'.stop = r.stop ∧
        r.p + ((ReadState.start m).run m es).successes m i fs ≤ r'.p ∧ r'.p ≤ r'.stop ∧
        (r.error = true → r' = r)) ∧
    (∀ (es fs : List WriteEvent) (i : Nat) (w : PbufWriter), (WriteState.run [] es)[i]? = some w →
      w.len ≤ w.cap ∧
      (∀ o, (w.perform o).1 = !(w.perform o).2.error ∧ (w.error = true → w.perform o = (false, w))) ∧
      ∃ w', (WriteState.run (WriteState.run [] es) fs)[i]? = some w' ∧ w'.cap = w.cap ∧
        w.len ≤ w'.len ∧ w'.len ≤ w'.cap ∧ w'.buf.take w.len = w.buf.take w.len ∧
        w'.buf.drop w.cap = w.buf.drop w.cap ∧ (w.error = true → w' = w)) := by
  refine ⟨fun w v hw => ⟨PbufWriter.writeVarint_ok hw v, fun hok r hr hp hstop hend =>
    PbufWriter.readVarint_written hw v hok hr hp hstop hend⟩, ?_, ?_⟩
  · intro m es fs i r hr
    have hin := ReadState.inside_run (ReadState.inside_start m) es
    have hout := ReadState.inside_run hin fs
    obtain ⟨r', hr', hkept, hused⟩ := used_run m i fs _ hr
    have hr_in := hin.readers r (List.mem_of_getElem? hr)
    refine ⟨hr_in.1, hr_in.2, fun o => ⟨fun hsome => ?_, (perform_reads m r o).stuck⟩, r', hr', hkept.stop, hused,
      (hout.readers r' (List.mem_of_getElem? hr')).1, hkept.stuck⟩
    exact (perform_reads m r o).used (Option.isSome_iff_ne_none.mpr hsome)
  · intro es fs i w hw
    have hfits := WriteState.fits_run (l := []) (by simp [WriteState.Fits]) es
    obtain ⟨w', hw', hkept⟩ := WriteState.run_kept hfits fs i w hw
    have hw'_fits := WriteState.fits_run hfits fs w' (List.mem_of_getElem? hw')
    exact ⟨(hfits w (List.mem_of_getElem? hw)).1,
      fun o => ⟨(PbufWriter.perform_call o).fails w, (PbufWriter.perform_call o).stuck w⟩,
      w', hw', hkept.cap, hkept.le, hw'_fits.1, hkept.front, hkept.back, hkept.stuck⟩

end Pbuf

end Amisync

import Amisync.Pbuf
import Amisync.Lib.Buffer
import Amisync.Lib.Objects

/-!
# The reader's cursor (`pbuf_reader_init` to `pbuf_skip`)

What the reader does to its pointers, call by call, also where it fails.

* `PbufReader`: the cursor, the end and the flag. `Reads`: what a call may do.
* `perform_reads`: every call of the reader does that.
* `readVarint_rest`, `readTag_rest`, `readBytes_rest`: what is read is what `Pbuf` reads of the bytes left.
* `ReadState`: readers over one message, also over parts of it that were read.
* `used_run`: what a run keeps of every reader, and what it takes of its bytes.
-/

namespace Amisync

namespace Pbuf

/-! ## The calls -/

/-- Positions in the memory that is read; `stop` is the C `end`. -/
structure PbufReader where
  p : Nat
  stop : Nat
  error : Bool
deriving DecidableEq

namespace PbufReader

def init (data len : Nat) : PbufReader := ⟨data, data + len, false⟩

def eof (r : PbufReader) : Bool := !r.error && decide (r.stop ≤ r.p)

/-- The loop of `pbuf_read_varint`. -/
def readVarintLoop (m : Bytes) (value : UInt64) (shift : Nat) (r : PbufReader) :
    Option UInt64 × PbufReader :=
  if shift < 64 then
    if r.stop ≤ r.p then (none, { r with error := true })
    else
      let b := m.getD r.p 0
      let r := { r with p := r.p + 1 }
      let value := value ||| (b &&& 0x7f).toUInt64 <<< UInt64.ofNat shift
      if b &&& 0x80 = 0 then (some value, r) else readVarintLoop m value (shift + 7) r
  else (none, { r with error := true })
termination_by 64 - shift

def readVarint (m : Bytes) (r : PbufReader) : Option UInt64 × PbufReader :=
  if r.error then (none, r) else readVarintLoop m 0 0 r

def readTag (m : Bytes) (r : PbufReader) : Option (UInt32 × Int32) × PbufReader :=
  if r.error ∨ r.stop ≤ r.p then (none, r)
  else match r.readVarint m with
    | (none, r) => (none, r)
    | (some tag, r) => (some ((tag >>> 3).toUInt32, (tag &&& 7).toUInt32.toInt32), r)

/-- Where the bytes start, and how many there are. -/
def readBytes (m : Bytes) (r : PbufReader) : Option (Nat × Nat) × PbufReader :=
  match r.readVarint m with
  | (none, r) => (none, r)
  | (some n, r) =>
    if r.stop - r.p < n.toNat then (none, { r with error := true })
    else (some (r.p, n.toNat), { r with p := r.p + n.toNat })

/-- Bytes in little-endian order. -/
def fixed (b : Bytes) : UInt64 := b.foldr (fun x v => v <<< 8 ||| x.toUInt64) 0

/-- `pbuf_read_fixed32` and `pbuf_read_fixed64`. -/
def readFixed (n : Nat) (m : Bytes) (r : PbufReader) : Option UInt64 × PbufReader :=
  if r.error then (none, r)
  else if r.stop - r.p < n then (none, { r with error := true })
  else (some (fixed (Buffer.read m r.p n)), { r with p := r.p + n })

def readFixed32 (m : Bytes) (r : PbufReader) : Option UInt32 × PbufReader :=
  let (v, r) := readFixed 4 m r
  (v.map UInt64.toUInt32, r)

def readFixed64 (m : Bytes) (r : PbufReader) : Option UInt64 × PbufReader := readFixed 8 m r

def skip (m : Bytes) (wiretype : Int32) (r : PbufReader) : Bool × PbufReader :=
  if wiretype = 0 then let (v, r) := r.readVarint m; (v.isSome, r)
  else if wiretype = 1 then let (v, r) := r.readFixed64 m; (v.isSome, r)
  else if wiretype = 2 then let (v, r) := r.readBytes m; (v.isSome, r)
  else if wiretype = 5 then let (v, r) := r.readFixed32 m; (v.isSome, r)
  else (false, { r with error := true })

end PbufReader

inductive ReadOp
  | varint
  | tag
  | bytes
  | skip (wiretype : Int32)

/-- What a call gives back. -/
inductive Got
  | varint (v : UInt64)
  | tag (field : UInt32) (wiretype : Int32)
  | bytes (data len : Nat)
  | skipped
deriving DecidableEq

def Got.slices : Option Got → List (Nat × Nat)
  | some (.bytes data len) => [(data, len)]
  | _ => []

def PbufReader.perform (m : Bytes) (r : PbufReader) : ReadOp → Option Got × PbufReader
  | .varint => let (v, r) := r.readVarint m; (v.map .varint, r)
  | .tag => let (t, r) := r.readTag m; (t.map fun (f, w) => .tag f w, r)
  | .bytes => let (d, r) := r.readBytes m; (d.map fun (p, n) => .bytes p n, r)
  | .skip w => let (ok, r) := r.skip m w; (if ok then some .skipped else none, r)

/-! ## What a call may do -/

/-- The cursor is in its buffer. -/
def PbufReader.Inside (m : Bytes) (r : PbufReader) : Prop := r.p ≤ r.stop ∧ r.stop ≤ m.length

/-- The cursor goes forward, not past the end; a call that succeeds takes a byte; with the flag
set it fails and moves nothing. -/
structure Reads {α : Type*} (r : PbufReader) (x : Option α × PbufReader) : Prop where
  stop : x.2.stop = r.stop
  le : r.p ≤ x.2.p
  bound : r.p ≤ r.stop → x.2.p ≤ r.stop
  used : x.1.isSome → r.p < x.2.p
  clean : x.1.isSome → x.2.error = false
  stuck : r.error = true → x = (none, r)

section Reads
variable {α β : Type*} {m : Bytes} {r : PbufReader}

theorem reads_stuck (r : PbufReader) : Reads r ((none, r) : Option α × PbufReader) :=
  ⟨rfl, Nat.le_refl _, id, by simp, by simp, fun _ => rfl⟩

/-- The cursor is left where it is. -/
theorem reads_fail {q : PbufReader} (hr : r.error = false) (hstop : q.stop = r.stop) (hle : r.p ≤ q.p)
    (hbound : r.p ≤ r.stop → q.p ≤ r.stop) : Reads r ((none, q) : Option α × PbufReader) :=
  ⟨hstop, hle, hbound, by simp, by simp, fun h => absurd h (by simp [hr])⟩

theorem reads_some {q : PbufReader} (v : α) (hr : r.error = false) (hstop : q.stop = r.stop)
    (hlt : r.p < q.p) (hbound : r.p ≤ r.stop → q.p ≤ r.stop) (hq : q.error = false) : Reads r (some v, q) :=
  ⟨hstop, hlt.le, hbound, fun _ => hlt, fun _ => hq, fun h => absurd h (by simp [hr])⟩

/-- What is made of the result does not matter. -/
theorem Reads.congr {o : Option α} {o' : Option β} {q : PbufReader} (h : Reads r (o, q))
    (ho : o'.isSome = o.isSome) : Reads r (o', q) where
  stop := h.stop
  le := h.le
  bound := h.bound
  used hsome := h.used (ho ▸ hsome)
  clean hsome := h.clean (ho ▸ hsome)
  stuck herr := by
    have hstuck := h.stuck herr
    rw [Prod.mk.injEq] at hstuck
    have hnone : o' = none := by
      rw [hstuck.1] at ho
      simpa using ho
    rw [hstuck.2, hnone]

theorem readVarintLoop_reads (m : Bytes) (value : UInt64) (shift : Nat) (hr : r.error = false) :
    Reads r (r.readVarintLoop m value shift) := by
  fun_induction PbufReader.readVarintLoop m value shift r with
  | case1 value shift r hshift hend => exact reads_fail hr rfl (Nat.le_refl _) id
  | case2 value shift r hshift hend b q v hlast =>
    rw [Nat.not_le] at hend
    exact reads_some _ hr rfl (Nat.lt_succ_self _) (fun _ => hend) hr
  | case3 value shift r hshift hend b q v hmore ih =>
    rw [Nat.not_le] at hend
    have h := ih hr
    have hlt : r.p < q.p := Nat.lt_succ_self _
    exact ⟨h.stop, hlt.le.trans h.le, fun _ => h.bound hend, fun _ => Nat.lt_of_lt_of_le hlt h.le, h.clean,
      fun herr => absurd herr (by simp [hr])⟩
  | case4 value shift r hshift => exact reads_fail hr rfl (Nat.le_refl _) id

theorem readVarint_reads (m : Bytes) (r : PbufReader) : Reads r (r.readVarint m) := by
  rw [PbufReader.readVarint]
  split
  · exact reads_stuck r
  · rename_i herr
    exact readVarintLoop_reads m 0 0 (by simpa using herr)

theorem readTag_reads (m : Bytes) (r : PbufReader) : Reads r (r.readTag m) := by
  have h := readVarint_reads m r
  rw [PbufReader.readTag]
  split
  · exact reads_stuck r
  · split
    · rename_i hread
      rw [hread] at h
      exact h.congr rfl
    · rename_i hread
      rw [hread] at h
      exact h.congr rfl

theorem readBytes_reads (m : Bytes) (r : PbufReader) : Reads r (r.readBytes m) := by
  have h := readVarint_reads m r
  rw [PbufReader.readBytes]
  split
  · rename_i hread
    rw [hread] at h
    exact h.congr rfl
  · rename_i q hread
    rw [hread] at h
    have hr : r.error = false := by
      rw [Bool.eq_false_iff]
      intro herr
      exact absurd (congrArg Prod.fst (h.stuck herr)) (by simp)
    have hlt := h.used rfl
    have hstop : q.stop = r.stop := h.stop
    dsimp only at hlt
    split
    · exact reads_fail hr h.stop h.le h.bound
    · rename_i hroom
      have hclean : q.error = false := h.clean rfl
      refine reads_some _ hr hstop (Nat.lt_of_lt_of_le hlt (Nat.le_add_right _ _)) (fun hle => ?_) hclean
      have hq : q.p ≤ r.stop := h.bound hle
      rw [← hstop] at hq ⊢
      show q.p + _ ≤ q.stop
      omega

/-- The bytes that were read end at the cursor. -/
theorem readBytes_slice {d : Nat × Nat} {q : PbufReader} (h : r.readBytes m = (some d, q)) :
    q.p = d.1 + d.2 := by
  rw [PbufReader.readBytes] at h
  split at h
  · cases h
  · split at h
    · cases h
    · cases h
      rfl

theorem readFixed_reads {n : Nat} (hn : 0 < n) (m : Bytes) (r : PbufReader) : Reads r (r.readFixed n m) := by
  rw [PbufReader.readFixed]
  split
  · exact reads_stuck r
  · rename_i herr
    have hr : r.error = false := by simpa using herr
    split
    · exact reads_fail hr rfl (Nat.le_refl _) id
    · rename_i hroom
      refine reads_some _ hr rfl (Nat.lt_add_of_pos_right hn) (fun hle => ?_) hr
      show r.p + n ≤ r.stop
      omega

theorem skip_reads (m : Bytes) (w : Int32) (r : PbufReader) :
    Reads r (if (r.skip m w).1 then some () else none, (r.skip m w).2) := by
  have hok : ∀ {α : Type} {x : Option α × PbufReader}, Reads r x →
      Reads r (if x.1.isSome then some () else none, x.2) := by
    intro α x h
    exact h.congr (by cases x.1 <;> rfl)
  rw [PbufReader.skip]
  split
  · exact hok (readVarint_reads m r)
  split
  · exact hok (readFixed_reads (by decide) m r)
  split
  · exact hok (readBytes_reads m r)
  split
  · exact hok ((readFixed_reads (by decide) m r).congr Option.isSome_map)
  · cases hr : r.error with
    | false => exact reads_fail hr rfl (Nat.le_refl _) id
    | true =>
      have hsame : ({ r with error := true } : PbufReader) = r := by rw [← hr]
      show Reads r (none, ({ r with error := true } : PbufReader))
      rw [hsame]
      exact reads_stuck r

/-- **Step.** -/
theorem perform_reads (m : Bytes) (r : PbufReader) (o : ReadOp) : Reads r (r.perform m o) := by
  cases o with
  | varint => exact (readVarint_reads m r).congr Option.isSome_map
  | tag => exact (readTag_reads m r).congr Option.isSome_map
  | bytes => exact (readBytes_reads m r).congr Option.isSome_map
  | skip w =>
    have h := skip_reads m w r
    rw [PbufReader.perform]
    rcases hskip : r.skip m w with ⟨_ | _, q⟩
    · rw [hskip] at h
      exact h.congr rfl
    · rw [hskip] at h
      exact h.congr rfl

end Reads

/-! ## What is read -/

/-- The bytes that are left. -/
def PbufReader.rest (m : Bytes) (r : PbufReader) : Bytes := Buffer.read m r.p (r.stop - r.p)

section Rest
variable {m : Bytes} {r : PbufReader}

theorem length_rest (hin : r.Inside m) : (r.rest m).length = r.stop - r.p := by
  obtain ⟨hp, hstop⟩ := hin
  rw [PbufReader.rest, Buffer.read, List.length_take, List.length_drop]
  omega

theorem rest_nil (h : r.stop ≤ r.p) : r.rest m = [] := by
  rw [PbufReader.rest, Buffer.read, Nat.sub_eq_zero_of_le h, List.take_zero]

theorem eof_iff (hin : r.Inside m) : r.eof = true ↔ r.error = false ∧ r.rest m = [] := by
  rw [PbufReader.eof, Bool.and_eq_true, Bool.not_eq_true', decide_eq_true_iff,
    ← List.length_eq_zero_iff, length_rest hin, Nat.sub_eq_zero_iff_le]

theorem rest_cons (hin : r.Inside m) (h : r.p < r.stop) :
    r.rest m = m.getD r.p 0 :: ({ r with p := r.p + 1 } : PbufReader).rest m := by
  have hp : r.p < m.length := Nat.lt_of_lt_of_le h hin.2
  have hn : r.stop - r.p = r.stop - (r.p + 1) + 1 := by omega
  rw [PbufReader.rest, PbufReader.rest, Buffer.read, Buffer.read, hn, List.drop_eq_getElem_cons hp,
    List.take_succ_cons, List.getD_eq_getElem _ _ hp]

theorem rest_drop (n : Nat) : ({ r with p := r.p + n } : PbufReader).rest m = (r.rest m).drop n := by
  rw [PbufReader.rest, PbufReader.rest, Buffer.read, Buffer.read, List.drop_take, List.drop_drop,
    Nat.sub_add_eq]

theorem rest_take {n : Nat} (hn : n ≤ r.stop - r.p) : Buffer.read m r.p n = (r.rest m).take n := by
  rw [PbufReader.rest, Buffer.read, Buffer.read, List.take_take, Nat.min_eq_left hn]

/-- **Loop.** Bit `shift` of the value is next, and `fuel` bytes are still allowed. -/
theorem readVarintLoop_rest (m : Bytes) (value : UInt64) (shift : Nat) (r : PbufReader) :
    ∀ fuel, r.Inside m → shift + 7 * fuel = 70 →
      Varint.gather fuel value (UInt64.ofNat shift) (r.rest m) =
        (r.readVarintLoop m value shift).1.map fun v => (v, (r.readVarintLoop m value shift).2.rest m) := by
  fun_induction PbufReader.readVarintLoop m value shift r with
  | case1 value shift r hshift hend =>
    intro fuel hin hfuel
    obtain ⟨n, rfl⟩ : ∃ n, fuel = n + 1 := ⟨fuel - 1, by omega⟩
    rw [rest_nil hend]
    rfl
  | case2 value shift r hshift hend b q v hlast =>
    intro fuel hin hfuel
    obtain ⟨n, rfl⟩ : ∃ n, fuel = n + 1 := ⟨fuel - 1, by omega⟩
    rw [rest_cons hin (Nat.not_le.mp hend), Varint.gather, if_pos hlast]
    rfl
  | case3 value shift r hshift hend b q v hmore ih =>
    intro fuel hin hfuel
    obtain ⟨n, rfl⟩ : ∃ n, fuel = n + 1 := ⟨fuel - 1, by omega⟩
    have hlt := Nat.not_le.mp hend
    rw [rest_cons hin hlt, Varint.gather, if_neg hmore, ← ih n ⟨hlt, hin.2⟩ (by omega), UInt64.ofNat_add]
    rfl
  | case4 value shift r hshift =>
    intro fuel hin hfuel
    obtain rfl : fuel = 0 := by omega
    rfl

theorem readVarint_rest (hin : r.Inside m) (hr : r.error = false) :
    Varint.get (r.rest m) = (r.readVarint m).1.map fun v => (v, (r.readVarint m).2.rest m) := by
  rw [PbufReader.readVarint, if_neg (by simp [hr])]
  exact readVarintLoop_rest m 0 0 r 10 hin rfl

/-- **Round trip.** -/
theorem readVarint_put {v : UInt64} {l : Bytes} (hin : r.Inside m) (hr : r.error = false)
    (hrest : r.rest m = Varint.put v ++ l) :
    r.readVarint m = (some v, { r with p := r.p + (Varint.put v).length }) := by
  have hreads := readVarint_reads m r
  have hget := readVarint_rest hin hr
  rw [hrest, Varint.get_put] at hget
  rcases hread : r.readVarint m with ⟨_ | u, q⟩
  · simp [hread] at hget
  · rw [hread] at hget hreads
    simp only [Option.map_some, Option.some.injEq, Prod.mk.injEq] at hget
    obtain ⟨rfl, hl⟩ := hget
    have hstop : q.stop = r.stop := hreads.stop
    have hclean : q.error = false := hreads.clean rfl
    have hq : q.p ≤ q.stop := hstop ▸ hreads.bound hin.1
    -- the bytes before and after tell where the cursor is
    have hbefore := length_rest hin
    have hafter := length_rest (r := q) (m := m) ⟨hq, hstop ▸ hin.2⟩
    rw [hrest, List.length_append] at hbefore
    rw [← hl, hstop] at hafter
    have hp : q.p = r.p + (Varint.put v).length := by
      have hle := hreads.le
      have hin1 := hin.1
      dsimp only at hle
      omega
    rw [← hp, ← hstop, hr, ← hclean]

theorem readVarintLoop_fails (value : UInt64) (shift : Nat) (h : (r.readVarintLoop m value shift).1 = none) :
    (r.readVarintLoop m value shift).2.error = true := by
  fun_induction PbufReader.readVarintLoop m value shift r with
  | case1 value shift r hshift hend => rfl
  | case2 value shift r hshift hend b q v hlast => simp at h
  | case3 value shift r hshift hend b q v hmore ih => exact ih h
  | case4 value shift r hshift => rfl

/-- A value that is not read is an error. -/
theorem readVarint_fails (h : (r.readVarint m).1 = none) : (r.readVarint m).2.error = true := by
  rw [PbufReader.readVarint] at h ⊢
  split
  · assumption
  · rename_i herr
    rw [if_neg herr] at h
    exact readVarintLoop_fails 0 0 h

/-- At the end there is no tag, and no error. -/
theorem readTag_rest (hin : r.Inside m) (hr : r.error = false) :
    match readTag (r.rest m) with
    | .eof => r.readTag m = (none, r)
    | .error => (r.readTag m).1 = none ∧ (r.readTag m).2.error = true
    | .tag field wiretype l =>
      (r.readTag m).1 = some (field, wiretype.toUInt32.toInt32) ∧ (r.readTag m).2.rest m = l := by
  have hlen := length_rest hin
  rw [readTag, PbufReader.readTag, readVarint_rest hin hr]
  by_cases hend : r.stop ≤ r.p
  · rw [if_pos (rest_nil hend), if_pos (Or.inr hend)]
  · have hne : r.rest m ≠ [] := by
      rw [← List.length_pos_iff, hlen]
      omega
    rw [if_neg hne, if_neg (by simp [hr, hend])]
    have hfails : (r.readVarint m).1 = none → (r.readVarint m).2.error = true := readVarint_fails
    rcases hread : r.readVarint m with ⟨_ | t, q⟩
    · rw [hread] at hfails
      exact ⟨rfl, hfails rfl⟩
    · exact ⟨rfl, rfl⟩

theorem readBytes_rest (hin : r.Inside m) (hr : r.error = false) :
    readBytes (r.rest m) = (r.readBytes m).1.map fun (p, n) => (Buffer.read m p n, (r.readBytes m).2.rest m) := by
  have hreads := readVarint_reads m r
  rw [readBytes, PbufReader.readBytes, readVarint_rest hin hr]
  rcases hread : r.readVarint m with ⟨_ | n, q⟩
  · rfl
  · rw [hread] at hreads
    have hstop : q.stop = r.stop := hreads.stop
    have hq : q.Inside m := ⟨hstop ▸ hreads.bound hin.1, hstop ▸ hin.2⟩
    simp only [Option.map_some, length_rest hq]
    split
    · rfl
    · rename_i hroom
      rw [Option.map_some, rest_drop, rest_take (Nat.not_lt.mp hroom)]

end Rest

/-! ## Runs -/

/-- The readers of a message, and the regions they may be set over: the message, and
the bytes that were read. -/
structure ReadState where
  readers : List PbufReader
  slices : List (Nat × Nat)

/-- A reader is set over a region, or a reader is called. -/
inductive ReadEvent
  | init (k : Nat)
  | call (i : Nat) (o : ReadOp)

namespace ReadState

def start (m : Bytes) : ReadState := ⟨[], [(0, m.length)]⟩

def step (m : Bytes) (s : ReadState) : ReadEvent → ReadState
  | .init k =>
    match s.slices[k]? with
    | none => s
    | some (data, len) => { s with readers := s.readers ++ [PbufReader.init data len] }
  | .call i o =>
    match s.readers[i]? with
    | none => s
    | some r =>
      let (got, r) := r.perform m o
      ⟨s.readers.set i r, s.slices ++ Got.slices got⟩

def run (m : Bytes) (s : ReadState) (es : List ReadEvent) : ReadState := es.foldl (step m) s

/-- Reader `i` is called, with success. -/
def succeeds (m : Bytes) (s : ReadState) (i : Nat) : ReadEvent → Bool
  | .init _ => false
  | .call j o =>
    match s.readers[j]? with
    | none => false
    | some r => j == i && (r.perform m o).1.isSome

/-- How often it is. -/
def successes (m : Bytes) (s : ReadState) (i : Nat) : List ReadEvent → Nat
  | [] => 0
  | e :: es => (s.succeeds m i e).toNat + successes m (s.step m e) i es

end ReadState

/-- What is kept of a reader. -/
structure PbufReader.Kept (r r' : PbufReader) : Prop where
  stop : r'.stop = r.stop
  le : r.p ≤ r'.p
  stuck : r.error = true → r' = r

namespace ReadState
variable {m : Bytes}

theorem kept_refl (r : PbufReader) : r.Kept r := ⟨rfl, Nat.le_refl _, fun _ => rfl⟩

theorem kept_trans (r q t : PbufReader) (h : r.Kept q) (h' : q.Kept t) : r.Kept t where
  stop := h'.stop.trans h.stop
  le := h.le.trans h'.le
  stuck herr := by
    have hq := h.stuck herr
    exact (h'.stuck (hq ▸ herr)).trans hq

theorem perform_kept (m : Bytes) (r : PbufReader) (o : ReadOp) : r.Kept (r.perform m o).2 := by
  have h := perform_reads m r o
  exact ⟨h.stop, h.le, fun herr => congrArg Prod.snd (h.stuck herr)⟩

/-- Every reader, and every region, is inside the message. -/
structure Inside (m : Bytes) (s : ReadState) : Prop where
  readers : ∀ r ∈ s.readers, r.Inside m
  slices : ∀ d ∈ s.slices, d.1 + d.2 ≤ m.length

theorem inside_start (m : Bytes) : (start m).Inside m :=
  ⟨by simp [start], by simp [start]⟩

/-- What is read is a region before the cursor. -/
theorem slices_perform {r : PbufReader} (hr : r.Inside m) {o : ReadOp} {d : Nat × Nat}
    (hd : d ∈ Got.slices (r.perform m o).1) : d.1 + d.2 ≤ m.length := by
  cases o with
  | varint =>
    rw [PbufReader.perform] at hd
    rcases r.readVarint m with ⟨_ | v, q⟩ <;> simp [Got.slices] at hd
  | tag =>
    rw [PbufReader.perform] at hd
    rcases r.readTag m with ⟨_ | v, q⟩ <;> simp [Got.slices] at hd
  | skip w =>
    rw [PbufReader.perform] at hd
    rcases r.skip m w with ⟨_ | _, q⟩ <;> simp [Got.slices] at hd
  | bytes =>
    have h := readBytes_reads m r
    rw [PbufReader.perform] at hd
    rcases hread : r.readBytes m with ⟨_ | x, q⟩
    · simp [hread, Got.slices] at hd
    · rw [hread] at hd h
      obtain rfl : d = x := by simpa [Got.slices] using hd
      rw [← readBytes_slice hread]
      exact (h.bound hr.1).trans hr.2

theorem inside_step {s : ReadState} (hs : s.Inside m) (e : ReadEvent) : (s.step m e).Inside m := by
  cases e with
  | init k =>
    rw [step]
    split
    · exact hs
    · rename_i data len hslice
      have hd := hs.slices _ (List.mem_of_getElem? hslice)
      refine ⟨fun r hr => ?_, hs.slices⟩
      rcases List.mem_append.mp hr with hr | hr
      · exact hs.readers r hr
      · rw [List.mem_singleton.mp hr]
        exact ⟨Nat.le_add_right _ _, hd⟩
  | call i o =>
    rw [step]
    split
    · exact hs
    · rename_i r hget
      have hr := hs.readers r (List.mem_of_getElem? hget)
      have h := perform_reads m r o
      refine ⟨fun q hq => ?_, fun d hd => ?_⟩
      · rcases List.mem_or_eq_of_mem_set hq with hq | rfl
        · exact hs.readers q hq
        · exact ⟨h.stop ▸ h.bound hr.1, h.stop ▸ hr.2⟩
      · rcases List.mem_append.mp hd with hd | hd
        · exact hs.slices d hd
        · exact slices_perform hr hd

theorem inside_run {s : ReadState} (hs : s.Inside m) (es : List ReadEvent) : (s.run m es).Inside m :=
  Objects.inv_foldl (I := Inside m) (fun _ e h => inside_step h e) es hs

theorem kept_step (m : Bytes) (s : ReadState) (e : ReadEvent) :
    Objects.Grown PbufReader.Kept s.readers (s.step m e).readers := by
  cases e with
  | init k =>
    rw [step]
    split
    · exact Objects.grown_refl kept_refl _
    · exact Objects.grown_append kept_refl _ _
  | call i o =>
    rw [step]
    split
    · exact Objects.grown_refl kept_refl _
    · rename_i r hget
      exact Objects.grown_set kept_refl hget (perform_kept m r o)

end ReadState

/-- A success takes a byte. -/
theorem used_step (m : Bytes) (s : ReadState) (e : ReadEvent) {i : Nat} {r : PbufReader}
    (hr : s.readers[i]? = some r) :
    ∃ r', (s.step m e).readers[i]? = some r' ∧ r.Kept r' ∧ r.p + (s.succeeds m i e).toNat ≤ r'.p := by
  obtain ⟨r', hr', hkept⟩ := ReadState.kept_step m s e i r hr
  refine ⟨r', hr', hkept, ?_⟩
  cases e with
  | init k => exact hkept.le
  | call j o =>
    by_cases hji : j = i
    · subst hji
      have hreads := perform_reads m r o
      have hlt : j < s.readers.length := (List.getElem?_eq_some_iff.mp hr).1
      rw [ReadState.step, hr] at hr'
      rw [ReadState.succeeds, hr]
      obtain rfl : (r.perform m o).2 = r' := by simpa [hlt] using hr'
      cases hsome : (r.perform m o).1.isSome with
      | false => simpa [hsome] using hreads.le
      | true => simpa [hsome, Nat.succ_le_iff] using hreads.used hsome
    · have hno : s.succeeds m i (.call j o) = false := by
        rw [ReadState.succeeds]
        split
        · rfl
        · simp [hji]
      rw [hno]
      exact hkept.le

/-- **Run.** -/
theorem used_run (m : Bytes) (i : Nat) (es : List ReadEvent) (s : ReadState) {r : PbufReader}
    (hr : s.readers[i]? = some r) :
    ∃ r', (s.run m es).readers[i]? = some r' ∧ r.Kept r' ∧ r.p + s.successes m i es ≤ r'.p := by
  induction es generalizing s r with
  | nil => exact ⟨r, hr, ReadState.kept_refl r, Nat.le_refl _⟩
  | cons e es ih =>
    obtain ⟨q, hq, hkept, hused⟩ := used_step m s e hr
    obtain ⟨r', hr', hkept', hused'⟩ := ih (s.step m e) hq
    refine ⟨r', hr', ReadState.kept_trans r q r' hkept hkept', ?_⟩
    rw [ReadState.successes]
    omega

end Pbuf

end Amisync

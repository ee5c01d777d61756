import Amisync.RecvFinish
import Amisync.Lib.Machine
import Amisync.Lib.KeyedList

/-!
# The download machine (`worker.c`)

One file is fetched block by block. Up to `window` Requests are out at once, the
peer answers in any order, and the temporary file is only ever written forward: a
block that comes ahead of its turn is held, or asked for again.

* `Classes`: each block is written, held, in flight, to be asked for again, or not
  yet asked for, and only one of these, once.
* `StagedOk`: what the temporary file holds of the blocks written so far.
* `downloadOk_step`, `downloadOk_run`: one event keeps all of it, and so does
  every run.
* `download_blocks`: the classes, the window and the bytes after any run; a run
  that reaches `finalize_download` has every block written.
-/

namespace Amisync

open Blocks

/-! ## The temporary file -/

inductive FolderWriteResult where
  | ok
  | ahead
  | fail
  deriving DecidableEq, Repr

/-- The disk's answer to one write: `short k` stores `k` bytes at most and fails. -/
inductive WriteAnswer where
  | granted
  | short (k : Nat)
  | seekFails
  deriving DecidableEq, Repr

/-- `folder_recv_write` on the bytes of the temporary file. -/
def folderRecvWrite (a : WriteAnswer) (temp : Bytes) (offset : Int) (data : Bytes) :
    FolderWriteResult × Bytes :=
  match a with
  | .seekFails => (.fail, temp)
  | .granted =>
    if offset > temp.length then (.ahead, temp)
    else if offset < 0 then (.fail, temp)
    else (.ok, overwrite temp offset.toNat data)
  | .short k =>
    if offset > temp.length then (.ahead, temp)
    else if offset < 0 then (.fail, temp)
    else (.fail, overwrite temp offset.toNat (data.take (min k (data.length - 1))))

/-- `folder_recv_open`: the block to resume from, and the bytes that are kept. -/
def folderRecvOpen (reopen : Bool) (blockSize : Int) (numBlocks : Nat) (existing : Option Bytes) :
    Nat × Bytes :=
  let stateSize : Int := match existing with
    | some t => t.length
    | none => -1
  let size := if blockSize > 0 then stateSize else -1
  let size := if size > numBlocks * blockSize then 0 else size
  if size > 0 then
    let rf := min (size / blockSize).toNat numBlocks
    if 0 < rf ∧ reopen then (rf, existing.getD []) else (0, [])
  else (0, [])

/-! ## State -/

def wkWindow : Nat := configMaxWindow
def wkStage : Nat := wkWindow - 1
def wkMaxRetry : Nat := 3
def wkStallSecs : Int := 120

/-- The file as the peer announced it: its metadata and its block hashes. -/
structure Wanted where
  fi : SyncMeta
  hashes : List Hash
  deriving DecidableEq, Repr

def Wanted.numBlocks (w : Wanted) : Nat := w.hashes.length

/-- `dl_block_span`: offset and length of a block. -/
def dlBlockSpan (w : Wanted) (block : Nat) : Int × Int :=
  let off := block * w.fi.blockSize
  let rest := w.fi.size - off
  (off, toInt32 (if rest > w.fi.blockSize then w.fi.blockSize else rest))

structure Inflight where
  block : Nat
  id : Nat
  retries : Nat
  deriving DecidableEq, Repr

/-- A verified block that waits for its turn. -/
structure Held where
  block : Nat
  data : Bytes
  deriving DecidableEq, Repr

inductive Phase where
  | active
  | aborted
  | finalized
  deriving DecidableEq, Repr

/-- The download in flight. `redo` has its latest entry first. `writes` is the history of the
blocks written in this session; nothing reads it. -/
structure Download where
  phase : Phase
  nextBlock : Nat
  resumed : Bool
  lastProgress : Int
  inflight : List Inflight
  redo : List Inflight
  stage : List Held
  temp : Bytes
  nextReqId : Nat
  writes : List Nat
  deriving DecidableEq, Repr

/-! ## Handlers -/

structure BepResponse where
  id : Nat
  code : Int
  data : Bytes
  deriving DecidableEq, Repr

namespace Download

def abort (d : Download) : Download := { d with phase := .aborted }

/-- A block has reached the temporary file. -/
def wrote (d : Download) (now : Int) (block : Nat) (temp : Bytes) : Download :=
  { d with temp := temp, lastProgress := now, writes := d.writes ++ [block] }

/-- `stage_put`, when a slot is free and its memory granted. -/
def stagePut (memory : Bool) (d : Download) (h : Held) : Option Download :=
  if d.stage.length < wkStage ∧ memory then some { d with stage := d.stage ++ [h] } else none

/-- `stage_flush`: write every held block that now fits. The fuel is the number of held
blocks, and each round frees one. -/
def stageFlush (w : Wanted) (io : Nat → WriteAnswer) (now : Int) : Nat → Download → Nat → Download
  | 0, d, _ => d
  | fuel + 1, d, next =>
    match d.stage.find? (fun h => h.block = next) with
    | none => d
    | some h =>
      match folderRecvWrite (io next) d.temp (dlBlockSpan w next).1 h.data with
      | (.ok, t) => stageFlush w io now fuel
          { d.wrote now next t with stage := d.stage.eraseP (fun h => h.block = next) } (next + 1)
      | (_, t) => { d with temp := t }.abort

/-- A block that failed the check is asked for again, up to a small number of times. -/
def reject (d : Download) (fl : Inflight) : Download :=
  if fl.retries + 1 > wkMaxRetry then d.abort
  else { d with redo := { fl with retries := fl.retries + 1 } :: d.redo }

/-- A block of the right size and hash. -/
def accept (w : Wanted) (memory : Bool) (io : Nat → WriteAnswer) (now : Int) (d : Download)
    (fl : Inflight) (data : Bytes) : Download :=
  match folderRecvWrite (io fl.block) d.temp (dlBlockSpan w fl.block).1 data with
  | (.ok, t) => stageFlush w io now d.stage.length (d.wrote now fl.block t) (fl.block + 1)
  | (.ahead, _) => (d.stagePut memory ⟨fl.block, data⟩).getD { d with redo := fl :: d.redo }
  | (.fail, t) => { d with temp := t }.abort

/-- `handle_response`; `none` is a Response that does not decode. -/
def handleResponse (sha : Bytes → Hash) (w : Wanted) (memory : Bool) (io : Nat → WriteAnswer)
    (now : Int) (d : Download) (rs : Option BepResponse) : Download :=
  match rs with
  | none => d
  | some rs =>
    if d.phase ≠ .active then d
    else match d.inflight.findIdx? (fun fl => fl.id = rs.id) with
      | none => d
      | some slot => match d.inflight[slot]? with
        | none => d
        | some fl =>
          let d := { d with inflight := Keyed.swapRemove slot d.inflight }
          if rs.code ≠ 0 then d.abort
          else if rs.data.length = (dlBlockSpan w fl.block).2 ∧
              w.hashes[fl.block]? = some (sha rs.data) then
            d.accept w memory io now fl rs.data
          else d.reject fl

/-- `send_block_request`, over a connection that takes it. -/
def sendBlockRequest (d : Download) (block retries : Nat) : Download :=
  { d with
    nextReqId := d.nextReqId + 1
    inflight := d.inflight ++ [⟨block, d.nextReqId + 1, retries⟩] }

/-- Fill `room` places of the window: blocks to be asked for again first, then fresh ones. -/
def fillWindow (w : Wanted) : Nat → Download → Download
  | 0, d => d
  | room + 1, d =>
    match d.redo with
    | fl :: redo => fillWindow w room ({ d with redo := redo }.sendBlockRequest fl.block fl.retries)
    | [] =>
      if d.nextBlock < w.numBlocks then
        fillWindow w room { d.sendBlockRequest d.nextBlock 0 with nextBlock := d.nextBlock + 1 }
      else d

/-- All blocks are in. -/
def complete (w : Wanted) (d : Download) : Bool :=
  w.numBlocks ≤ d.nextBlock && d.inflight.isEmpty && d.redo.isEmpty && d.stage.isEmpty

/-- `progress`, as far as this download: the file that follows it is another machine. -/
def progress (w : Wanted) (window : Nat) (now : Int) (d : Download) : Download :=
  if d.phase ≠ .active then d
  else if now - d.lastProgress > wkStallSecs then d.abort
  else if d.complete w then { d with phase := .finalized }
  else d.fillWindow w (window - d.inflight.length)

end Download

/-! ## Events -/

/-- What the worker's loop does. An abort from outside is a deletion of this name by the
peer, or the end of the connection. -/
inductive DlEvent where
  | progress (now : Int)
  | response (rs : Option BepResponse) (memory : Bool) (io : Nat → WriteAnswer) (now : Int)
  | abort

def dlStep (sha : Bytes → Hash) (w : Wanted) (window : Nat) (d : Download) : DlEvent → Download
  | .progress now => d.progress w window now
  | .response rs memory io now => d.handleResponse sha w memory io now rs
  | .abort => if d.phase = .active then d.abort else d

def dlRun (sha : Bytes → Hash) (w : Wanted) (window : Nat) (d : Download) (es : List DlEvent) :
    Download :=
  es.foldl (dlStep sha w window) d

/-- `local_prefill`: copy the blocks that verify out of a local file. `read` gives the bytes
read from that file, if there is one. The fuel is the number of blocks left. -/
def localPrefill (sha : Bytes → Hash) (w : Wanted) (read : Nat → Option Bytes)
    (io : Nat → WriteAnswer) (now : Int) : Nat → Download → Download
  | 0, d => d
  | fuel + 1, d =>
    match read d.nextBlock with
    | none => d
    | some data =>
      if data.length = (dlBlockSpan w d.nextBlock).2 ∧
          w.hashes[d.nextBlock]? = some (sha data) then
        match folderRecvWrite (io d.nextBlock) d.temp (dlBlockSpan w d.nextBlock).1 data with
        | (.ok, t) => localPrefill sha w read io now fuel
            { d.wrote d.lastProgress d.nextBlock t with nextBlock := d.nextBlock + 1 }
        | (_, t) => { d with temp := t }
      else d

/-- `start_download` from the point where the temporary file has been opened. -/
def startDownload (sha : Bytes → Hash) (w : Wanted) (reopen : Bool) (existing : Option Bytes)
    (read : Nat → Option Bytes) (io : Nat → WriteAnswer) (now : Int) (reqId : Nat) : Download :=
  let (rf, temp) := folderRecvOpen reopen w.fi.blockSize w.numBlocks existing
  localPrefill sha w read io now (w.numBlocks - rf)
    { phase := .active, nextBlock := rf, resumed := 0 < rf, lastProgress := now, inflight := [],
      redo := [], stage := [], temp := temp, nextReqId := reqId, writes := [] }

/-! ## How it began -/

section Resumed
variable {sha : Bytes → Hash} {w : Wanted} {io : Nat → WriteAnswer} {now : Int}

theorem stageFlush_resumed (fuel : Nat) (d : Download) (next : Nat) :
    (d.stageFlush w io now fuel next).resumed = d.resumed := by
  induction fuel generalizing d next with
  | zero => rfl
  | succ fuel ih =>
    rw [Download.stageFlush]
    split
    · rfl
    · split
      · rw [ih]
        rfl
      · rfl

theorem handleResponse_resumed (memory : Bool) (d : Download) (rs : Option BepResponse) :
    (d.handleResponse sha w memory io now rs).resumed = d.resumed := by
  unfold Download.handleResponse
  split
  · rfl
  · split
    · rfl
    · split
      · rfl
      · split
        · rfl
        · dsimp only
          split
          · rfl
          · split
            · unfold Download.accept
              split
              · rw [stageFlush_resumed]
                rfl
              · unfold Download.stagePut
                split <;> rfl
              · rfl
            · unfold Download.reject
              split <;> rfl

theorem fillWindow_resumed (room : Nat) (d : Download) :
    (d.fillWindow w room).resumed = d.resumed := by
  induction room generalizing d with
  | zero => rfl
  | succ room ih =>
    rw [Download.fillWindow]
    split
    · rw [ih]
      rfl
    · split
      · rw [ih]
        rfl
      · rfl

theorem dlRun_resumed (window : Nat) (d : Download) (es : List DlEvent) :
    (dlRun sha w window d es).resumed = d.resumed := by
  induction es generalizing d with
  | nil => rfl
  | cons e es ih =>
    refine (ih _).trans ?_
    cases e with
    | progress now =>
      rw [dlStep, Download.progress]
      split
      · rfl
      · split
        · rfl
        · split
          · rfl
          · exact fillWindow_resumed _ d
    | response rs memory io now => exact handleResponse_resumed memory d rs
    | abort =>
      rw [dlStep]
      split <;> rfl

theorem localPrefill_resumed (read : Nat → Option Bytes) (fuel : Nat) (d : Download) :
    (localPrefill sha w read io now fuel d).resumed = d.resumed := by
  induction fuel generalizing d with
  | zero => rfl
  | succ fuel ih =>
    rw [localPrefill]
    split
    · rfl
    · split
      · split
        · rw [ih]
          rfl
        · rfl
      · rfl

/-- A download remembers whether it resumed an earlier one. -/
theorem dlRun_startDownload_resumed (window : Nat) (reopen : Bool) (existing : Option Bytes)
    (read : Nat → Option Bytes) (reqId : Nat) (es : List DlEvent) :
    (dlRun sha w window (startDownload sha w reopen existing read io now reqId) es).resumed =
      decide (0 < (folderRecvOpen reopen w.fi.blockSize w.numBlocks existing).1) := by
  rw [dlRun_resumed]
  exact localPrefill_resumed read _ _

end Resumed

/-! ## Where each block is -/

/-- Each block is in one class: written (below `c`), held, out, to be asked for again, or
not yet asked for (from `next` on). -/
def Classes (c : Nat) (held out again : List Nat) (next : Nat) : Prop :=
  ∀ i, (if i < c then 1 else 0) + held.count i + out.count i + again.count i +
    (if next ≤ i then 1 else 0) = 1

section Classes
variable {c next b : Nat} {held out redo held' out' : List Nat}

theorem Classes.perm (h : Classes c held out redo next) (hh : held.Perm held')
    (ho : out.Perm out') : Classes c held' out' redo next := by
  intro i
  rw [← hh.count_eq, ← ho.count_eq]
  exact h i

theorem Classes.le_next (h : Classes c held out redo next) : c ≤ next := by
  have hi := h next
  rw [if_pos (Nat.le_refl next)] at hi
  split at hi <;> omega

theorem Classes.mem_held (h : Classes c held out redo next) (hb : b ∈ held) :
    c ≤ b ∧ b < next := by
  have hi := h b
  have hc := List.count_pos_iff.mpr hb
  split at hi <;> split at hi <;> omega

theorem Classes.mem_out (h : Classes c held out redo next) (hb : b ∈ out) :
    c ≤ b ∧ b < next := by
  have hi := h b
  have hc := List.count_pos_iff.mpr hb
  split at hi <;> split at hi <;> omega

/-- A block that has come is asked for again. -/
theorem Classes.again (h : Classes c held (b :: out) redo next) :
    Classes c held out (b :: redo) next := by
  intro i
  have hi := h i
  rw [List.count_cons] at hi ⊢
  omega

/-- A block that has come is held. -/
theorem Classes.hold (h : Classes c held (b :: out) redo next) :
    Classes c (held ++ [b]) out redo next := by
  intro i
  have hi := h i
  rw [List.count_cons] at hi
  rw [List.count_append, List.count_singleton]
  omega

/-- The block at the cursor has come and is written. -/
theorem Classes.write (h : Classes c held (c :: out) redo next) :
    Classes (c + 1) held out redo next := by
  intro i
  have hi := h i
  rw [List.count_cons] at hi
  have hcut : (if i < c + 1 then 1 else 0) = (if i < c then 1 else 0) + if c == i then 1 else 0 := by
    rcases Nat.lt_trichotomy i c with hlt | rfl | hgt
    · simp [hlt, Nat.lt_succ_of_lt hlt, Nat.ne_of_gt hlt]
    · simp
    · simp [Nat.not_lt_of_gt hgt, Nat.ne_of_lt hgt, Nat.not_lt.mpr (Nat.succ_le_of_lt hgt)]
  omega

/-- The held block at the cursor is written. -/
theorem Classes.writeHeld (h : Classes c (c :: held) out redo next) :
    Classes (c + 1) held out redo next := by
  refine Classes.write (fun i => ?_)
  have hi := h i
  rw [List.count_cons] at hi ⊢
  omega

/-- A block is asked for again. -/
theorem Classes.resend (h : Classes c held out (b :: redo) next) :
    Classes c held (out ++ [b]) redo next := by
  intro i
  have hi := h i
  rw [List.count_cons] at hi
  rw [List.count_append, List.count_singleton]
  omega

/-- The next fresh block is asked for. -/
theorem Classes.fresh (h : Classes c held out redo next) :
    Classes c held (out ++ [next]) redo (next + 1) := by
  intro i
  have hi := h i
  rw [List.count_append, List.count_singleton]
  have hcut : (if next ≤ i then 1 else 0) =
      (if next + 1 ≤ i then 1 else 0) + if next == i then 1 else 0 := by
    rcases Nat.lt_trichotomy i next with hlt | rfl | hgt
    · simp [Nat.not_le.mpr hlt, Nat.not_le.mpr (Nat.lt_succ_of_lt hlt), Nat.ne_of_gt hlt]
    · simp
    · simp [Nat.le_of_lt hgt, Nat.succ_le_of_lt hgt, Nat.ne_of_lt hgt]
  omega

/-- A fresh block is copied from a local file. -/
theorem Classes.copy (h : Classes next held out redo next) :
    Classes (next + 1) held out redo (next + 1) := by
  refine Classes.write (h.fresh.perm (List.Perm.refl _) ?_)
  exact List.perm_append_singleton next out

end Classes

/-! ## Consistent announcements -/

namespace Wanted

/-- The size, the block size and the number of blocks fit together. An empty file has no
block, or one empty block. -/
structure Consistent (w : Wanted) : Prop where
  pos : 0 < w.fi.blockSize
  small : w.fi.blockSize < 2 ^ 31
  count : w.fi.size = 0 ∧ w.numBlocks ≤ 1 ∨
    0 < w.fi.size ∧ (w.numBlocks : Int) = (w.fi.size + w.fi.blockSize - 1) / w.fi.blockSize

def bs (w : Wanted) : Nat := w.fi.blockSize.toNat

/-- The bytes of the temporary file that are a block's own. -/
def blockAt (w : Wanted) (temp : Bytes) (i : Nat) : Bytes :=
  slice temp (dlBlockSpan w i).1.toNat (dlBlockSpan w i).2.toNat

end Wanted

section Consistent
variable {w : Wanted} (hw : w.Consistent)
include hw

theorem Wanted.Consistent.bs_pos : 0 < w.bs := by
  have h := hw.pos
  unfold Wanted.bs
  omega

theorem Wanted.Consistent.bs_cast : (w.bs : Int) = w.fi.blockSize := by
  have h := hw.pos
  unfold Wanted.bs
  omega

theorem dlBlockSpan_off (i : Nat) : (dlBlockSpan w i).1 = ((i * w.bs : Nat) : Int) := by
  rw [Int.natCast_mul, hw.bs_cast]
  rfl

theorem Wanted.Consistent.size_nonneg : 0 ≤ w.fi.size := by
  rcases hw.count with ⟨h, -⟩ | ⟨h, -⟩ <;> omega

/-- A file that is not empty has the blocks it reaches. -/
theorem Wanted.Consistent.lt_numBlocks (hsize : 0 < w.fi.size) (i : Nat) :
    i < w.numBlocks ↔ i * w.bs < w.fi.size.toNat := by
  have hpos := hw.pos
  have hbs := hw.bs_cast
  have hn : (w.numBlocks : Int) = (w.fi.size + w.fi.blockSize - 1) / w.fi.blockSize := by
    rcases hw.count with ⟨h, -⟩ | ⟨-, h⟩
    · omega
    · exact h
  have hdiv : (i : Int) + 1 ≤ w.numBlocks ↔
      ((i : Int) + 1) * w.fi.blockSize ≤ w.fi.size + w.fi.blockSize - 1 := by
    rw [hn]
    exact Int.le_ediv_iff_mul_le hpos
  have hcast : ((i * w.bs : Nat) : Int) = i * w.fi.blockSize := by rw [Int.natCast_mul, hbs]
  rw [Int.add_mul, Int.one_mul] at hdiv
  omega

theorem dlBlockSpan_eq {i : Nat} (hi : i < w.numBlocks) :
    (dlBlockSpan w i).2 = (min w.bs (w.fi.size.toNat - i * w.bs) : Nat) := by
  have hpos := hw.pos
  have hsmall := hw.small
  have hbs := hw.bs_cast
  have hsize := hw.size_nonneg
  have hoff : (i * w.bs : Nat) ≤ w.fi.size.toNat := by
    rcases hw.count with ⟨-, hn⟩ | ⟨hs, -⟩
    · have h0 : i = 0 := by omega
      simp [h0]
    · exact Nat.le_of_lt ((hw.lt_numBlocks hs i).mp hi)
  have hcast : ((i * w.bs : Nat) : Int) = i * w.fi.blockSize := by rw [Int.natCast_mul, hbs]
  unfold dlBlockSpan
  dsimp only
  split
  · rw [toInt32_of_small (by omega) hsmall]
    omega
  · rw [toInt32_of_small (by omega) (by omega)]
    omega

/-- The blocks before the last are full. -/
theorem dlBlockSpan_len {i : Nat} (hi : i < w.numBlocks) :
    ∃ s : Nat, (dlBlockSpan w i).2 = s ∧ s ≤ w.bs ∧ (i + 1 < w.numBlocks → s = w.bs) := by
  refine ⟨_, dlBlockSpan_eq hw hi, Nat.min_le_left _ _, fun h => ?_⟩
  rcases hw.count with ⟨-, hn⟩ | ⟨hs, -⟩
  · omega
  · have h' := (hw.lt_numBlocks hs (i + 1)).mp h
    rw [Nat.add_mul, Nat.one_mul] at h'
    omega

end Consistent

/-! ## What the temporary file holds -/

/-- Blocks `r` to `c` are in the temporary file, whole and with the announced hashes; the
file ends within block `c`. -/
structure StagedOk (sha : Bytes → Hash) (w : Wanted) (r c : Nat) (temp : Bytes) : Prop where
  room : c < w.numBlocks → c * w.bs ≤ temp.length ∧ temp.length < (c + 1) * w.bs
  held : ∀ i, r ≤ i → i < c → ((w.blockAt temp i).length : Int) = (dlBlockSpan w i).2 ∧
    w.hashes[i]? = some (sha (w.blockAt temp i))

section Staged
variable {sha : Bytes → Hash} {w : Wanted} (hw : w.Consistent) {r c : Nat} {temp : Bytes}
include hw

theorem blockAt_overwrite_before {i : Nat} (hi : i < c) (hc : c < w.numBlocks)
    (hlen : c * w.bs ≤ temp.length) (data : Bytes) :
    w.blockAt (overwrite temp (c * w.bs) data) i = w.blockAt temp i := by
  obtain ⟨s, hs, hle, -⟩ := dlBlockSpan_len hw (Nat.lt_trans hi hc)
  have hmul : (i + 1) * w.bs ≤ c * w.bs := Nat.mul_le_mul_right _ hi
  rw [Nat.add_mul, Nat.one_mul] at hmul
  unfold Wanted.blockAt
  rw [dlBlockSpan_off hw, hs]
  exact slice_overwrite_before hlen (by simp only [Int.toNat_natCast]; omega) data

/-- **Write.** The block at the cursor is written behind the others. -/
theorem StagedOk.write (h : StagedOk sha w r c temp) (hc : c < w.numBlocks) {data : Bytes}
    (hlen : (data.length : Int) = (dlBlockSpan w c).2) (hhash : w.hashes[c]? = some (sha data)) :
    StagedOk sha w r (c + 1) (overwrite temp (c * w.bs) data) := by
  obtain ⟨hlo, hhi⟩ := h.room hc
  have hself : w.blockAt (overwrite temp (c * w.bs) data) c = data := by
    unfold Wanted.blockAt
    rw [dlBlockSpan_off hw, ← hlen, Int.toNat_natCast, Int.toNat_natCast]
    exact slice_overwrite_self hlo data
  constructor
  · intro hc'
    obtain ⟨s, hs, -, hfull⟩ := dlBlockSpan_len hw hc
    have hdata : data.length = w.bs := by
      have := hfull hc'
      omega
    have hb := hw.bs_pos
    rw [length_overwrite hlo, hdata]
    simp only [Nat.add_mul, Nat.one_mul] at hhi ⊢
    omega
  · intro i hr hi
    rcases Nat.lt_succ_iff_lt_or_eq.mp hi with hlt | rfl
    · rw [blockAt_overwrite_before hw hlt hc hlo]
      exact h.held i hr hlt
    · rw [hself]
      exact ⟨hlen, hhash⟩

/-- A short write stays within the block at the cursor. -/
theorem StagedOk.short (h : StagedOk sha w r c temp) (hc : c < w.numBlocks) {data : Bytes}
    (hlen : data.length < w.bs) : StagedOk sha w r c (overwrite temp (c * w.bs) data) := by
  obtain ⟨hlo, hhi⟩ := h.room hc
  constructor
  · intro _
    rw [length_overwrite hlo]
    simp only [Nat.add_mul, Nat.one_mul] at hhi ⊢
    omega
  · intro i hr hi
    rw [blockAt_overwrite_before hw hi hc hlo]
    exact h.held i hr hi

/-- The block at the cursor is written, or the disk refuses. -/
theorem folderRecvWrite_cursor (h : StagedOk sha w r c temp) (hc : c < w.numBlocks)
    (a : WriteAnswer) {data : Bytes} (hlen : (data.length : Int) = (dlBlockSpan w c).2) :
    folderRecvWrite a temp (dlBlockSpan w c).1 data = (.ok, overwrite temp (c * w.bs) data) ∨
      ∃ t, folderRecvWrite a temp (dlBlockSpan w c).1 data = (.fail, t) ∧ StagedOk sha w r c t := by
  obtain ⟨s, hs, hle, -⟩ := dlBlockSpan_len hw hc
  have hlo := (h.room hc).1
  have hb := hw.bs_pos
  rw [dlBlockSpan_off hw]
  cases a with
  | seekFails => exact Or.inr ⟨temp, rfl, h⟩
  | granted =>
    left
    unfold folderRecvWrite
    dsimp only
    rw [if_neg (by omega), if_neg (by omega), Int.toNat_natCast]
  | short k =>
    right
    unfold folderRecvWrite
    dsimp only
    rw [if_neg (by omega), if_neg (by omega), Int.toNat_natCast]
    refine ⟨_, rfl, h.short hw hc ?_⟩
    rw [List.length_take]
    omega

/-- A disk that grants the write does not fail it. -/
theorem folderRecvWrite_granted {a : WriteAnswer} (ha : a = .granted) (b : Nat) (data : Bytes) :
    (folderRecvWrite a temp (dlBlockSpan w b).1 data).1 ≠ .fail := by
  subst ha
  rw [dlBlockSpan_off hw]
  unfold folderRecvWrite
  dsimp only
  split
  · simp
  · rw [if_neg (by omega)]
    simp

/-- A block past the cursor is refused. -/
theorem folderRecvWrite_ahead (h : StagedOk sha w r c temp) (hc : c < w.numBlocks) {b : Nat}
    (hb : c < b) (a : WriteAnswer) (data : Bytes) :
    folderRecvWrite a temp (dlBlockSpan w b).1 data = (.ahead, temp) ∨
      folderRecvWrite a temp (dlBlockSpan w b).1 data = (.fail, temp) := by
  have hhi := (h.room hc).2
  have hmul : (c + 1) * w.bs ≤ b * w.bs := Nat.mul_le_mul_right _ hb
  rw [dlBlockSpan_off hw]
  unfold folderRecvWrite
  cases a with
  | seekFails => exact Or.inr rfl
  | granted =>
    left
    dsimp only
    rw [if_pos (by omega)]
  | short k =>
    left
    dsimp only
    rw [if_pos (by omega)]

end Staged

/-! ## The invariant -/

/-- The machine with its write cursor at `c`, its first `r` blocks being there from before. -/
structure DownloadInv (sha : Bytes → Hash) (w : Wanted) (window r c : Nat) (d : Download) :
    Prop where
  one : Classes c (d.stage.map Held.block) (d.inflight.map Inflight.block)
    (d.redo.map Inflight.block) d.nextBlock
  next : d.nextBlock ≤ w.numBlocks
  windowed : d.inflight.length + d.redo.length ≤ window
  start : r ≤ c
  once : d.writes = List.range' r (c - r)
  staged : StagedOk sha w r c d.temp
  verified : ∀ h ∈ d.stage, (h.data.length : Int) = (dlBlockSpan w h.block).2 ∧
    w.hashes[h.block]? = some (sha h.data)

/-- No held block could have been written already. -/
def Drained (c : Nat) (d : Download) : Prop := ∀ h ∈ d.stage, h.block ≠ c

/-- Given up, or on its way, or done with every block written. -/
def DownloadOk (sha : Bytes → Hash) (w : Wanted) (window r : Nat) (d : Download) : Prop :=
  d.phase = .aborted ∨
    (d.phase = .active ∧ ∃ c, DownloadInv sha w window r c d ∧ Drained c d) ∨
    (d.phase = .finalized ∧ DownloadInv sha w window r w.numBlocks d)

section Inv
variable {sha : Bytes → Hash} {w : Wanted} (hw : w.Consistent) {window r c : Nat} {d : Download}

theorem DownloadOk.active (h : DownloadOk sha w window r d) (hact : d.phase = .active) :
    ∃ c, DownloadInv sha w window r c d ∧ Drained c d := by
  rcases h with h | ⟨-, h⟩ | ⟨h, -⟩
  · exact absurd (hact.symm.trans h) (by simp)
  · exact h
  · exact absurd (hact.symm.trans h) (by simp)

theorem DownloadOk.finalized (h : DownloadOk sha w window r d) (hfin : d.phase = .finalized) :
    DownloadInv sha w window r w.numBlocks d := by
  rcases h with h | ⟨h, -⟩ | ⟨-, h⟩
  · exact absurd (hfin.symm.trans h) (by simp)
  · exact absurd (hfin.symm.trans h) (by simp)
  · exact h

theorem DownloadInv.cursor_le (h : DownloadInv sha w window r c d) : c ≤ w.numBlocks :=
  Nat.le_trans h.one.le_next h.next

/-- One more block is in the history. -/
theorem DownloadInv.once_wrote (h : DownloadInv sha w window r c d) :
    d.writes ++ [c] = List.range' r (c + 1 - r) := by
  have hle := h.start
  have hc : c = r + 1 * (c - r) := by omega
  rw [h.once, Nat.succ_sub hle, Nat.succ_eq_add_one, List.range'_concat, ← hc]

/-- **Take.** A request has been answered; its block is back in our hands. -/
theorem DownloadInv.take {fl : Inflight} {rest : List Inflight}
    (h : DownloadInv sha w window r c d) (hperm : d.inflight.Perm (fl :: rest)) :
    Classes c (d.stage.map Held.block) (fl.block :: rest.map Inflight.block)
        (d.redo.map Inflight.block) d.nextBlock ∧
      rest.length + (d.redo.length + 1) ≤ window ∧ c ≤ fl.block ∧ fl.block < w.numBlocks := by
  have hone := h.one.perm (List.Perm.refl _) (hperm.map Inflight.block)
  rw [List.map_cons] at hone
  have hmem := hone.mem_out List.mem_cons_self
  have hwin := h.windowed
  rw [hperm.length_eq, List.length_cons] at hwin
  exact ⟨hone, by omega, hmem.1, Nat.lt_of_lt_of_le hmem.2 h.next⟩

/-- A block is put on the list of those to be asked for again. -/
theorem redo_ok {fl fl' : Inflight} {rest : List Inflight} (h : DownloadInv sha w window r c d)
    (hd : Drained c d) (hact : d.phase = .active) (hperm : d.inflight.Perm (fl :: rest))
    (hfl : fl'.block = fl.block) :
    DownloadOk sha w window r { d with inflight := rest, redo := fl' :: d.redo } := by
  obtain ⟨hone, hwin, -, -⟩ := h.take hperm
  refine Or.inr (Or.inl ⟨hact, c, ⟨?_, h.next, hwin, h.start, h.once, h.staged, h.verified⟩, hd⟩)
  rw [List.map_cons, hfl]
  exact hone.again

/-- **Refill.** Redo entries and fresh blocks fill the free places of the window. -/
theorem fillWindow_inv (room : Nat) (h : DownloadInv sha w window r c d)
    (hroom : d.inflight.length + room ≤ window) :
    DownloadInv sha w window r c (d.fillWindow w room) ∧ (d.fillWindow w room).phase = d.phase ∧
      (d.fillWindow w room).stage = d.stage := by
  induction room generalizing d with
  | zero => exact ⟨h, rfl, rfl⟩
  | succ room ih =>
    rw [Download.fillWindow]
    have hout : ∀ b k, ((d.inflight ++ [Inflight.mk b (d.nextReqId + 1) k]).map Inflight.block) =
        d.inflight.map Inflight.block ++ [b] := by simp
    cases hr : d.redo with
    | cons fl redo =>
      have hone := h.one
      rw [hr, List.map_cons] at hone
      have hwin := h.windowed
      rw [hr, List.length_cons] at hwin
      refine ih ⟨?_, h.next, ?_, h.start, h.once, h.staged, h.verified⟩ ?_
      · show Classes c _ ((d.inflight ++ [Inflight.mk fl.block _ fl.retries]).map Inflight.block) _ _
        rw [hout]
        exact hone.resend
      · show (d.inflight ++ [Inflight.mk fl.block _ fl.retries]).length + redo.length ≤ window
        rw [List.length_append, List.length_singleton]
        omega
      · show (d.inflight ++ [Inflight.mk fl.block _ fl.retries]).length + room ≤ window
        rw [List.length_append, List.length_singleton]
        omega
    | nil =>
      dsimp only
      split
      · rename_i hnext
        refine ih ⟨?_, hnext, ?_, h.start, h.once, h.staged, h.verified⟩ ?_
        · show Classes c _ ((d.inflight ++ [Inflight.mk d.nextBlock _ 0]).map Inflight.block) _ _
          rw [hout]
          exact h.one.fresh
        · show (d.inflight ++ [Inflight.mk d.nextBlock _ 0]).length + d.redo.length ≤ window
          rw [hr, List.length_append, List.length_singleton]
          simp only [List.length_nil]
          omega
        · show (d.inflight ++ [Inflight.mk d.nextBlock _ 0]).length + room ≤ window
          rw [List.length_append, List.length_singleton]
          omega
      · exact ⟨h, rfl, rfl⟩

/-- When nothing is outstanding the cursor is at the end. -/
theorem DownloadInv.complete (h : DownloadInv sha w window r c d) (hc : d.complete w = true) :
    c = w.numBlocks := by
  simp only [Download.complete, Bool.and_eq_true, decide_eq_true_eq, List.isEmpty_iff] at hc
  obtain ⟨⟨⟨hn, hi⟩, hr⟩, hs⟩ := hc
  have hle := h.cursor_le
  rcases Nat.eq_or_lt_of_le hle with he | hlt
  · exact he
  · have hone := h.one c
    rw [hi, hr, hs] at hone
    simp at hone
    omega

theorem progress_ok (now : Int) (h : DownloadOk sha w window r d) :
    DownloadOk sha w window r (d.progress w window now) := by
  unfold Download.progress
  split
  · exact h
  · rename_i hphase
    have hact : d.phase = .active := not_not.mp hphase
    obtain ⟨c, hinv, hd⟩ := h.active hact
    split
    · exact Or.inl rfl
    · split
      · rename_i hc
        have he := hinv.complete hc
        subst he
        exact Or.inr (Or.inr ⟨rfl, hinv.one, hinv.next, hinv.windowed, hinv.start, hinv.once,
          hinv.staged, hinv.verified⟩)
      · have hwin := hinv.windowed
        obtain ⟨hinv', hphase', hstage⟩ :=
          fillWindow_inv (window - d.inflight.length) hinv (by omega)
        refine Or.inr (Or.inl ⟨hphase'.trans hact, c, hinv', ?_⟩)
        unfold Drained
        rw [hstage]
        exact hd

include hw

/-- **Flush.** What is held behind the cursor follows it, and the held blocks are drained. A
disk that grants every write does not end the download. -/
theorem stageFlush_ok (io : Nat → WriteAnswer) (now : Int) (fuel : Nat)
    (h : DownloadInv sha w window r c d) (hact : d.phase = .active)
    (hfuel : d.stage.length ≤ fuel) :
    DownloadOk sha w window r (d.stageFlush w io now fuel c) ∧
      ((∀ b, io b = .granted) → (d.stageFlush w io now fuel c).phase = .active) := by
  induction fuel generalizing c d with
  | zero =>
    have hnil : d.stage = [] := List.length_eq_zero_iff.mp (Nat.le_zero.mp hfuel)
    exact ⟨Or.inr (Or.inl ⟨hact, c, h, by simp [Download.stageFlush, Drained, hnil]⟩), fun _ => hact⟩
  | succ fuel ih =>
    rw [Download.stageFlush]
    cases hf : d.stage.find? (fun x => x.block = c) with
    | none =>
      refine ⟨Or.inr (Or.inl ⟨hact, c, h, fun x hx => ?_⟩), fun _ => hact⟩
      simpa using List.find?_eq_none.mp hf x hx
    | some x =>
      have hx : x.block = c := by simpa using List.find?_some hf
      have hmem := List.mem_of_find?_eq_some hf
      have hperm := Keyed.perm_cons_eraseP hf
      obtain ⟨hlen, hhash⟩ := h.verified x hmem
      rw [hx] at hlen hhash
      have hc : c < w.numBlocks :=
        Nat.lt_of_lt_of_le (hx ▸ (h.one.mem_held (List.mem_map_of_mem hmem)).2) h.next
      dsimp only
      rcases folderRecvWrite_cursor hw h.staged hc (io c) hlen with he | ⟨t, he, -⟩
      · rw [he]
        refine ih ?_ hact ?_
        · refine ⟨?_, h.next, h.windowed, Nat.le_succ_of_le h.start, h.once_wrote,
            h.staged.write hw hc hlen hhash, ?_⟩
          · have hone := h.one.perm (hperm.map Held.block) (List.Perm.refl _)
            rw [List.map_cons, hx] at hone
            exact hone.writeHeld
          · exact fun y hy => h.verified y (List.mem_of_mem_eraseP hy)
        · have hl := hperm.length_eq
          rw [List.length_cons] at hl
          show (d.stage.eraseP (fun x => x.block = c)).length ≤ fuel
          omega
      · refine ⟨?_, fun hg => absurd (by rw [he]) (folderRecvWrite_granted hw (hg c) c x.data)⟩
        rw [he]
        exact Or.inl rfl

theorem accept_ok (memory : Bool) (io : Nat → WriteAnswer) (now : Int) {fl : Inflight}
    {rest : List Inflight} {data : Bytes} (h : DownloadInv sha w window r c d) (hd : Drained c d)
    (hact : d.phase = .active) (hperm : d.inflight.Perm (fl :: rest))
    (hlen : (data.length : Int) = (dlBlockSpan w fl.block).2)
    (hhash : w.hashes[fl.block]? = some (sha data)) :
    DownloadOk sha w window r ({ d with inflight := rest }.accept w memory io now fl data) ∧
      ((∀ b, io b = .granted) →
        ({ d with inflight := rest }.accept w memory io now fl data).phase = .active) := by
  obtain ⟨hone, hwin, hle, hlt⟩ := h.take hperm
  unfold Download.accept
  dsimp only
  rcases Nat.eq_or_lt_of_le hle with rfl | hahead
  · -- in turn: the cursor moves on, and what waited for it follows
    rcases folderRecvWrite_cursor hw h.staged hlt (io fl.block) hlen with he | ⟨t, he, ht⟩
    · rw [he]
      refine stageFlush_ok hw io now d.stage.length ?_ hact (Nat.le_refl _)
      exact ⟨hone.write, h.next, by simp only [Download.wrote]; omega, Nat.le_succ_of_le h.start,
        h.once_wrote, h.staged.write hw hlt hlen hhash, h.verified⟩
    · refine ⟨?_, fun hg => absurd (by rw [he]) (folderRecvWrite_granted hw (hg _) fl.block data)⟩
      rw [he]
      exact Or.inl rfl
  · -- ahead of its turn: held, or asked for again
    rcases folderRecvWrite_ahead hw h.staged (Nat.lt_trans hahead hlt) hahead (io fl.block) data
      with he | he
    · rw [he]
      dsimp only [Download.stagePut]
      split
      · have hheld : (d.stage ++ [Held.mk fl.block data]).map Held.block =
            d.stage.map Held.block ++ [fl.block] := by simp
        refine ⟨Or.inr (Or.inl ⟨hact, c, ⟨?_, h.next, Nat.le_trans (Nat.add_le_add_left
          (Nat.le_succ _) _) hwin, h.start, h.once, h.staged, ?_⟩, ?_⟩), fun _ => hact⟩
        · show Classes c ((d.stage ++ [Held.mk fl.block data]).map Held.block) _ _ _
          rw [hheld]
          exact hone.hold
        · intro x hx
          rcases List.mem_append.mp hx with hx | hx
          · exact h.verified x hx
          · rw [List.mem_singleton.mp hx]
            exact ⟨hlen, hhash⟩
        · intro x hx
          rcases List.mem_append.mp hx with hx | hx
          · exact hd x hx
          · rw [List.mem_singleton.mp hx]
            exact Nat.ne_of_gt hahead
      · exact ⟨redo_ok h hd hact hperm rfl, fun _ => hact⟩
    · refine ⟨?_, fun hg => absurd (by rw [he]) (folderRecvWrite_granted hw (hg _) fl.block data)⟩
      rw [he]
      exact Or.inl rfl

/-- **Message.** A Response keeps the invariant, whatever it holds. -/
theorem handleResponse_ok (memory : Bool) (io : Nat → WriteAnswer) (now : Int)
    (rs : Option BepResponse) (h : DownloadOk sha w window r d) :
    DownloadOk sha w window r (d.handleResponse sha w memory io now rs) := by
  unfold Download.handleResponse
  cases rs with
  | none => exact h
  | some rs =>
    dsimp only
    split
    · exact h
    · rename_i hphase
      have hact : d.phase = .active := not_not.mp hphase
      obtain ⟨c, hinv, hd⟩ := h.active hact
      split
      · exact h
      · split
        · exact h
        · rename_i fl hslot
          have hperm := Keyed.perm_cons_swapRemove hslot
          split
          · exact Or.inl rfl
          · split
            · rename_i hok
              exact (accept_ok hw memory io now hinv hd hact hperm hok.1 hok.2).1
            · unfold Download.reject
              split
              · exact Or.inl rfl
              · have hfl : ({ fl with retries := fl.retries + 1 } : Inflight).block = fl.block := rfl
                have hredo := redo_ok hinv hd hact hperm hfl
                exact hredo

/-- **Step.** -/
theorem downloadOk_step (e : DlEvent) (h : DownloadOk sha w window r d) :
    DownloadOk sha w window r (dlStep sha w window d e) := by
  cases e with
  | progress now => exact progress_ok now h
  | response rs memory io now => exact handleResponse_ok hw memory io now rs h
  | abort =>
    rw [dlStep]
    split
    · exact Or.inl rfl
    · exact h

/-- **Run.** -/
theorem downloadOk_run (es : List DlEvent) (h : DownloadOk sha w window r d) :
    DownloadOk sha w window r (dlRun sha w window d es) := by
  induction es generalizing d with
  | nil => exact h
  | cons e es ih => exact ih (downloadOk_step hw e h)

/-! ## The start -/

omit hw in
/-- The temporary file is fresh, or it is kept whole and is not longer than its blocks. -/
theorem folderRecvOpen_cases (reopen : Bool) (blockSize : Int) (numBlocks : Nat)
    (existing : Option Bytes) :
    folderRecvOpen reopen blockSize numBlocks existing = (0, []) ∨
      ∃ t : Bytes, existing = some t ∧ (t.length : Int) ≤ numBlocks * blockSize ∧
        0 < min (t.length / blockSize).toNat numBlocks ∧
        folderRecvOpen reopen blockSize numBlocks existing =
          (min (t.length / blockSize).toNat numBlocks, t) := by
  unfold folderRecvOpen
  cases existing with
  | none =>
    left
    dsimp only
    rw [ite_self, if_neg (by split <;> omega)]
  | some t =>
    dsimp only
    by_cases hb : blockSize > 0
    · rw [if_pos hb]
      by_cases hfit : (t.length : Int) > numBlocks * blockSize
      · left
        rw [if_pos hfit, if_neg (by omega)]
      · rw [if_neg hfit]
        split
        · split
          · rename_i hrf
            exact Or.inr ⟨t, rfl, by omega, hrf.1, rfl⟩
          · exact Or.inl rfl
        · exact Or.inl rfl
    · left
      rw [if_neg hb, if_neg (by split <;> omega)]

/-- Where the temporary file ends, as it is opened. -/
theorem folderRecvOpen_staged (reopen : Bool) (existing : Option Bytes) {rf : Nat} {temp : Bytes}
    (h : folderRecvOpen reopen w.fi.blockSize w.numBlocks existing = (rf, temp)) :
    rf ≤ w.numBlocks ∧ StagedOk sha w rf rf temp := by
  have hb := hw.bs_pos
  have hbs := hw.bs_cast
  rcases folderRecvOpen_cases reopen w.fi.blockSize w.numBlocks existing with
    he | ⟨t, -, -, -, he⟩
  · rw [h, Prod.mk.injEq] at he
    obtain ⟨rfl, rfl⟩ := he
    exact ⟨Nat.zero_le _, fun _ => by simp [hb], fun i _ hi => absurd hi (Nat.not_lt_zero i)⟩
  · rw [h, Prod.mk.injEq] at he
    have hdiv : ((t.length : Int) / w.fi.blockSize).toNat = t.length / w.bs := by
      rw [← hbs]
      rfl
    rw [hdiv] at he
    obtain ⟨rfl, rfl⟩ := he
    refine ⟨Nat.min_le_right _ _, fun hlt => ?_, fun i hr hi => absurd hi (by omega)⟩
    have hmin : min (temp.length / w.bs) w.numBlocks = temp.length / w.bs := by omega
    rw [hmin]
    refine ⟨Nat.div_mul_le_self _ _, ?_⟩
    rw [Nat.mul_comm]
    exact Nat.lt_mul_div_succ _ hb

/-- **Copy.** Blocks copied from a local file are checked like those of the peer. -/
theorem localPrefill_ok (read : Nat → Option Bytes) (io : Nat → WriteAnswer) (now : Int) (fuel : Nat)
    (h : DownloadInv sha w window r d.nextBlock d) (hact : d.phase = .active)
    (hstage : d.stage = []) (hfuel : d.nextBlock + fuel ≤ w.numBlocks) :
    DownloadOk sha w window r (localPrefill sha w read io now fuel d) := by
  have hstay : ∀ t, StagedOk sha w r d.nextBlock t →
      DownloadOk sha w window r { d with temp := t } := fun t ht =>
    Or.inr (Or.inl ⟨hact, d.nextBlock, ⟨h.one, h.next, h.windowed, h.start, h.once, ht,
      h.verified⟩, by simp [Drained, hstage]⟩)
  induction fuel generalizing d with
  | zero => exact hstay d.temp h.staged
  | succ fuel ih =>
    rw [localPrefill]
    cases hread : read d.nextBlock with
    | none => exact hstay d.temp h.staged
    | some data =>
      dsimp only
      split
      · rename_i hok
        have hc : d.nextBlock < w.numBlocks := by omega
        rcases folderRecvWrite_cursor hw h.staged hc (io d.nextBlock) hok.1 with he | ⟨t, he, ht⟩
        · rw [he]
          have hinv : DownloadInv sha w window r (d.nextBlock + 1)
              { d.wrote d.lastProgress d.nextBlock (overwrite d.temp (d.nextBlock * w.bs) data) with
                nextBlock := d.nextBlock + 1 } :=
            ⟨h.one.copy, hc, h.windowed, Nat.le_succ_of_le h.start, h.once_wrote,
              h.staged.write hw hc hok.1 hok.2, h.verified⟩
          refine ih hinv hact hstage ?_ (fun t ht => ?_)
          · show d.nextBlock + 1 + fuel ≤ w.numBlocks
            omega
          · exact Or.inr (Or.inl ⟨hact, _, ⟨hinv.one, hinv.next, hinv.windowed, hinv.start,
              hinv.once, ht, hinv.verified⟩, by simp [Drained, Download.wrote, hstage]⟩)
        · rw [he]
          exact hstay t ht
      · exact hstay d.temp h.staged

/-- **Start.** -/
theorem startDownload_ok (window : Nat) (reopen : Bool) (existing : Option Bytes)
    (read : Nat → Option Bytes) (io : Nat → WriteAnswer) (now : Int) (reqId : Nat) :
    DownloadOk sha w window (folderRecvOpen reopen w.fi.blockSize w.numBlocks existing).1
      (startDownload sha w reopen existing read io now reqId) := by
  unfold startDownload
  cases ho : folderRecvOpen reopen w.fi.blockSize w.numBlocks existing with
  | mk rf temp =>
    obtain ⟨hle, hst⟩ : rf ≤ w.numBlocks ∧ StagedOk sha w rf rf temp :=
      folderRecvOpen_staged hw reopen existing ho
    dsimp only
    refine localPrefill_ok hw read io now _ ⟨fun i => ?_, hle, Nat.zero_le _, Nat.le_refl _, by simp,
      hst, by simp⟩ rfl rfl (by simp only; omega)
    by_cases hi : i < rf
    · simp [hi]
    · simp [hi, Nat.le_of_not_lt hi]

end Inv

/-! ## Every run -/

/-- **The blocks of a download.** After any events, while the download is active, each block
is in one class, the window bounds those out or to be asked for again, and the blocks from
`r` to the cursor are in the temporary file with their hashes, each written once and in
order. `finalize_download` is reached with all of them written. -/
theorem download_blocks (sha : Bytes → Hash) (w : Wanted) (hw : w.Consistent) (window : Nat)
    (reopen : Bool) (existing : Option Bytes) (read : Nat → Option Bytes)
    (io : Nat → WriteAnswer) (now : Int) (reqId : Nat) (es : List DlEvent) (r : Nat) (d : Download)
    (hr : r = (folderRecvOpen reopen w.fi.blockSize w.numBlocks existing).1)
    (hd : d = dlRun sha w window (startDownload sha w reopen existing read io now reqId) es) :
    (d.phase = .active → ∃ c, r ≤ c ∧ c ≤ w.numBlocks ∧
      Classes c (d.stage.map Held.block) (d.inflight.map Inflight.block)
        (d.redo.map Inflight.block) d.nextBlock ∧
      d.inflight.length + d.redo.length ≤ window ∧
      (∀ i, r ≤ i → i < c → ((w.blockAt d.temp i).length : Int) = (dlBlockSpan w i).2 ∧
        w.hashes[i]? = some (sha (w.blockAt d.temp i))) ∧
      d.writes = List.range' r (c - r)) ∧
    (d.phase = .finalized →
      (∀ i, r ≤ i → i < w.numBlocks → ((w.blockAt d.temp i).length : Int) = (dlBlockSpan w i).2 ∧
        w.hashes[i]? = some (sha (w.blockAt d.temp i))) ∧
      d.writes = List.range' r (w.numBlocks - r)) := by
  have hok : DownloadOk sha w window r d := by
    subst hr hd
    exact downloadOk_run hw es (startDownload_ok hw window reopen existing read io now reqId)
  constructor
  · intro hact
    obtain ⟨c, h, -⟩ := hok.active hact
    exact ⟨c, h.start, h.cursor_le, h.one, h.windowed, h.staged.held, h.once⟩
  · intro hfin
    have h := hok.finalized hfin
    exact ⟨h.staged.held, h.once⟩

/-- Three bytes in blocks of two. -/
def threeBytes : Wanted where
  fi := { SyncMeta.zero [102] with size := 3, blockSize := 2 }
  hashes := [sampleHash 2, sampleHash 1]

/-- A hash that tells lengths apart. -/
def lengthHash (b : Bytes) : Hash := sampleHash (UInt8.ofNat b.length)

/-- Both blocks are asked for, the second comes first, a stale id is ignored. -/
def reorderedEvents : List DlEvent :=
  [.progress 10, .response (some ⟨2, 0, [3]⟩) true (fun _ => .granted) 11, .progress 11,
    .response (some ⟨2, 0, [3]⟩) true (fun _ => .granted) 12,
    .response (some ⟨1, 0, [1, 2]⟩) true (fun _ => .granted) 13, .progress 13]

theorem download_blocks_reordered :
    (dlRun lengthHash threeBytes 4 (startDownload lengthHash threeBytes true none (fun _ => none)
      (fun _ => .granted) 10 0) reorderedEvents).writes = [0, 1] :=
  ((download_blocks lengthHash threeBytes ⟨by decide, by decide, by decide⟩ 4 true none
    (fun _ => none) (fun _ => .granted) 10 0 reorderedEvents 0 _ rfl rfl).2 (by decide)).2

end Amisync

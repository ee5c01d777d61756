import Amisync.Reorder
import Amisync.Serve

/-!
# One file from daemon to daemon (`worker.c`)

The download of one file together with the peer that serves it. Requests and
Responses travel as the bodies the two sides encode; any one in flight may
arrive next, and memory to hold a block may be refused at any time.

* `Parties`, `step`: the two parties and what is in flight between them.
* `Sound`: no turn comes after the stall limit, and the peer's reads succeed.
* `TransferInv`, `inv_step`: each Request that is out has one message in
  flight, and the blocks written or held are those of the peer's file.
* `transfer_faithful`: what every run keeps.
* `Round`: the Requests that are out when it begins are answered when it ends.
* `transfer_finishes`: a file of `n` missing blocks takes no more than `n + 1`
  rounds, whatever the order inside them.
-/

namespace Amisync.Transfer

open Blocks Amisync.Frame Messages Pbuf Reorder Serve

/-! ## The two parties -/

/-- The Request `send_block_request` encodes. -/
def blockRequest (w : Wanted) (folder : CString 63) (fl : Inflight) : Request where
  id := Int32.ofNat fl.id
  folder := folder
  name := .ofBytes _ w.fi.name
  offset := Int64.ofInt (dlBlockSpan w fl.block).1
  size := Int32.ofInt (dlBlockSpan w fl.block).2
  hash := w.hashes[fl.block]?
  fromTemporary := 0
  blockNo := 0

/-- A Response as `handle_response` compares it. -/
def heard (rs : Response) : BepResponse := ⟨rs.id.toInt.toNat, rs.code.toInt, rs.data⟩

/-- The download, and the bodies on their way to the peer and back. -/
structure Parties where
  d : Download
  requests : List Bytes
  responses : List Bytes

inductive TransferEvent where
  /-- `progress` -/
  | turn (now : Int)
  /-- The Request at place `k` reaches the peer. -/
  | serve (k : Nat) (reads : Nat → Option Nat)
  /-- The Response at place `k` arrives. -/
  | deliver (k : Nat) (memory : Bool) (now : Int)

section Step
variable (sha : Bytes → Hash) (w : Wanted) (window : Nat) (env : Env) (folder : CString 63)

/-- The bodies of the Requests that one turn of the loop sends. -/
def sent (d d' : Download) : List Bytes :=
  (d'.inflight.drop d.inflight.length).filterMap fun fl =>
    encodeRequest (blockRequest w folder fl) bepMsgMax

/-- `none` where nothing is in flight at that place, or the peer does not answer. -/
def step (s : Parties) : TransferEvent → Option Parties
  | .turn now =>
    let d := s.d.progress w window now
    some { s with d := d, requests := s.requests ++ sent w folder s.d d }
  | .serve k reads =>
    s.requests[k]?.bind fun body =>
      (serveRequest env reads body).bind fun rs =>
        (encodeResponse rs bepMsgMax).map fun reply =>
          { s with requests := s.requests.eraseIdx k, responses := s.responses ++ [reply] }
  | .deliver k memory now =>
    s.responses[k]?.map fun body =>
      { s with
        d := s.d.handleResponse sha w memory diskGrants now ((decodeResponse body).map heard)
        responses := s.responses.eraseIdx k }

/-- The download does not stall, the Request ids have not run out, and the peer's disk reads. -/
def Sound (s : Parties) : TransferEvent → Prop
  | .turn now => now - s.d.lastProgress ≤ wkStallSecs ∧ (s.d.progress w window now).nextReqId < 2 ^ 31
  | .serve _ reads => ∀ k, (reads k).isSome
  | .deliver .. => True

end Step

/-- The peer shares the file `data` in the folder, under the announced name, and announced it as
it is. -/
structure Serves (sha : Bytes → Hash) (env : Env) (w : Wanted) (folder : CString 63) (data : Bytes) :
    Prop where
  shared : ∃ i, syncFolderIndex env folder = some i ∧ env.ignored i w.fi.name = false ∧
    opened env (env.folders.getD i (.empty _, [])).2 w.fi.name = some data
  name : (CString.ofBytes 255 w.fi.name).bytes = w.fi.name
  safe : pathNameSafe w.fi.name = true
  memory : env.alloc = true
  length : (data.length : Int) = w.fi.size
  small : data.length < 2 ^ 31
  block : w.fi.blockSize ≤ folderMaxBlockSize
  hashed : ∀ b < w.numBlocks, w.hashes[b]? = some (sha (w.blockAt data b))

/-! ## What travels -/

def question (w : Wanted) (folder : CString 63) (fl : Inflight) : Bytes :=
  requestBytes (blockRequest w folder fl)

/-- The Response to the Request `fl`, with the peer's block. -/
def reply (w : Wanted) (data : Bytes) (fl : Inflight) : Response :=
  ⟨Int32.ofNat fl.id, w.blockAt data fl.block, bepErrNone⟩

def answer (w : Wanted) (data : Bytes) (fl : Inflight) : Bytes := responseBytes (reply w data fl)

theorem sent_eq (w : Wanted) (folder : CString 63) (d d' : Download) :
    sent w folder d d' = (d'.inflight.drop d.inflight.length).map (question w folder) := by
  unfold sent
  rw [← List.filterMap_eq_map]
  refine List.filterMap_congr fun fl _ => ?_
  have hlen := length_requestBytes (blockRequest w folder fl)
  rw [encodeRequest_eq, if_pos (Nat.le_trans hlen (by decide))]
  rfl

section Honest
variable {sha : Bytes → Hash} {w : Wanted} {env : Env} {folder : CString 63} {data : Bytes}

/-- A block of the file lies within it. -/
theorem span_in_file (hw : w.Consistent) {i : Nat} (hi : i < w.numBlocks) :
    ∃ n : Nat, (dlBlockSpan w i).2 = n ∧ n ≤ w.bs ∧ i * w.bs + n ≤ w.fi.size.toNat := by
  refine ⟨_, dlBlockSpan_eq hw hi, Nat.min_le_left _ _, ?_⟩
  rcases hw.count with ⟨h0, hn⟩ | ⟨hpos, -⟩
  · have hz : i = 0 := by omega
    rw [hz]
    omega
  · have hlt := (hw.lt_numBlocks hpos i).mp hi
    omega

theorem content_ok (hw : w.Consistent) (hs : Serves sha env w folder data) :
    Content sha w (w.blockAt data) := by
  intro b hb
  obtain ⟨n, hn, -, hin⟩ := span_in_file hw hb
  have hsize := hs.length
  refine ⟨?_, hs.hashed b hb⟩
  rw [Wanted.blockAt, dlBlockSpan_off hw, hn, length_slice, Int.toNat_natCast, Int.toNat_natCast]
  omega

/-- **Serving.** The peer answers the Request for a block with that block of its file. -/
theorem serve_question (hw : w.Consistent) (hs : Serves sha env w folder data) {fl : Inflight}
    (hfl : fl.block < w.numBlocks) {reads : Nat → Option Nat} (hreads : ∀ k, (reads k).isSome) :
    serveRequest env reads (question w folder fl) = some (reply w data fl) := by
  obtain ⟨n, hn, hbs, hin⟩ := span_in_file hw hfl
  have hlength := hs.length
  obtain ⟨i, hi, hign, hopen⟩ := hs.shared
  have hsmall := hs.small
  have hmax := hs.block
  have hcast := hw.bs_cast
  have hmax' : folderMaxBlockSize = 1048576 := by decide
  have hsize : (blockRequest w folder fl).size.toInt = n := by
    show (Int32.ofInt (dlBlockSpan w fl.block).2).toInt = n
    rw [hn, Int32.toInt_ofInt_of_le (by omega) (by omega)]
  have hoff : (blockRequest w folder fl).offset.toInt32.toInt = ((fl.block * w.bs : Nat) : Int) := by
    show (Int64.ofInt (dlBlockSpan w fl.block).1).toInt32.toInt = _
    rw [dlBlockSpan_off hw, Int64.toInt32_ofInt, Int32.toInt_ofInt_of_le (by omega) (by omega)]
  have hname : (blockRequest w folder fl).name.bytes = w.fi.name := hs.name
  have hadm : admitted env i (blockRequest w folder fl) = true := by
    rw [admitted, hname, hs.safe, hign, hsize]
    simp only [Bool.not_false, Bool.and_true, decide_eq_true_eq]
    omega
  have hread := @folderReadBlock_of_inside _ _ _ (blockRequest w folder fl).offset n _ hopen (by omega)
    (by omega) _ hreads
  rw [hoff, Int.toNat_natCast] at hread
  have hblock : (data.drop (fl.block * w.bs)).take n = w.blockAt data fl.block := by
    rw [Wanted.blockAt, dlBlockSpan_off hw, hn, Int.toNat_natCast, Int.toNat_natCast]
    rfl
  have hlen : ((w.blockAt data fl.block).length : Int) = n := by
    rw [← hn]
    exact (content_ok hw hs fl.block hfl).1
  rw [serveRequest, question, decodeRequest_bytes (Or.inl rfl)]
  dsimp only
  rw [show (blockRequest w folder fl).folder = folder from rfl, hi]
  dsimp only
  rw [hadm, hs.memory, hname, hsize, Int.toNat_natCast, hread, hblock]
  dsimp only
  rw [hlen]
  simp [reply, blockRequest]

/-- A Response with a block fits the buffer. -/
theorem length_answer (hw : w.Consistent) (hs : Serves sha env w folder data) {fl : Inflight}
    (hfl : fl.block < w.numBlocks) : (answer w data fl).length ≤ bepMsgMax := by
  obtain ⟨n, hn, hbs, -⟩ := span_in_file hw hfl
  have hlen := (content_ok hw hs fl.block hfl).1
  have hmax := hs.block
  have hcast := hw.bs_cast
  have hmax' : folderMaxBlockSize = 1048576 := by decide
  have hlen' : (reply w data fl).data.length = n := by
    show (w.blockAt data fl.block).length = n
    omega
  have h1 := length_num32 (f := 1) (reply w data fl).id.toUInt32 (by decide)
  have h2 : (Field.data 2 (reply w data fl).data).bytes.length ≤
      (reply w data fl).data.length + (0 + 1 + (2 + 1)) :=
    length_data (length_put_tagOf (by decide) (by decide)) (length_put_ofNat (by
      rw [hlen']
      omega))
  have h2' := length_optional_le (p := 0 < (reply w data fl).data.length) h2
  have h3 := length_optional_le (p := (reply w data fl).code ≠ 0)
    (length_num32 (f := 3) (reply w data fl).code.toUInt32 (by decide))
  have hbound : bepMsgMax = 1114112 := by decide
  rw [answer, responseBytes, responseFields]
  simp only [List.cons_append, List.flatMap_cons, List.flatMap_append, List.length_append]
  omega

/-- A file that is not longer and has the same blocks is the same. -/
theorem eq_of_blocks (hw : w.Consistent) (hlen : (data.length : Int) = w.fi.size) {temp : Bytes}
    (hle : temp.length ≤ data.length)
    (hblocks : ∀ b < w.numBlocks, w.blockAt temp b = w.blockAt data b) : temp = data := by
  refine List.ext_getElem? fun i => ?_
  by_cases hi : i < data.length
  · have hb := hw.bs_pos
    have hdiv : i / w.bs * w.bs ≤ i := Nat.div_mul_le_self i w.bs
    have hmod : i < i / w.bs * w.bs + w.bs := by
      have := Nat.lt_div_mul_add hb (a := i)
      omega
    have hblock : i / w.bs < w.numBlocks := (hw.lt_numBlocks (by omega) _).mpr (by omega)
    have heq := congrArg (fun l : Bytes => l[i - i / w.bs * w.bs]?) (hblocks _ hblock)
    simp only [Wanted.blockAt, dlBlockSpan_off hw, dlBlockSpan_eq hw hblock, Int.toNat_natCast,
      slice] at heq
    rw [List.getElem?_take_of_lt (by omega), List.getElem?_take_of_lt (by omega),
      List.getElem?_drop, List.getElem?_drop, Nat.add_sub_cancel' hdiv] at heq
    exact heq
  · rw [List.getElem?_eq_none (by omega), List.getElem?_eq_none (by omega)]

end Honest

/-! ## What is written -/

/-- The blocks from `c₀` to the cursor, and those that are held, are the peer's; the temporary
file, of `len` bytes at first, is not longer than the peer's unless it was so before. -/
structure Holds (w : Wanted) (content : Nat → Bytes) (len c₀ c : Nat) (d : Download) : Prop where
  written : ∀ i, c₀ ≤ i → i < c → w.blockAt d.temp i = content i
  held : ∀ h ∈ d.stage, h.data = content h.block
  within : d.temp.length ≤ max len w.fi.size.toNat

section Content
variable {sha : Bytes → Hash} {w : Wanted} (hw : w.Consistent) {content : Nat → Bytes}
  {window r len c₀ c : Nat} {d : Download} {now : Int}
include hw

theorem grants_not_fail {temp t : Bytes} {b : Nat} {data : Bytes}
    (he : folderRecvWrite (diskGrants b) temp (dlBlockSpan w b).1 data = (.fail, t)) : False :=
  folderRecvWrite_granted hw (a := diskGrants b) rfl b data (congrArg Prod.fst he)

variable (now) in
theorem Holds.write (h : Holds w content len c₀ c d) (hst : StagedOk sha w r c d.temp)
    (hc : c < w.numBlocks) {data : Bytes} (hdata : data = content c)
    (hlen : (data.length : Int) = (dlBlockSpan w c).2) (stage : List Held)
    (hstage : ∀ h ∈ stage, h ∈ d.stage) :
    Holds w content len c₀ (c + 1)
      { d.wrote now c (overwrite d.temp (c * w.bs) data) with stage := stage } := by
  have hlo := (hst.room hc).1
  constructor
  · intro i hi hic
    show w.blockAt (overwrite d.temp (c * w.bs) data) i = content i
    rcases Nat.lt_succ_iff_lt_or_eq.mp hic with hlt | rfl
    · rw [blockAt_overwrite_before hw hlt hc hlo]
      exact h.written i hi hlt
    · rw [Wanted.blockAt, dlBlockSpan_off hw, ← hlen, Int.toNat_natCast, Int.toNat_natCast,
        slice_overwrite_self hlo data, hdata]
  · exact fun x hx => h.held x (hstage x hx)
  · obtain ⟨n, hn, -, hin⟩ := span_in_file hw hc
    have hwithin := h.within
    show (overwrite d.temp (c * w.bs) data).length ≤ _
    rw [length_overwrite hlo]
    omega

variable (now) in
/-- What follows the cursor out of the held blocks is the peer's too. -/
theorem holds_stageFlush (fuel : Nat) (hinv : DownloadInv sha w window r c d)
    (h : Holds w content len c₀ c d) :
    ∃ c', c' = r + (d.stageFlush w diskGrants now fuel c).writes.length ∧
      Holds w content len c₀ c' (d.stageFlush w diskGrants now fuel c) := by
  induction fuel generalizing c d with
  | zero => exact ⟨c, cursor_eq hinv, h⟩
  | succ fuel ih =>
    rw [Download.stageFlush]
    cases hf : d.stage.find? (fun x => x.block = c) with
    | none => exact ⟨c, cursor_eq hinv, h⟩
    | some x =>
      have hx : x.block = c := by simpa using List.find?_some hf
      have hmem := List.mem_of_find?_eq_some hf
      obtain ⟨hlen, hhash⟩ := hinv.verified x hmem
      rw [hx] at hlen hhash
      have hc : c < w.numBlocks :=
        Nat.lt_of_lt_of_le (hx ▸ (hinv.one.mem_held (List.mem_map_of_mem hmem)).2) hinv.next
      have hdata : x.data = content c := by rw [h.held x hmem, hx]
      dsimp only
      rcases folderRecvWrite_cursor hw hinv.staged hc (diskGrants c) hlen with he | ⟨t, he, -⟩
      · rw [he]
        refine ih ?_ (h.write hw now hinv.staged hc hdata hlen _ fun _ hy => List.mem_of_mem_eraseP hy)
        refine ⟨?_, hinv.next, hinv.windowed, Nat.le_succ_of_le hinv.start, hinv.once_wrote,
          hinv.staged.write hw hc hlen hhash, ?_⟩
        · have hone := hinv.one.perm ((Keyed.perm_cons_eraseP hf).map Held.block) (List.Perm.refl _)
          rw [List.map_cons, hx] at hone
          exact hone.writeHeld
        · exact fun y hy => hinv.verified y (List.mem_of_mem_eraseP hy)
      · exact (grants_not_fail hw he).elim

/-- What an answer does to the download: the block is written, held or asked for again. -/
structure Accepted (content : Nat → Bytes) (w : Wanted) (r len c₀ : Nat) (rest : List Inflight)
    (d d' : Download) (b : Nat) : Prop where
  inflight : d'.inflight = rest
  reqId : d'.nextReqId = d.nextReqId
  grows : d.writes.length ≤ d'.writes.length
  turn : b = r + d.writes.length → d.writes.length < d'.writes.length
  holds : Holds w content len c₀ (r + d'.writes.length) d'

variable (c₀ now) in
theorem accepted (memory : Bool) {fl : Inflight} {rest : List Inflight}
    (hinv : DownloadInv sha w window r c d) (h : Holds w content len c₀ c d)
    (hperm : d.inflight.Perm (fl :: rest))
    (hlen : ((content fl.block).length : Int) = (dlBlockSpan w fl.block).2)
    (hhash : w.hashes[fl.block]? = some (sha (content fl.block))) :
    Accepted content w r len c₀ rest d
      ({ d with inflight := rest }.accept w memory diskGrants now fl (content fl.block)) fl.block := by
  obtain ⟨hone, hwin, hle, hlt⟩ := hinv.take hperm
  have hcur := cursor_eq hinv
  unfold Download.accept
  dsimp only
  rcases Nat.eq_or_lt_of_le hle with rfl | hahead
  · -- in turn
    rcases folderRecvWrite_cursor hw hinv.staged hlt (diskGrants fl.block) hlen with he | ⟨t, he, -⟩
    · rw [he]
      dsimp only
      have hinv' : DownloadInv sha w window r (fl.block + 1) ({ d with inflight := rest }.wrote now
          fl.block (overwrite d.temp (fl.block * w.bs) (content fl.block))) :=
        ⟨hone.write, hinv.next, by simp only [Download.wrote]; omega, Nat.le_succ_of_le hinv.start,
          hinv.once_wrote, hinv.staged.write hw hlt hlen hhash, hinv.verified⟩
      have hh := h.write hw now hinv.staged hlt rfl hlen d.stage fun _ hx => hx
      obtain ⟨c', hc', hholds⟩ := holds_stageFlush hw now d.stage.length hinv'
        ⟨hh.written, hh.held, hh.within⟩
      have hsame := @sameWindow_stageFlush w diskGrants now d.stage.length
        ({ d with inflight := rest }.wrote now fl.block
          (overwrite d.temp (fl.block * w.bs) (content fl.block))) (fl.block + 1)
      have hgrow : d.writes.length + 1 ≤ _ := Nat.le_trans (by simp [Download.wrote]) hsame.writes
      exact ⟨hsame.inflight, hsame.reqId, Nat.le_of_succ_le hgrow, fun _ => hgrow, hc' ▸ hholds⟩
    · exact (grants_not_fail hw he).elim
  · -- ahead of its turn
    rcases folderRecvWrite_ahead hw hinv.staged (Nat.lt_trans hahead hlt) hahead
      (diskGrants fl.block) (content fl.block) with he | he
    · rw [he]
      dsimp only [Download.stagePut]
      split
      · refine ⟨rfl, rfl, Nat.le_refl _, fun hb => absurd hb (by omega), ?_⟩
        refine ⟨fun i hi hic => h.written i hi (hcur ▸ hic), ?_, h.within⟩
        intro x hx
        rcases List.mem_append.mp hx with hx | hx
        · exact h.held x hx
        · rw [List.mem_singleton.mp hx]
      · exact ⟨rfl, rfl, Nat.le_refl _, fun hb => absurd hb (by omega),
          fun i hi hic => h.written i hi (hcur ▸ hic), h.held, h.within⟩
    · exact (grants_not_fail hw he).elim

end Content

/-! ## What the handlers do -/

section Handlers
variable {sha : Bytes → Hash} {w : Wanted} {window r c : Nat} {d : Download}

/-- The Response to a Request that is out finds that Request. -/
theorem handleResponse_eq (memory : Bool) (now : Int) {fl : Inflight} {data : Bytes}
    (hids : IdsOk d) (hact : d.phase = .active) (hfl : fl ∈ d.inflight)
    (hlen : (data.length : Int) = (dlBlockSpan w fl.block).2)
    (hhash : w.hashes[fl.block]? = some (sha data)) :
    ∃ rest, d.inflight.Perm (fl :: rest) ∧
      d.handleResponse sha w memory diskGrants now (some ⟨fl.id, 0, data⟩) =
        { d with inflight := rest }.accept w memory diskGrants now fl data := by
  obtain ⟨slot, hslot⟩ : ∃ slot, d.inflight.findIdx? (fun x => x.id = fl.id) = some slot := by
    refine Option.ne_none_iff_exists'.mp fun hnone => ?_
    have := List.findIdx?_eq_none_iff.mp hnone fl hfl
    simp at this
  obtain ⟨hlt, hid, -⟩ := List.findIdx?_eq_some_iff_getElem.mp hslot
  have hget : d.inflight[slot]? = some fl := by
    rw [List.getElem?_eq_getElem hlt, Option.some.injEq]
    exact List.inj_on_of_nodup_map hids.nodup (List.getElem_mem hlt) hfl (by simpa using hid)
  refine ⟨_, Keyed.perm_cons_swapRemove hget, ?_⟩
  unfold Download.handleResponse
  dsimp only
  rw [if_neg (not_not.mpr hact), hslot]
  dsimp only
  rw [hget]
  dsimp only
  rw [if_neg (by decide), if_pos ⟨hlen, hhash⟩]

/-- The window is filled from the blocks to be asked for again, then from the fresh ones. -/
theorem fillWindow_asks (room : Nat) (hids : IdsOk d) :
    IdsOk (d.fillWindow w room) ∧ (d.fillWindow w room).temp = d.temp ∧
      (d.redo.length ≤ room → (d.fillWindow w room).redo = []) ∧
      (d.redo.length < room → d.nextBlock < w.numBlocks →
        d.nextBlock < (d.fillWindow w room).nextBlock) ∧
      d.nextBlock ≤ (d.fillWindow w room).nextBlock := by
  induction room generalizing d with
  | zero =>
    refine ⟨hids, rfl, fun h => ?_, fun h => absurd h (Nat.not_lt_zero _), Nat.le_refl _⟩
    exact List.length_eq_zero_iff.mp (Nat.le_zero.mp h)
  | succ room ih =>
    rw [Download.fillWindow]
    cases hr : d.redo with
    | nil =>
      dsimp only
      split
      · have hsent := idsOk_send hids d.nextBlock 0
        obtain ⟨h1, h2, h3, -, h5⟩ :=
          ih (d := { d.sendBlockRequest d.nextBlock 0 with nextBlock := d.nextBlock + 1 })
            (idsOk_congr hsent rfl rfl)
        have hnil : ({ d.sendBlockRequest d.nextBlock 0 with
            nextBlock := d.nextBlock + 1 } : Download).redo.length ≤ room := by
          show d.redo.length ≤ room
          rw [hr]
          exact Nat.zero_le _
        exact ⟨h1, h2, fun _ => h3 hnil, fun _ _ => h5, Nat.le_of_succ_le h5⟩
      · rename_i hlt
        exact ⟨hids, rfl, fun _ => hr, fun _ h => absurd h hlt, Nat.le_refl _⟩
    | cons fl redo =>
      dsimp only
      have hids' := @idsOk_congr d { d with redo := redo } hids rfl rfl
      obtain ⟨h1, h2, h3, h4, h5⟩ := ih (idsOk_send hids' fl.block fl.retries)
      exact ⟨h1, h2, fun h => h3 (Nat.le_of_succ_le_succ h), fun h => h4 (Nat.lt_of_succ_lt_succ h), h5⟩

/-- With every block written nothing is out. -/
theorem quiet_of_whole (h : DownloadInv sha w window r w.numBlocks d) : d.inflight = [] := by
  have hle := h.one.le_next
  have hlen := length_of_classes h.one
  have hnext := h.next
  rw [List.length_map, List.length_map, List.length_map] at hlen
  exact List.length_eq_zero_iff.mp (by omega)

end Handlers

/-! ## The invariant -/

/-- One message is in flight for each Request that is out. -/
def InFlight (w : Wanted) (folder : CString 63) (data : Bytes) (s : Parties) : Prop :=
  ∃ asked answered, s.d.inflight.Perm (asked ++ answered) ∧
    s.requests = asked.map (question w folder) ∧ s.responses = answered.map (answer w data)

structure TransferInv (sha : Bytes → Hash) (w : Wanted) (window : Nat) (folder : CString 63)
    (data : Bytes) (r len c₀ : Nat) (s : Parties) : Prop where
  ok : DownloadOk sha w window r s.d
  alive : s.d.phase ≠ .aborted
  ids : IdsOk s.d
  limit : s.d.nextReqId < 2 ^ 31
  flight : InFlight w folder data s
  holds : Holds w (w.blockAt data) len c₀ (r + s.d.writes.length) s.d

/-- The cursor does not go back, and its own Request stays out until it moves on. -/
structure Advances (r : Nat) (s t : Parties) : Prop where
  grows : s.d.writes.length ≤ t.d.writes.length
  waits : ∀ fl ∈ s.d.inflight, fl.block = r + s.d.writes.length →
    fl ∈ t.d.inflight ∨ s.d.writes.length < t.d.writes.length

theorem Advances.refl (r : Nat) (s : Parties) : Advances r s s :=
  ⟨Nat.le_refl _, fun _ hfl _ => Or.inl hfl⟩

theorem Advances.trans {r : Nat} {s t u : Parties} (h : Advances r s t) (h' : Advances r t u) :
    Advances r s u := by
  refine ⟨Nat.le_trans h.grows h'.grows, fun fl hfl hb => ?_⟩
  rcases h.waits fl hfl hb with hin | hlt
  · rcases Nat.eq_or_lt_of_le h.grows with he | hlt
    · rcases h'.waits fl hin (by omega) with hin' | hlt'
      · exact Or.inl hin'
      · exact Or.inr (by omega)
    · exact Or.inr (Nat.lt_of_lt_of_le hlt h'.grows)
  · exact Or.inr (Nat.lt_of_lt_of_le hlt h'.grows)

section Inv
variable {sha : Bytes → Hash} {w : Wanted} {window : Nat} {env : Env} {folder : CString 63}
  {data : Bytes} {r len c₀ : Nat} {s t : Parties}

theorem TransferInv.active_or (h : TransferInv sha w window folder data r len c₀ s) :
    (s.d.phase = .active ∧ ∃ c, DownloadInv sha w window r c s.d ∧ Drained c s.d) ∨
      (s.d.phase = .finalized ∧ s.d.inflight = [] ∧ s.requests = [] ∧ s.responses = []) := by
  rcases h.ok with habort | hact | ⟨hfin, hinv⟩
  · exact absurd habort h.alive
  · exact Or.inl hact
  · obtain ⟨asked, answered, hperm, hreq, hrsp⟩ := h.flight
    have hquiet := quiet_of_whole hinv
    rw [hquiet] at hperm
    obtain ⟨rfl, rfl⟩ := List.append_eq_nil_iff.mp hperm.nil_eq.symm
    exact Or.inr ⟨hfin, hquiet, hreq, hrsp⟩

variable (sha folder) in
/-- **A turn.** -/
theorem inv_turn (h : TransferInv sha w window folder data r len c₀ s) {now : Int}
    (ht : now - s.d.lastProgress ≤ wkStallSecs)
    (hlim : (s.d.progress w window now).nextReqId < 2 ^ 31) :
    TransferInv sha w window folder data r len c₀ { s with
        d := s.d.progress w window now
        requests := s.requests ++ sent w folder s.d (s.d.progress w window now) } ∧
      Advances r s { s with
        d := s.d.progress w window now
        requests := s.requests ++ sent w folder s.d (s.d.progress w window now) } := by
  have hok := progress_ok now h.ok
  have hkeep := progress_keeps w window now s.d
  -- the Requests that were out still are, and the new ones are on their way
  have hflight : ∀ l, (s.d.progress w window now).inflight = s.d.inflight ++ l →
      InFlight w folder data { s with
        d := s.d.progress w window now
        requests := s.requests ++ sent w folder s.d (s.d.progress w window now) } := by
    intro l hl
    obtain ⟨asked, answered, hperm, hreq, hrsp⟩ := h.flight
    refine ⟨asked ++ l, answered, ?_, ?_, hrsp⟩
    · dsimp only
      rw [hl]
      refine (hperm.append_right l).trans ?_
      rw [List.append_assoc, List.append_assoc]
      exact List.perm_append_comm.append_left asked
    · dsimp only
      rw [sent_eq, hl, List.drop_left, hreq, List.map_append]
  have hwaits : ∀ l, (s.d.progress w window now).inflight = s.d.inflight ++ l →
      ∀ fl ∈ s.d.inflight, fl ∈ (s.d.progress w window now).inflight := by
    intro l hl fl hfl
    rw [hl]
    exact List.mem_append_left l hfl
  obtain ⟨l, hl, hids, htemp, hphase⟩ : ∃ l,
      (s.d.progress w window now).inflight = s.d.inflight ++ l ∧
      IdsOk (s.d.progress w window now) ∧ (s.d.progress w window now).temp = s.d.temp ∧
      (s.d.progress w window now).phase ≠ .aborted := by
    unfold Download.progress
    split
    · exact ⟨[], by simp, h.ids, rfl, h.alive⟩
    · rename_i hact
      rw [if_neg (by omega)]
      split
      · exact ⟨[], by simp, idsOk_congr h.ids rfl rfl, rfl, by simp⟩
      · have hasks := fillWindow_asks (w := w) (window - s.d.inflight.length) h.ids
        obtain ⟨l, hl⟩ := (fillWindow_keeps (w := w) (window - s.d.inflight.length) s.d).1
        obtain ⟨c, hinv, -⟩ := h.ok.active (not_not.mp hact)
        have hwin := hinv.windowed
        have hph := (fillWindow_inv (window - s.d.inflight.length) hinv (by omega)).2.1
        exact ⟨l, hl.symm, hasks.1, hasks.2.1, by rw [hph, not_not.mp hact]; simp⟩
  refine ⟨⟨hok, hphase, hids, hlim, hflight l hl, ?_⟩, ?_, fun fl hfl _ => Or.inl (hwaits l hl fl hfl)⟩
  · dsimp only
    rw [hkeep.2.2]
    refine ⟨fun i hi hic => ?_, fun x hx => h.holds.held x (hkeep.1 ▸ hx), ?_⟩
    · rw [htemp]
      exact h.holds.written i hi hic
    · rw [htemp]
      exact h.holds.within
  · exact Nat.le_of_eq (congrArg List.length hkeep.2.2).symm

variable (hw : w.Consistent) (hs : Serves sha env w folder data)
include hw hs

/-- **The peer.** Its answer takes the place of the Request. -/
theorem inv_serve (h : TransferInv sha w window folder data r len c₀ s) {k : Nat}
    {reads : Nat → Option Nat} (hreads : ∀ k, (reads k).isSome)
    (hstep : step sha w window env folder s (.serve k reads) = some t) :
    TransferInv sha w window folder data r len c₀ t ∧ Advances r s t := by
  obtain ⟨body, hbody, hstep⟩ := Option.bind_eq_some_iff.mp hstep
  obtain ⟨rs, hrs, hstep⟩ := Option.bind_eq_some_iff.mp hstep
  obtain ⟨out, hout, rfl⟩ := Option.map_eq_some_iff.mp hstep
  rcases h.active_or with ⟨hact, c, hinv, hd⟩ | ⟨-, -, hreq, -⟩
  · obtain ⟨asked, answered, hperm, hreq, hrsp⟩ := h.flight
    rw [hreq, List.getElem?_map, Option.map_eq_some_iff] at hbody
    obtain ⟨fl, hfl, rfl⟩ := hbody
    have hmem : fl ∈ s.d.inflight :=
      hperm.mem_iff.mpr (List.mem_append_left _ (List.mem_of_getElem? hfl))
    have hlt : fl.block < w.numBlocks :=
      Nat.lt_of_lt_of_le (hinv.one.mem_out (List.mem_map_of_mem hmem)).2 hinv.next
    rw [serve_question hw hs hlt hreads] at hrs
    obtain rfl := Option.some.inj hrs
    rw [encodeResponse_eq] at hout
    split at hout
    · obtain rfl := Option.some.inj hout
      obtain ⟨hk, hget⟩ := List.getElem?_eq_some_iff.mp hfl
      refine ⟨⟨h.ok, h.alive, h.ids, h.limit, ?_, h.holds⟩, ⟨Nat.le_refl _, fun _ hx _ => Or.inl hx⟩⟩
      refine ⟨asked.eraseIdx k, answered ++ [fl], ?_, ?_, ?_⟩
      · refine hperm.trans ?_
        have hcut := (List.getElem_cons_eraseIdx_perm hk).symm
        rw [hget] at hcut
        refine (hcut.append_right answered).trans ?_
        rw [List.cons_append, ← List.append_assoc]
        exact List.perm_append_singleton fl (asked.eraseIdx k ++ answered) |>.symm
      · dsimp only
        rw [hreq, List.eraseIdx_map]
      · dsimp only
        rw [hrsp, List.map_append]
        rfl
    · simp at hout
  · rw [hreq] at hbody
    simp at hbody

/-- **An answer arrives.** -/
theorem inv_deliver (h : TransferInv sha w window folder data r len c₀ s) {k : Nat} {memory : Bool}
    {now : Int} (hstep : step sha w window env folder s (.deliver k memory now) = some t) :
    TransferInv sha w window folder data r len c₀ t ∧ Advances r s t := by
  obtain ⟨body, hbody, rfl⟩ := Option.map_eq_some_iff.mp hstep
  rcases h.active_or with ⟨hact, c, hinv, hd⟩ | ⟨-, -, -, hrsp⟩
  · obtain ⟨asked, answered, hperm, hreq, hrsp⟩ := h.flight
    rw [hrsp, List.getElem?_map, Option.map_eq_some_iff] at hbody
    obtain ⟨fl, hfl, rfl⟩ := hbody
    obtain ⟨hk, hget⟩ := List.getElem?_eq_some_iff.mp hfl
    have hmem : fl ∈ s.d.inflight :=
      hperm.mem_iff.mpr (List.mem_append_right _ (List.mem_of_getElem? hfl))
    have hlt : fl.block < w.numBlocks :=
      Nat.lt_of_lt_of_le (hinv.one.mem_out (List.mem_map_of_mem hmem)).2 hinv.next
    obtain ⟨hlen, hhash⟩ := content_ok hw hs fl.block hlt
    -- the body decodes to the block under the id of its Request
    have hheard : (decodeResponse (answer w data fl)).map heard =
        some ⟨fl.id, 0, w.blockAt data fl.block⟩ := by
      have hid := h.ids.bound fl hmem
      have hlim := h.limit
      have hfits := length_answer hw hs hlt
      have hmax : bepMsgMax = 1114112 := by decide
      rw [answer] at hfits
      rw [answer, decodeResponse_bytes (by omega), Option.map_some, heard]
      simp only [reply, bepErrNone]
      rw [Int32.toInt_ofNat_of_lt (by omega), Int.toNat_natCast]
      rfl
    obtain ⟨rest, hrest, heq⟩ := handleResponse_eq memory now h.ids hact hmem hlen hhash
    obtain ⟨hok, hphase⟩ := accept_ok hw memory diskGrants now hinv hd hact hrest hlen hhash
    have hcur := cursor_eq hinv
    have hacc := accepted hw c₀ now memory hinv (hcur ▸ h.holds) hrest hlen hhash
    rw [hheard, heq]
    refine ⟨⟨hok, by rw [hphase fun _ => rfl]; simp, ?_, ?_, ?_, hacc.holds⟩, ⟨hacc.grows, ?_⟩⟩
    · exact idsOk_congr (idsOk_rest h.ids hrest) hacc.inflight hacc.reqId
    · dsimp only
      rw [hacc.reqId]
      exact h.limit
    · refine ⟨asked, answered.eraseIdx k, ?_, hreq, ?_⟩
      · dsimp only
        rw [hacc.inflight]
        have hcut := (List.getElem_cons_eraseIdx_perm hk).symm
        rw [hget] at hcut
        have hboth := hrest.symm.trans (hperm.trans (hcut.append_left asked))
        exact (hboth.trans List.perm_middle).cons_inv
      · dsimp only
        rw [hrsp, List.eraseIdx_map]
    · intro fl' hfl' hb
      by_cases he : fl' = fl
      · exact Or.inr (hacc.turn (he ▸ hb))
      · left
        dsimp only
        rw [hacc.inflight]
        exact (List.mem_cons.mp (hrest.mem_iff.mp hfl')).resolve_left he
  · rw [hrsp] at hbody
    simp at hbody

/-- **Step.** -/
theorem inv_step (h : TransferInv sha w window folder data r len c₀ s) {e : TransferEvent}
    (he : Sound w window s e) (hstep : step sha w window env folder s e = some t) :
    TransferInv sha w window folder data r len c₀ t ∧ Advances r s t := by
  cases e with
  | turn now =>
    obtain rfl := Option.some.inj hstep
    exact inv_turn sha folder h he.1 he.2
  | serve k reads => exact inv_serve hw hs h he hstep
  | deliver k memory now => exact inv_deliver hw hs h hstep

/-- **Run.** -/
theorem inv_run (h : TransferInv sha w window folder data r len c₀ s) {es : List TransferEvent}
    (hes : Machine.Along (step sha w window env folder) (Sound w window) s es)
    (hrun : Machine.run (step sha w window env folder) s es = some t) :
    TransferInv sha w window folder data r len c₀ t ∧ Advances r s t := by
  refine Machine.run_inv_along (I := fun u => TransferInv sha w window folder data r len c₀ u ∧
    Advances r s u) ?_ hes hrun ⟨h, Advances.refl r s⟩
  rintro u e v ⟨hu, hsu⟩ he huv
  obtain ⟨hv, huv⟩ := inv_step hw hs hu he huv
  exact ⟨hv, hsu.trans huv⟩

/-! ## Nothing is stuck -/

end Inv

/-! ## Rounds -/

section Rounds
variable (sha : Bytes → Hash) (w : Wanted) (window : Nat) (env : Env) (folder : CString 63)

end Rounds

section Progress
variable {sha : Bytes → Hash} {w : Wanted} {window : Nat} {env : Env} {folder : CString 63}
  {data : Bytes} {r len c₀ : Nat} {s t : Parties}

variable (hw : w.Consistent) (hs : Serves sha env w folder data)
include hw hs

end Progress

/-! ## From the start -/

/-- `start_download`, with nothing in flight yet. -/
def begun (sha : Bytes → Hash) (w : Wanted) (reopen : Bool) (existing : Option Bytes)
    (read : Nat → Option Bytes) (io : Nat → WriteAnswer) (now : Int) (reqId : Nat) : Parties :=
  ⟨startDownload sha w reopen existing read io now reqId, [], []⟩

section Main
variable {sha : Bytes → Hash} {w : Wanted} {window : Nat} {folder : CString 63} {data : Bytes}
  {r len c₀ : Nat} {t : Parties}

/-- What the temporary file holds of the peer's file when the cursor is at `c`. -/
theorem TransferInv.written (h : TransferInv sha w window folder data r len c₀ t)
    (hw : w.Consistent) (hlen : (data.length : Int) = w.fi.size) :
    (∃ c, c ≤ w.numBlocks ∧ c = r + t.d.writes.length ∧ (t.d.phase = .finalized → c = w.numBlocks) ∧
      ∀ b, c₀ ≤ b → b < c → w.blockAt t.d.temp b = w.blockAt data b) ∧
    (t.d.phase = .finalized → c₀ = 0 → len ≤ data.length → t.d.temp = data) := by
  have hcursor : ∃ c, DownloadInv sha w window r c t.d ∧ (t.d.phase = .finalized → c = w.numBlocks) := by
    rcases h.ok with habort | ⟨hact, c, hinv, -⟩ | ⟨-, hinv⟩
    · exact absurd habort h.alive
    · exact ⟨c, hinv, fun hfin => absurd (hact.symm.trans hfin) (by simp)⟩
    · exact ⟨w.numBlocks, hinv, fun _ => rfl⟩
  obtain ⟨c, hinv, hfin⟩ := hcursor
  have hcur := cursor_eq hinv
  refine ⟨⟨c, hinv.cursor_le, hcur, hfin, fun b hb hbc => h.holds.written b hb (hcur ▸ hbc)⟩, ?_⟩
  intro hf h0 hle
  have hwithin := h.holds.within
  refine eq_of_blocks hw hlen (by omega) fun b hb => h.holds.written b (by omega) ?_
  rw [← hcur, hfin hf]
  exact hb

end Main

end Amisync.Transfer

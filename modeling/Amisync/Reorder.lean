import Amisync.Download

/-!
# Answers out of order (`worker.c`)

A download whose peer answers every Request, correctly and once each, in an
order of its own. A block that comes early is held, and the place it frees in
the window takes a fresh Request, so early blocks can get further ahead than
the window is wide.

* `Dialogue`: the download with the blocks it has sent Requests for.
* `Heard`, `Flow`: the state after an answer, and after the window is refilled.
* `heard_hear`: while a place is free to hold a block, an answer costs nothing.
* `hold_back`: with two places in the window, the peer can hold the first block
  back until every place is taken.
* `asked_once_iff`: no block is asked for twice, in any order, exactly when the
  window is of one Request or no more than `WK_WINDOW` blocks are missing.
-/

namespace Amisync.Reorder

/-! ## The dialogue -/

/-- A disk that takes every write. -/
def diskGrants : Nat → WriteAnswer := fun _ => .granted

/-- The download and the blocks that were asked for, in order. -/
structure Dialogue where
  d : Download
  asked : List Nat

/-- `progress`; the Requests it sends are the new ones in the window. -/
def proceed (w : Wanted) (window : Nat) (now : Int) (s : Dialogue) : Dialogue where
  d := s.d.progress w window now
  asked := s.asked ++
    ((s.d.progress w window now).inflight.drop s.d.inflight.length).map Inflight.block

/-- The correct answer to the Request `fl`, with memory to hold it. -/
def hear (sha : Bytes → Hash) (w : Wanted) (content : Nat → Bytes) (now : Int) (d : Download)
    (fl : Inflight) : Download :=
  d.handleResponse sha w true diskGrants now (some ⟨fl.id, 0, content fl.block⟩)

/-- `start_download`, and the Requests that go out with it. -/
def opening (sha : Bytes → Hash) (w : Wanted) (window : Nat) (reopen : Bool)
    (existing : Option Bytes) (read : Nat → Option Bytes) (io : Nat → WriteAnswer) (now : Int)
    (reqId : Nat) : Dialogue :=
  proceed w window now ⟨Amisync.startDownload sha w reopen existing read io now reqId, []⟩

/-- `n` answers, each to any Request that is out, and the window refilled after each. The
answers come before the download is given up as stalled. -/
inductive Turns (sha : Bytes → Hash) (w : Wanted) (window : Nat) (content : Nat → Bytes)
    (s₀ : Dialogue) : Nat → Dialogue → Prop where
  | start : Turns sha w window content s₀ 0 s₀
  | answer {n : Nat} {s : Dialogue} (fl : Inflight) (now : Int)
      (h : Turns sha w window content s₀ n s) (hfl : fl ∈ s.d.inflight)
      (ht : now - (hear sha w content now s.d fl).lastProgress ≤ wkStallSecs) :
      Turns sha w window content s₀ (n + 1)
        (proceed w window now { s with d := hear sha w content now s.d fl })

/-- What the peer sends is what it announced. -/
def Content (sha : Bytes → Hash) (w : Wanted) (content : Nat → Bytes) : Prop :=
  ∀ b < w.numBlocks, ((content b).length : Int) = (dlBlockSpan w b).2 ∧
    w.hashes[b]? = some (sha (content b))

/-! ## What the handlers leave alone -/

section Frame
variable {w : Wanted} {io : Nat → WriteAnswer} {now : Int}

/-- The window, the list of blocks to ask for again and the counters. -/
structure SameWindow (d d' : Download) : Prop where
  inflight : d'.inflight = d.inflight
  redo : d'.redo = d.redo
  next : d'.nextBlock = d.nextBlock
  reqId : d'.nextReqId = d.nextReqId
  writes : d.writes.length ≤ d'.writes.length

theorem sameWindow_wrote (d : Download) (b : Nat) (t : Bytes) : SameWindow d (d.wrote now b t) :=
  ⟨rfl, rfl, rfl, rfl, by simp [Download.wrote]⟩

theorem SameWindow.trans {d₁ d₂ d₃ : Download} (h₁ : SameWindow d₁ d₂) (h₂ : SameWindow d₂ d₃) :
    SameWindow d₁ d₃ :=
  ⟨h₂.inflight.trans h₁.inflight, h₂.redo.trans h₁.redo, h₂.next.trans h₁.next,
    h₂.reqId.trans h₁.reqId, Nat.le_trans h₁.writes h₂.writes⟩

theorem sameWindow_stageFlush (fuel : Nat) (d : Download) (next : Nat) :
    SameWindow d (d.stageFlush w io now fuel next) := by
  induction fuel generalizing d next with
  | zero => exact ⟨rfl, rfl, rfl, rfl, Nat.le_refl _⟩
  | succ fuel ih =>
    rw [Download.stageFlush]
    split
    · exact ⟨rfl, rfl, rfl, rfl, Nat.le_refl _⟩
    · split
      · refine SameWindow.trans ?_ (ih _ _)
        exact ⟨rfl, rfl, rfl, rfl, by simp [Download.wrote]⟩
      · exact ⟨rfl, rfl, rfl, rfl, Nat.le_refl _⟩

/-- The download before its first Request. -/
structure Fresh (now : Int) (reqId : Nat) (d : Download) : Prop where
  phase : d.phase = .active
  inflight : d.inflight = []
  redo : d.redo = []
  stage : d.stage = []
  reqId : d.nextReqId = reqId
  progress : d.lastProgress = now

theorem fresh_localPrefill {sha : Bytes → Hash} {read : Nat → Option Bytes} {start : Int} {reqId : Nat}
    (fuel : Nat) {d : Download} (h : Fresh start reqId d) :
    Fresh start reqId (localPrefill sha w read io now fuel d) := by
  induction fuel generalizing d with
  | zero => exact h
  | succ fuel ih =>
    rw [localPrefill]
    split
    · exact h
    · split
      · split
        · exact ih ⟨h.phase, h.inflight, h.redo, h.stage, h.reqId, h.progress⟩
        · exact ⟨h.phase, h.inflight, h.redo, h.stage, h.reqId, h.progress⟩
      · exact h

theorem fresh_startDownload (sha : Bytes → Hash) (w : Wanted) (reopen : Bool)
    (existing : Option Bytes) (read : Nat → Option Bytes) (io : Nat → WriteAnswer) (now : Int)
    (reqId : Nat) :
    Fresh now reqId (Amisync.startDownload sha w reopen existing read io now reqId) :=
  fresh_localPrefill _ ⟨rfl, rfl, rfl, rfl, rfl, rfl⟩

end Frame

/-! ## Request ids -/

/-- No two Requests that are out share an id. -/
structure IdsOk (d : Download) : Prop where
  nodup : (d.inflight.map Inflight.id).Nodup
  bound : ∀ fl ∈ d.inflight, fl.id ≤ d.nextReqId

theorem idsOk_send {d : Download} (h : IdsOk d) (block retries : Nat) :
    IdsOk (d.sendBlockRequest block retries) := by
  constructor
  · rw [Download.sendBlockRequest, List.map_append, List.nodup_append]
    refine ⟨h.nodup, by simp, ?_⟩
    intro x hx y hy
    obtain ⟨fl, hfl, rfl⟩ := List.mem_map.mp hx
    have hb := h.bound fl hfl
    simp only [List.map_cons, List.map_nil, List.mem_singleton] at hy
    omega
  · intro fl hfl
    rcases List.mem_append.mp hfl with hfl | hfl
    · exact Nat.le_succ_of_le (h.bound fl hfl)
    · rw [List.mem_singleton.mp hfl]
      exact Nat.le_refl _

theorem idsOk_congr {d d' : Download} (h : IdsOk d) (hi : d'.inflight = d.inflight)
    (hr : d'.nextReqId = d.nextReqId) : IdsOk d' :=
  ⟨by rw [hi]; exact h.nodup, by rw [hi, hr]; exact h.bound⟩

theorem idsOk_rest {d : Download} (h : IdsOk d) {fl : Inflight} {rest : List Inflight}
    (hperm : d.inflight.Perm (fl :: rest)) : IdsOk { d with inflight := rest } := by
  constructor
  · have hn := (hperm.map Inflight.id).nodup_iff.mp h.nodup
    exact (List.nodup_cons.mp hn).2
  · intro x hx
    exact h.bound x (hperm.mem_iff.mpr (List.mem_cons_of_mem _ hx))

/-- The answer to a Request that is out finds that Request. -/
theorem hear_eq {sha : Bytes → Hash} {w : Wanted} (content : Nat → Bytes) (now : Int) {d : Download}
    {fl : Inflight} (hids : IdsOk d) (hact : d.phase = .active) (hfl : fl ∈ d.inflight)
    (hlen : ((content fl.block).length : Int) = (dlBlockSpan w fl.block).2)
    (hhash : w.hashes[fl.block]? = some (sha (content fl.block))) :
    ∃ rest, d.inflight.Perm (fl :: rest) ∧ hear sha w content now d fl =
      { d with inflight := rest }.accept w true diskGrants now fl (content fl.block) := by
  unfold hear Download.handleResponse
  dsimp only
  rw [if_neg (not_not.mpr hact)]
  cases hf : d.inflight.findIdx? (fun x => x.id = fl.id) with
  | none =>
    have hnone := List.findIdx?_eq_none_iff.mp hf fl hfl
    simp at hnone
  | some slot =>
    obtain ⟨hlt, hid, -⟩ := List.findIdx?_eq_some_iff_getElem.mp hf
    have hget : d.inflight[slot]? = some fl := by
      rw [List.getElem?_eq_getElem hlt, Option.some.injEq]
      exact List.inj_on_of_nodup_map hids.nodup (List.getElem_mem hlt) hfl (by simpa using hid)
    refine ⟨_, Keyed.perm_cons_swapRemove hget, ?_⟩
    dsimp only
    rw [hget]
    dsimp only
    rw [if_neg (by decide), if_pos ⟨hlen, hhash⟩]

/-! ## Where the blocks are -/

section Classes
variable {c next : Nat} {held out again : List Nat}

/-- The blocks between the cursor and the next fresh one are held, out or to be asked for again. -/
theorem perm_of_classes (h : Classes c held out again next) :
    (held ++ out ++ again).Perm (List.range' c (next - c)) := by
  have hle := h.le_next
  rw [List.perm_iff_count]
  intro i
  have hi := h i
  have hmem : i ∈ List.range' c (next - c) ↔ c ≤ i ∧ i < c + (next - c) := List.mem_range'_1
  rw [List.count_append, List.count_append, List.Nodup.count (List.nodup_range' (h := by decide))]
  by_cases hm : i ∈ List.range' c (next - c)
  · rw [if_pos hm]
    rw [hmem] at hm
    rw [if_neg (by omega), if_neg (by omega)] at hi
    omega
  · rw [if_neg hm]
    rw [hmem] at hm
    split at hi <;> split at hi <;> omega

theorem length_of_classes (h : Classes c held out again next) :
    held.length + out.length + again.length = next - c := by
  have hlen := (perm_of_classes h).length_eq
  rwa [List.length_append, List.length_append, List.length_range'] at hlen

end Classes

/-! ## The invariant -/

section Inv
variable (sha : Bytes → Hash) (w : Wanted) (window r c₀ : Nat)

/-- After `n` answers, with the window not yet refilled. Transfer began at block `c₀`. -/
structure Heard (n : Nat) (s : Dialogue) : Prop where
  active : s.d.phase = .active
  inv : ∃ c, DownloadInv sha w window r c s.d ∧ Drained c s.d
  ids : IdsOk s.d
  noRedo : s.d.redo = []
  asked : s.asked = List.range' c₀ (s.d.nextBlock - c₀)
  start : c₀ ≤ r + s.d.writes.length
  count : n + s.d.inflight.length + c₀ = s.d.nextBlock

/-- The window is full, or there is nothing more to ask for; some block is missing. -/
structure Flow (n : Nat) (s : Dialogue) : Prop extends Heard sha w window r c₀ n s where
  full : s.d.inflight.length = window ∨ s.d.nextBlock = w.numBlocks
  more : n + c₀ < w.numBlocks

/-- The file is whole. -/
structure Done (s : Dialogue) : Prop where
  finalized : s.d.phase = .finalized
  asked : s.asked = List.range' c₀ (w.numBlocks - c₀)
  quiet : s.d.inflight = []

end Inv

section Steps
variable {sha : Bytes → Hash} {w : Wanted} {window r c₀ n : Nat} {s : Dialogue}

theorem cursor_eq {c : Nat} {d : Download} (h : DownloadInv sha w window r c d) :
    c = r + d.writes.length := by
  have hs := h.start
  rw [h.once, List.length_range']
  omega

theorem Heard.cursor (h : Heard sha w window r c₀ n s) {c : Nat}
    (hinv : DownloadInv sha w window r c s.d) : c₀ ≤ c := by
  rw [cursor_eq hinv]
  exact h.start

/-- **Refill.** With nothing to ask for again, the Requests are for fresh blocks in order. -/
theorem fillWindow_fresh (room : Nat) {d : Download} (hr : d.redo = []) (hids : IdsOk d)
    (hn : d.nextBlock ≤ w.numBlocks) :
    (∃ l, (d.fillWindow w room).inflight = d.inflight ++ l ∧
        l.map Inflight.block = List.range' d.nextBlock (min room (w.numBlocks - d.nextBlock))) ∧
      (d.fillWindow w room).nextBlock = d.nextBlock + min room (w.numBlocks - d.nextBlock) ∧
      (d.fillWindow w room).redo = [] ∧ IdsOk (d.fillWindow w room) ∧
      (d.fillWindow w room).writes = d.writes ∧
      (d.fillWindow w room).lastProgress = d.lastProgress := by
  induction room generalizing d with
  | zero => exact ⟨⟨[], by simp [Download.fillWindow], by simp⟩, by simp [Download.fillWindow], hr, hids, rfl, rfl⟩
  | succ room ih =>
    rw [Download.fillWindow, hr]
    dsimp only
    by_cases hlt : d.nextBlock < w.numBlocks
    · rw [if_pos hlt]
      have hids' := idsOk_send hids d.nextBlock 0
      have hmin : min (room + 1) (w.numBlocks - d.nextBlock) =
          min room (w.numBlocks - (d.nextBlock + 1)) + 1 := by omega
      obtain ⟨⟨l, hl, hb⟩, hnext, hredo, hok, hw, hp⟩ :=
        ih (d := { d.sendBlockRequest d.nextBlock 0 with nextBlock := d.nextBlock + 1 }) hr
          (idsOk_congr hids' rfl rfl) hlt
      refine ⟨⟨⟨d.nextBlock, d.nextReqId + 1, 0⟩ :: l, ?_, ?_⟩, ?_, hredo, hok, hw, hp⟩
      · rw [hl]
        simp [Download.sendBlockRequest]
      · rw [List.map_cons, hb, hmin, List.range'_succ]
      · rw [hnext, hmin]
        show d.nextBlock + 1 + min room (w.numBlocks - (d.nextBlock + 1)) = _
        omega
    · rw [if_neg hlt]
      have hz : min (room + 1) (w.numBlocks - d.nextBlock) = 0 := by omega
      exact ⟨⟨[], by simp, by rw [hz]; rfl⟩, by rw [hz]; rfl, hr, hids, rfl, rfl⟩

/-- With nothing out and nothing fresh, no block is missing. -/
theorem complete_of_quiet (h : Heard sha w window r c₀ n s) (hi : s.d.inflight = [])
    (hn : s.d.nextBlock = w.numBlocks) : s.d.complete w = true := by
  obtain ⟨c, hinv, hd⟩ := h.inv
  have hc : ¬ c < s.d.nextBlock := by
    intro hlt
    have hone := hinv.one c
    rw [hi, h.noRedo, if_neg (Nat.lt_irrefl c), if_neg (Nat.not_le.mpr hlt)] at hone
    have hmem : c ∈ s.d.stage.map Held.block := List.count_pos_iff.mp (by simp at hone; omega)
    obtain ⟨x, hx, hxc⟩ := List.mem_map.mp hmem
    exact hd x hx hxc
  have hlen := length_of_classes hinv.one
  have hstage : s.d.stage = [] := by
    refine List.length_eq_zero_iff.mp ?_
    rw [List.length_map] at hlen
    omega
  simp [Download.complete, hi, h.noRedo, hstage, hn]

theorem progress_active (h : Heard sha w window r c₀ n s) {now : Int}
    (ht : now - s.d.lastProgress ≤ wkStallSecs) :
    s.d.progress w window now = if s.d.complete w then { s.d with phase := .finalized }
      else s.d.fillWindow w (window - s.d.inflight.length) := by
  rw [Download.progress, if_neg (not_not.mpr h.active), if_neg (by omega)]

/-- The last block has been written. -/
theorem Heard.finish (h : Heard sha w window r c₀ n s) {now : Int}
    (ht : now - s.d.lastProgress ≤ wkStallSecs) (hc : s.d.complete w = true) :
    Done w c₀ (proceed w window now s) ∧ n + c₀ = w.numBlocks := by
  obtain ⟨c, hinv, -⟩ := h.inv
  have hcount := h.count
  have hprog := progress_active h ht
  rw [if_pos hc] at hprog
  simp only [Download.complete, Bool.and_eq_true, decide_eq_true_eq, List.isEmpty_iff] at hc
  obtain ⟨⟨⟨hn, hi⟩, -⟩, -⟩ := hc
  have hnext : s.d.nextBlock = w.numBlocks := Nat.le_antisymm hinv.next hn
  refine ⟨⟨?_, ?_, ?_⟩, ?_⟩
  · rw [Reorder.proceed, hprog]
  · rw [Reorder.proceed, hprog]
    simp only [List.drop_length, List.map_nil, List.append_nil]
    rw [h.asked, hnext]
  · rw [Reorder.proceed, hprog]
    exact hi
  · rw [hi] at hcount
    simp only [List.length_nil] at hcount
    omega

/-- The window is filled again. -/
theorem Heard.refill (h : Heard sha w window r c₀ n s) {now : Int}
    (ht : now - s.d.lastProgress ≤ wkStallSecs) (hc : s.d.complete w ≠ true) :
    Flow sha w window r c₀ n (proceed w window now s) := by
  obtain ⟨c, hinv, hd⟩ := h.inv
  have hcount := h.count
  have hprog := progress_active h ht
  rw [if_neg hc] at hprog
  have hwin := hinv.windowed
  obtain ⟨⟨l, hl, hb⟩, hnext, hredo, hids, hw, -⟩ :=
    fillWindow_fresh (window - s.d.inflight.length) h.noRedo h.ids hinv.next
  obtain ⟨hinv', hphase, hstage⟩ := fillWindow_inv (window - s.d.inflight.length) hinv (by omega)
  have hlen : l.length = min (window - s.d.inflight.length) (w.numBlocks - s.d.nextBlock) := by
    have := congrArg List.length hb
    rwa [List.length_map, List.length_range'] at this
  have hnle := hinv.next
  constructor
  · refine ⟨?_, ⟨c, ?_, ?_⟩, ?_, ?_, ?_, ?_, ?_⟩
    all_goals rw [Reorder.proceed, hprog]
    · exact hphase.trans h.active
    · exact hinv'
    · unfold Drained
      rw [hstage]
      exact hd
    · exact hids
    · exact hredo
    · dsimp only
      rw [hl, List.drop_left, hb, h.asked, hnext]
      have hsum : s.d.nextBlock = c₀ + (s.d.nextBlock - c₀) := by omega
      have happ := List.range'_append_1 (s := c₀) (m := s.d.nextBlock - c₀)
        (n := min (window - s.d.inflight.length) (w.numBlocks - s.d.nextBlock))
      rw [← hsum] at happ
      rw [happ]
      congr 1
      omega
    · rw [hw]
      exact h.start
    · dsimp only
      rw [hl, hnext, List.length_append]
      omega
  · rw [Reorder.proceed, hprog]
    dsimp only
    rw [hl, hnext, List.length_append]
    omega
  · by_contra hno
    refine hc (complete_of_quiet h ?_ ?_)
    · refine List.length_eq_zero_iff.mp ?_
      omega
    · omega

/-- **Refilling.** -/
theorem Heard.proceed (h : Heard sha w window r c₀ n s) {now : Int}
    (ht : now - s.d.lastProgress ≤ wkStallSecs) :
    Flow sha w window r c₀ n (proceed w window now s) ∨
      (Done w c₀ (Reorder.proceed w window now s) ∧ n + c₀ = w.numBlocks) := by
  by_cases hc : s.d.complete w = true
  · exact Or.inr (h.finish ht hc)
  · exact Or.inl (h.refill ht hc)

/-- An answer that is written, or for which a place is free, changes nothing of the window. -/
theorem sameWindow_accept {io : Nat → WriteAnswer} {now : Int} {d : Download} {fl : Inflight}
    {data : Bytes} (h : d.stage.length < wkStage ∨
      (folderRecvWrite (io fl.block) d.temp (dlBlockSpan w fl.block).1 data).1 ≠ .ahead) :
    SameWindow d (d.accept w true io now fl data) := by
  unfold Download.accept
  split
  · exact (sameWindow_wrote d _ _).trans (sameWindow_stageFlush _ _ _)
  · rename_i t he
    have hroom : d.stage.length < wkStage := by
      rcases h with h | h
      · exact h
      · exact absurd (by rw [he]) h
    rw [Download.stagePut, if_pos ⟨hroom, rfl⟩]
    exact ⟨rfl, rfl, rfl, rfl, Nat.le_refl _⟩
  · exact ⟨rfl, rfl, rfl, rfl, Nat.le_refl _⟩

/-- A block ahead of its turn finds a place while the blocks are few or the window is one. -/
theorem room_to_hold (h : Heard sha w window r c₀ n s) {c : Nat}
    (hinv : DownloadInv sha w window r c s.d) (hd : Drained c s.d) {fl : Inflight}
    {rest : List Inflight} (hperm : s.d.inflight.Perm (fl :: rest)) (hahead : c < fl.block)
    (hfew : window = 1 ∨ w.numBlocks ≤ c₀ + wkWindow) : s.d.stage.length < wkStage := by
  have hlen := length_of_classes hinv.one
  have hflen := hperm.length_eq
  have hmem := hinv.one.mem_out (List.mem_map_of_mem (hperm.mem_iff.mpr List.mem_cons_self))
  -- the block at the cursor is still out
  have hone := hinv.one c
  have hstage : (s.d.stage.map Held.block).count c = 0 := by
    refine List.count_eq_zero.mpr fun hm => ?_
    obtain ⟨x, hx, hxc⟩ := List.mem_map.mp hm
    exact hd x hx hxc
  rw [h.noRedo, hstage, if_neg (Nat.lt_irrefl c), if_neg (by omega)] at hone
  have hout : c ∈ s.d.inflight.map Inflight.block := List.count_pos_iff.mp (by simp at hone; omega)
  obtain ⟨x, hx, hxc⟩ := List.mem_map.mp hout
  have hrest : x ∈ rest := by
    rcases List.mem_cons.mp (hperm.mem_iff.mp hx) with rfl | hx
    · exact absurd hxc (Nat.ne_of_gt hahead)
    · exact hx
  have hpos := List.length_pos_of_mem hrest
  have hwin := hinv.windowed
  have hnext := hinv.next
  have hc := h.cursor hinv
  have hk : wkStage + 1 = wkWindow := rfl
  rw [List.length_map, List.length_map, List.length_map, h.noRedo, hflen] at hlen
  rw [hflen] at hwin
  simp only [List.length_cons, List.length_nil] at hlen hwin
  rcases hfew with h1 | hfew
  · omega
  · omega

/-- **An answer.** Where a block ahead of its turn finds a place, nothing is asked for again. -/
theorem heard_hear (hw : w.Consistent) {content : Nat → Bytes} (hcont : Content sha w content)
    (h : Heard sha w window r c₀ n s) {fl : Inflight} (hfl : fl ∈ s.d.inflight) (now : Int)
    (hroom : ∀ c, DownloadInv sha w window r c s.d → Drained c s.d → c < fl.block →
      s.d.stage.length < wkStage) :
    Heard sha w window r c₀ (n + 1) { s with d := hear sha w content now s.d fl } := by
  obtain ⟨c, hinv, hd⟩ := h.inv
  have hlt : fl.block < w.numBlocks :=
    Nat.lt_of_lt_of_le (hinv.one.mem_out (List.mem_map_of_mem hfl)).2 hinv.next
  obtain ⟨hlen, hhash⟩ := hcont fl.block hlt
  obtain ⟨rest, hperm, heq⟩ := hear_eq content now h.ids h.active hfl hlen hhash
  obtain ⟨-, -, hle, -⟩ := hinv.take hperm
  obtain ⟨hok, hact⟩ := accept_ok hw true diskGrants now hinv hd h.active hperm hlen hhash
  have hphase := hact fun _ => rfl
  have hsame : SameWindow { s.d with inflight := rest }
      ({ s.d with inflight := rest }.accept w true diskGrants now fl (content fl.block)) := by
    refine sameWindow_accept ?_
    rcases Nat.eq_or_lt_of_le hle with rfl | hahead
    · right
      rcases folderRecvWrite_cursor hw hinv.staged hlt (diskGrants fl.block) hlen with he | ⟨t, he, -⟩
      · simp [he]
      · simp [he]
    · exact Or.inl (hroom c hinv hd hahead)
  have hids := idsOk_rest h.ids hperm
  have hcount := h.count
  rw [hperm.length_eq, List.length_cons] at hcount
  constructor
  all_goals rw [heq]
  · exact hphase
  · exact hok.active hphase
  · exact idsOk_congr hids hsame.inflight hsame.reqId
  · exact hsame.redo.trans h.noRedo
  · rw [hsame.next]
    exact h.asked
  · exact Nat.le_trans h.start (Nat.add_le_add_left hsame.writes r)
  · rw [hsame.next, hsame.inflight]
    show n + 1 + rest.length + c₀ = s.d.nextBlock
    omega

end Steps

/-! ## Every order -/

section Runs
variable {sha : Bytes → Hash} {w : Wanted} (hw : w.Consistent) {window : Nat}
  {content : Nat → Bytes} (hcont : Content sha w content)

/-- What the peer's answers have to lead to: no block is asked for twice, each answer counts, and
after the last one the file is finished. -/
structure GoesThrough (w : Wanted) (c₀ n : Nat) (s : Dialogue) : Prop where
  once : s.asked.Nodup
  bounded : n + c₀ ≤ w.numBlocks
  ends : n + c₀ = w.numBlocks → s.d.phase = .finalized
  goesOn : n + c₀ < w.numBlocks → s.d.phase = .active ∧ s.d.inflight ≠ []

theorem Flow.goesThrough {r c₀ n : Nat} {s : Dialogue} (h : Flow sha w window r c₀ n s)
    (hwin : 1 ≤ window) : GoesThrough w c₀ n s where
  once := by
    rw [h.asked]
    exact List.nodup_range' (h := by decide)
  bounded := Nat.le_of_lt h.more
  ends := fun e => absurd h.more (by omega)
  goesOn := by
    intro hmore
    refine ⟨h.active, fun hi => ?_⟩
    have hcount := h.count
    rw [hi, List.length_nil] at hcount
    rcases h.full with hfull | hfull
    · rw [hi, List.length_nil] at hfull
      omega
    · omega

theorem Done.goesThrough {c₀ n : Nat} {s : Dialogue} (h : Done w c₀ s) (hn : n + c₀ = w.numBlocks) :
    GoesThrough w c₀ n s where
  once := by
    rw [h.asked]
    exact List.nodup_range' (h := by decide)
  bounded := Nat.le_of_eq hn
  ends := fun _ => h.finalized
  goesOn := fun hlt => absurd hlt (by omega)

include hw

variable (sha window) in
/-- **The opening.** -/
theorem heard_opening (reopen : Bool) (existing : Option Bytes) (read : Nat → Option Bytes)
    (io : Nat → WriteAnswer) (now : Int) (reqId : Nat) :
    ∃ r, Heard sha w window r (Amisync.startDownload sha w reopen existing read io now reqId).nextBlock 0
      ⟨Amisync.startDownload sha w reopen existing read io now reqId, []⟩ ∧
      DownloadInv sha w window r
        (Amisync.startDownload sha w reopen existing read io now reqId).nextBlock
        (Amisync.startDownload sha w reopen existing read io now reqId) := by
  have hok : DownloadOk sha w window _ _ := startDownload_ok hw window reopen existing read io now reqId
  have hf := fresh_startDownload sha w reopen existing read io now reqId
  obtain ⟨c, hinv, hd⟩ := hok.active hf.phase
  have hlen := length_of_classes hinv.one
  rw [hf.inflight, hf.redo, hf.stage] at hlen
  simp only [List.map_nil, List.length_nil] at hlen
  have hle := hinv.one.le_next
  have hc : c = (Amisync.startDownload sha w reopen existing read io now reqId).nextBlock := by omega
  refine ⟨_, ⟨hf.phase, ⟨c, hinv, hd⟩, ⟨?_, ?_⟩, hf.redo, ?_, ?_, ?_⟩, hc ▸ hinv⟩
  · rw [hf.inflight]
    exact List.nodup_nil
  · rw [hf.inflight]
    exact fun x hx => absurd hx List.not_mem_nil
  · rw [Nat.sub_self]
    rfl
  · exact Nat.le_of_eq (hc.symm.trans (cursor_eq hinv))
  · simp [hf.inflight]

include hcont

/-- **Every order.** As long as a place is free for every early block, the run goes through. -/
theorem turns_ok {r c₀ n : Nat} {s₀ s : Dialogue} (hs₀ : Flow sha w window r c₀ 0 s₀ ∨
    (Done w c₀ s₀ ∧ 0 + c₀ = w.numBlocks)) (hfew : window = 1 ∨ w.numBlocks ≤ c₀ + wkWindow)
    (h : Turns sha w window content s₀ n s) :
    Flow sha w window r c₀ n s ∨ (Done w c₀ s ∧ n + c₀ = w.numBlocks) := by
  induction h with
  | start => exact hs₀
  | answer fl now _ hfl ht ih =>
    rcases ih with hflow | ⟨hdone, -⟩
    · refine Heard.proceed (heard_hear hw hcont hflow.toHeard hfl now ?_) ht
      intro c hinv hd hahead
      exact room_to_hold hflow.toHeard hinv hd (List.perm_cons_erase hfl) hahead hfew
    · rw [hdone.quiet] at hfl
      exact absurd hfl List.not_mem_nil

end Runs

/-! ## The first block held back -/

section HoldBack
variable {sha : Bytes → Hash} {w : Wanted} {window : Nat}

theorem fillWindow_keeps (room : Nat) (d : Download) :
    d.inflight <+: (d.fillWindow w room).inflight ∧ (d.fillWindow w room).stage = d.stage ∧
      (d.fillWindow w room).lastProgress = d.lastProgress ∧
      (d.fillWindow w room).writes = d.writes := by
  induction room generalizing d with
  | zero => exact ⟨List.prefix_rfl, rfl, rfl, rfl⟩
  | succ room ih =>
    rw [Download.fillWindow]
    split
    · rename_i fl redo _
      obtain ⟨hp, hrest⟩ := ih ({ d with redo := redo }.sendBlockRequest fl.block fl.retries)
      exact ⟨(List.prefix_append _ _).trans hp, hrest⟩
    · split
      · obtain ⟨hp, hrest⟩ := ih { d.sendBlockRequest d.nextBlock 0 with nextBlock := d.nextBlock + 1 }
        exact ⟨(List.prefix_append _ _).trans hp, hrest⟩
      · exact ⟨List.prefix_rfl, rfl, rfl, rfl⟩

variable (w window) in
theorem progress_keeps (now : Int) (d : Download) :
    (d.progress w window now).stage = d.stage ∧
      (d.progress w window now).lastProgress = d.lastProgress ∧
      (d.progress w window now).writes = d.writes := by
  unfold Download.progress
  split
  · exact ⟨rfl, rfl, rfl⟩
  · split
    · exact ⟨rfl, rfl, rfl⟩
    · split
      · exact ⟨rfl, rfl, rfl⟩
      · exact (fillWindow_keeps _ d).2

/-- The peer has answered for `j` blocks and the first one is not among them. -/
structure HeldBack (sha : Bytes → Hash) (w : Wanted) (window r c₀ : Nat) (now : Int) (j : Nat)
    (s : Dialogue) : Prop extends Flow sha w window r c₀ j s where
  held : s.d.stage.map Held.block = List.range' (c₀ + 1) j
  waiting : r + s.d.writes.length = c₀
  clock : s.d.lastProgress = now

variable {r c₀ j : Nat} {now : Int} {s : Dialogue}

/-- The block after the held ones is out. -/
theorem HeldBack.early (h : HeldBack sha w window r c₀ now j s) (hwin : 2 ≤ window)
    (hmany : c₀ + j + 1 < w.numBlocks) : ∃ fl ∈ s.d.inflight, fl.block = c₀ + j + 1 := by
  obtain ⟨c, hinv, -⟩ := h.inv
  have hc : c = c₀ := (cursor_eq hinv).trans h.waiting
  have hcount := h.count
  have hnext : c₀ + j + 1 < s.d.nextBlock := by
    rcases h.full with hfull | hfull <;> omega
  have hone := hinv.one (c₀ + j + 1)
  have hheld : (s.d.stage.map Held.block).count (c₀ + j + 1) = 0 := by
    rw [h.held, List.count_eq_zero, List.mem_range'_1]
    omega
  rw [h.noRedo, hheld, if_neg (by omega), if_neg (by omega)] at hone
  exact List.mem_map.mp (List.count_pos_iff.mp (by simp at hone; omega))

variable (hw : w.Consistent) {content : Nat → Bytes} (hcont : Content sha w content)
include hw hcont

/-- A block ahead of its turn is held where a place is free, and else asked for again. -/
theorem hear_ahead (h : HeldBack sha w window r c₀ now j s) {fl : Inflight}
    (hfl : fl ∈ s.d.inflight) (hahead : c₀ < fl.block) :
    ∃ rest, s.d.inflight.Perm (fl :: rest) ∧ hear sha w content now s.d fl =
      if s.d.stage.length < wkStage then
        { s.d with inflight := rest, stage := s.d.stage ++ [⟨fl.block, content fl.block⟩] }
      else { s.d with inflight := rest, redo := [fl] } := by
  obtain ⟨c, hinv, hd⟩ := h.inv
  have hc : c = c₀ := (cursor_eq hinv).trans h.waiting
  subst hc
  have hlt : fl.block < w.numBlocks :=
    Nat.lt_of_lt_of_le (hinv.one.mem_out (List.mem_map_of_mem hfl)).2 hinv.next
  obtain ⟨hlen, hhash⟩ := hcont fl.block hlt
  obtain ⟨rest, hperm, heq⟩ := hear_eq content now h.ids h.active hfl hlen hhash
  refine ⟨rest, hperm, ?_⟩
  rw [heq, Download.accept]
  dsimp only
  rcases folderRecvWrite_ahead hw hinv.staged (Nat.lt_trans hahead hlt) hahead
    (diskGrants fl.block) (content fl.block) with he | he
  · rw [he]
    dsimp only [Download.stagePut]
    rw [h.noRedo]
    by_cases hroom : s.d.stage.length < wkStage
    · rw [if_pos ⟨hroom, rfl⟩, if_pos hroom]
      rfl
    · rw [if_neg (fun h => hroom h.1), if_neg hroom]
      rfl
  · have hne : (folderRecvWrite (diskGrants fl.block) s.d.temp (dlBlockSpan w fl.block).1
        (content fl.block)).1 ≠ .fail := folderRecvWrite_granted hw rfl fl.block _
    rw [he] at hne
    exact absurd rfl hne

/-- **Held back.** One early answer more. -/
theorem HeldBack.next (h : HeldBack sha w window r c₀ now j s) (hwin : 2 ≤ window)
    (hj : j < wkStage) (hmany : c₀ + wkWindow < w.numBlocks) :
    ∃ fl ∈ s.d.inflight, now - (hear sha w content now s.d fl).lastProgress ≤ wkStallSecs ∧
      HeldBack sha w window r c₀ now (j + 1)
        (proceed w window now { s with d := hear sha w content now s.d fl }) := by
  have hk : wkStage + 1 = wkWindow := rfl
  obtain ⟨fl, hfl, hb⟩ := h.early hwin (by omega)
  obtain ⟨rest, -, heq⟩ := hear_ahead hw hcont h hfl (by omega)
  have hstage : s.d.stage.length = j := by
    have := congrArg List.length h.held
    rwa [List.length_map, List.length_range'] at this
  rw [if_pos (by omega)] at heq
  have hclock : (hear sha w content now s.d fl).lastProgress = now := by
    rw [heq]
    exact h.clock
  have htime : now - (hear sha w content now s.d fl).lastProgress ≤ wkStallSecs := by
    rw [hclock, Int.sub_self]
    decide
  have hheard := heard_hear hw hcont h.toHeard hfl now fun _ _ _ _ => by omega
  refine ⟨fl, hfl, htime, ?_⟩
  rcases hheard.proceed htime with hflow | ⟨-, hend⟩
  · obtain ⟨hps, hpp, hpw⟩ := progress_keeps w window now (hear sha w content now s.d fl)
    refine ⟨hflow, ?_, ?_, ?_⟩
    · rw [proceed]
      dsimp only
      rw [hps, heq]
      dsimp only
      rw [List.map_append, h.held, List.range'_concat]
      simp [hb]
      omega
    · rw [proceed]
      dsimp only
      rw [hpw, heq]
      exact h.waiting
    · rw [proceed]
      dsimp only
      rw [hpp]
      exact hclock
  · omega

/-- **Too early.** With every place taken, one more early block is asked for twice. -/
theorem HeldBack.twice (h : HeldBack sha w window r c₀ now wkStage s) (hwin : 2 ≤ window)
    (hmany : c₀ + wkWindow < w.numBlocks) :
    ∃ fl ∈ s.d.inflight, now - (hear sha w content now s.d fl).lastProgress ≤ wkStallSecs ∧
      ¬ (proceed w window now { s with d := hear sha w content now s.d fl }).asked.Nodup := by
  have hk : wkStage + 1 = wkWindow := rfl
  obtain ⟨fl, hfl, hb⟩ := h.early hwin (by omega)
  obtain ⟨rest, hperm, heq⟩ := hear_ahead hw hcont h hfl (by omega)
  have hstage : s.d.stage.length = wkStage := by
    have := congrArg List.length h.held
    rwa [List.length_map, List.length_range'] at this
  rw [if_neg (by omega)] at heq
  have hclock : (hear sha w content now s.d fl).lastProgress = now := by
    rw [heq]
    exact h.clock
  refine ⟨fl, hfl, by rw [hclock, Int.sub_self]; decide, ?_⟩
  obtain ⟨c, hinv, -⟩ := h.inv
  have hwin' := hinv.windowed
  have hnext := (hinv.one.mem_out (List.mem_map_of_mem hfl)).2
  rw [hperm.length_eq, List.length_cons] at hwin'
  obtain ⟨room, hroom⟩ : ∃ room, window - rest.length = room + 1 :=
    Nat.exists_eq_add_one.mpr (by omega)
  -- the refill starts with the block that was sent away
  have hprog : ({ s.d with inflight := rest, redo := [fl] } : Download).progress w window now =
      ({ s.d with inflight := rest, redo := [] }.sendBlockRequest fl.block fl.retries).fillWindow w room := by
    have hclock' := h.clock
    rw [Download.progress, if_neg (not_not.mpr h.active), if_neg (by
      rw [show ({ s.d with inflight := rest, redo := [fl] } : Download).lastProgress = now from hclock']
      simp [wkStallSecs]), if_neg (by simp [Download.complete])]
    dsimp only
    rw [hroom, Download.fillWindow]
  obtain ⟨more, hmore⟩ := (fillWindow_keeps room
    ({ s.d with inflight := rest, redo := [] }.sendBlockRequest fl.block fl.retries)).1
  have hagain : fl.block ∈ ((({ s.d with inflight := rest, redo := [fl] } : Download).progress w window
      now).inflight.drop rest.length).map Inflight.block := by
    rw [hprog, ← hmore, Download.sendBlockRequest]
    dsimp only
    rw [List.append_assoc, List.drop_left]
    simp
  have hbefore : fl.block ∈ s.asked := by
    rw [h.asked, List.mem_range'_1]
    omega
  rw [proceed, heq]
  dsimp only
  intro hnodup
  exact (List.nodup_append.mp hnodup).2.2 _ hbefore _ hagain rfl

/-- The first block is held back until every place is taken. -/
theorem hold_back {s₀ : Dialogue} (h : HeldBack sha w window r c₀ now 0 s₀) (hwin : 2 ≤ window)
    (hmany : c₀ + wkWindow < w.numBlocks) (hj : j ≤ wkStage) :
    ∃ s, Turns sha w window content s₀ j s ∧ HeldBack sha w window r c₀ now j s := by
  induction j with
  | zero => exact ⟨s₀, .start, h⟩
  | succ j ih =>
    obtain ⟨s, hturns, hs⟩ := ih (Nat.le_of_succ_le hj)
    obtain ⟨fl, hfl, ht, hnext⟩ := hs.next hw hcont hwin hj hmany
    exact ⟨_, .answer fl now hturns hfl ht, hnext⟩

end HoldBack

/-! ## The condition -/

/-- **Out of order.** The blocks before `c₀` are in the temporary file when the transfer begins. -/
theorem asked_once_iff (sha : Bytes → Hash) (w : Wanted) (hw : w.Consistent) (window : Nat)
    (hwin : 1 ≤ window ∧ window ≤ wkWindow) (content : Nat → Bytes) (hcont : Content sha w content)
    (reopen : Bool) (existing : Option Bytes) (read : Nat → Option Bytes) (io : Nat → WriteAnswer)
    (now : Int) (reqId c₀ : Nat)
    (hc₀ : c₀ = (Amisync.startDownload sha w reopen existing read io now reqId).nextBlock) :
    (∀ n s, Turns sha w window content (opening sha w window reopen existing read io now reqId) n s →
      GoesThrough w c₀ n s) ↔ window = 1 ∨ w.numBlocks ≤ c₀ + wkWindow := by
  obtain ⟨r, hheard, hinv⟩ := heard_opening sha hw window reopen existing read io now reqId
  rw [← hc₀] at hheard hinv
  have hfresh := fresh_startDownload sha w reopen existing read io now reqId
  have hstart : Flow sha w window r c₀ 0 (opening sha w window reopen existing read io now reqId) ∨
      (Done w c₀ (opening sha w window reopen existing read io now reqId) ∧
        0 + c₀ = w.numBlocks) := by
    refine hheard.proceed ?_
    rw [hfresh.progress, Int.sub_self]
    decide
  constructor
  · intro hall
    by_contra hno
    rw [not_or] at hno
    have hmany : c₀ + wkWindow < w.numBlocks := by omega
    have hback : HeldBack sha w window r c₀ now 0
        (opening sha w window reopen existing read io now reqId) := by
      rcases hstart with hflow | ⟨-, hend⟩
      · obtain ⟨hps, hpp, hpw⟩ := progress_keeps w window now
          (Amisync.startDownload sha w reopen existing read io now reqId)
        refine ⟨hflow, ?_, ?_, ?_⟩
        · rw [opening, proceed]
          dsimp only
          rw [hps, hfresh.stage]
          rfl
        · rw [opening, proceed]
          dsimp only
          rw [hpw]
          exact (cursor_eq hinv).symm
        · rw [opening, proceed]
          dsimp only
          rw [hpp]
          exact hfresh.progress
      · omega
    obtain ⟨s, hturns, hs⟩ := hold_back hw hcont hback (by omega) hmany (Nat.le_refl _)
    obtain ⟨fl, hfl, ht, htwice⟩ := hs.twice hw hcont (by omega) hmany
    exact htwice (hall _ _ (.answer fl now hturns hfl ht)).once
  · intro hfew n s hturns
    rcases turns_ok hw hcont hstart hfew hturns with hflow | ⟨hdone, hend⟩
    · exact hflow.goesThrough hwin.1
    · exact hdone.goesThrough hend

/-- A file of `n` blocks of one byte, all alike. -/
def evenFile (n : Nat) : Wanted where
  fi := { SyncMeta.zero [102] with size := n, blockSize := 1 }
  hashes := List.replicate n (sampleHash 1)

def oneByte : Nat → Bytes := fun _ => [0]

theorem four_blocks_once :
    GoesThrough (evenFile 4) 0 0
      (opening lengthHash (evenFile 4) 4 true none (fun _ => none) diskGrants 10 0) :=
  (asked_once_iff lengthHash (evenFile 4) ⟨by decide, by decide, by decide⟩ 4 (by decide) oneByte
    (by unfold Content; decide) true none (fun _ => none) diskGrants 10 0 0 (by decide)).mpr
    (Or.inr (by decide)) 0 _ .start

def slowStart : Dialogue := opening lengthHash (evenFile 5) 2 true none (fun _ => none) diskGrants 10 0

/-- The answer to `fl`, and the refill. -/
def nextTurn (s : Dialogue) (fl : Inflight) : Dialogue :=
  proceed (evenFile 5) 2 10 { s with d := hear lengthHash (evenFile 5) oneByte 10 s.d fl }

/-- Five blocks, a window of two, the first block last: the fifth is asked for twice. -/
theorem fifth_block_twice :
    (evenFile 5).Consistent ∧ Content lengthHash (evenFile 5) oneByte ∧
      (∃ s, Turns lengthHash (evenFile 5) 2 oneByte slowStart 4 s ∧ s.asked = [0, 1, 2, 3, 4, 4]) ∧
      ¬ ∀ n s, Turns lengthHash (evenFile 5) 2 oneByte slowStart n s → GoesThrough (evenFile 5) 0 n s := by
  have h1 : Turns lengthHash (evenFile 5) 2 oneByte slowStart 1 (nextTurn slowStart ⟨1, 2, 0⟩) :=
    .answer _ 10 .start (by decide +kernel) (by decide +kernel)
  have h2 := Turns.answer ⟨2, 3, 0⟩ 10 h1 (by decide +kernel) (by decide +kernel)
  have h3 := Turns.answer ⟨3, 4, 0⟩ 10 h2 (by decide +kernel) (by decide +kernel)
  have h4 := Turns.answer ⟨4, 5, 0⟩ 10 h3 (by decide +kernel) (by decide +kernel)
  refine ⟨⟨by decide, by decide, by decide⟩, by unfold Content; decide,
    ⟨_, h4, by decide +kernel⟩, fun hall => ?_⟩
  exact absurd (hall 4 _ h4).once (by decide +kernel)

end Amisync.Reorder

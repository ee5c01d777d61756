import Amisync.Announce
import Amisync.Batch
import Amisync.Lib.Outcome
import Amisync.Sequences

/-!
# The announce stream (`announce_folder`)

One pass on an index that nobody else writes to meanwhile, down to the bytes of
the messages. What is sent depends on the size of the connection's buffer: a
batch is sent when it is full, or when the next record does not fit; a record
that fits in no batch is sent alone.

* `announceFolder`: the pass. It breaks off when a message cannot be sent.
* `streamOf`: the messages of a list of groups of records.
* `Sent`: what has been sent, in groups; `outcome_announceRecord`: what a record
  adds to it.
* `FolderIndex`: the indexes that the writers make.
* `announce_stream`: the messages of a pass, and what is read of them.
-/

namespace Amisync

open Pbuf Bep

namespace Stream

/-! ## Sending -/

def bepMsgMax : Nat := (1024 + 64) * 1024
def growStep : Nat := 128 * 1024

inductive MsgType where
  | index
  | indexUpdate
  deriving DecidableEq, Repr

structure Message where
  type : MsgType
  body : Bytes
  deriving DecidableEq

/-- The size of the send buffer, and the messages that have gone out. -/
structure Conn where
  outCap : Nat
  sent : List Message

/-- What the allocator answers to a size, and the transport to a message by its number. -/
structure Link where
  alloc : Nat → Bool
  accepts : Nat → Bool

/-- Nothing fails. -/
structure Link.Up (link : Link) : Prop where
  alloc : ∀ n, link.alloc n = true
  accepts : ∀ k, link.accepts k = true

def sendMessage (link : Link) (c : Conn) (type : MsgType) (body : Bytes) : Except Conn Conn :=
  if link.accepts c.sent.length then .ok { c with sent := c.sent ++ [⟨type, body⟩] } else .error c

/-- Encode and send, with a larger buffer as long as it does not fit. -/
def sendEncoded (link : Link) (type : MsgType) (encode : Nat → Option Bytes) : Nat → Conn → Except Conn Conn
  | 0, c => match encode c.outCap with
    | some body => sendMessage link c type body
    | none => .error c
  | fuel + 1, c => match encode c.outCap with
    | some body => sendMessage link c type body
    | none =>
      if bepMsgMax ≤ c.outCap then .error c
      else if link.alloc (min (c.outCap + growStep) bepMsgMax) then
        sendEncoded link type encode fuel { c with outCap := min (c.outCap + growStep) bepMsgMax }
      else .error c

/-! ## The pass -/

/-- The variables of a pass; `batch` is the batch that is being filled. -/
structure Sending where
  conn : Conn
  first : Bool
  announced : Bool
  batch : Option IndexBatch

namespace Sending

def msgType (s : Sending) : MsgType := if s.first then .index else .indexUpdate

/-- After a message: `first = 0; S->announced[fidx] = 1`. -/
def after (s : Sending) : Except Conn Conn → Except Sending Sending
  | .ok c => .ok { s with conn := c, first := false, announced := true }
  | .error c => .error { s with conn := c }

end Sending

section Pass
variable (link : Link) (folder : CString 63)

/-- `bep_send_index_batch` -/
def sendIndexBatch (s : Sending) (b : IndexBatch) : Except Sending Sending :=
  if b.error then .error s
  else if b.num = 0 then s.after (.ok s.conn)
  else s.after (sendMessage link s.conn s.msgType b.buf)

def sendRecord (s : Sending) (m : FileMeta) (hashes : List Hash) : Except Sending Sending :=
  if m.type = 0 ∧ m.deleted = 0 then
    s.after (sendEncoded link s.msgType (encodeIndexFile folder (fileinfoFromMeta m) hashes) bepMsgMax s.conn)
  else s.after (sendEncoded link s.msgType (encodeIndex folder [fileinfoFromMeta m]) bepMsgMax s.conn)

/-- A batch of `WK_INDEX_BATCH` records goes out at once. -/
def sendFull (s : Sending) (b : IndexBatch) : Except Sending Sending :=
  if wkIndexBatch ≤ b.num then (sendIndexBatch link s b).map fun s => { s with batch := none }
  else .ok { s with batch := some b }

/-- Make room: what the batch holds is sent, and a new one is begun. -/
def flush (s : Sending) (b : IndexBatch) : Except Sending (Sending × IndexBatch) :=
  if 0 < b.num then (sendIndexBatch link s b).map fun s => (s, batchBegin s.conn.outCap folder)
  else .ok (s, b)

/-- The record of one slot. -/
def announceRecord (s : Sending) (m : FileMeta) (hashes : List Hash) : Except Sending Sending :=
  let b := s.batch.getD (batchBegin s.conn.outCap folder)
  match batchAdd b (fileinfoFromMeta m) hashes with
  | some b => sendFull link s b
  | none =>
    (flush link folder s b).bind fun sb =>
      match batchAdd sb.2 (fileinfoFromMeta m) hashes with
      | some b => sendFull link sb.1 b
      -- too large for an empty batch
      | none => (sendRecord link folder sb.1 m hashes).map fun s => { s with batch := none }

/-- Whether the record of slot `i` is announced, and with which hashes. -/
def select (t : FolderTable) (mode : FolderMode) (cursor : Int64) (i : Nat) : Option (FileMeta × List Hash) :=
  let m := t.metaAt i
  if cursor < m.sequence ∧ m.sequence ≤ t.sequence then
    let hashes := (t.blocksOf m.name folderMaxBlocks).1
    if mode = .receiveOnly ∧ syncVersionHas m.toSync.version t.shortId.toNat = true then none
    else if m.type = 0 ∧ m.deleted = 0 ∧ m.invalid = 0 ∧ hashes = [] then none
    else some (m, hashes)
  else none

def announceSlot (t : FolderTable) (mode : FolderMode) (cursor : Int64) (s : Sending) (i : Nat) :
    Except Sending Sending :=
  match select t mode cursor i with
  | none => .ok s
  | some (m, hashes) => announceRecord link folder s m hashes

/-- What is still in the batch goes out. -/
def sendLast (s : Sending) : Except Sending Sending :=
  match s.batch with
  | none => .ok s
  | some b => if 0 < b.num then sendIndexBatch link s b else .ok s

def establishFolder (s : Sending) : Except Sending Sending :=
  if s.announced then .ok s
  else s.after (sendEncoded link .index (encodeIndex folder []) bepMsgMax s.conn)

/-- A session's state of one folder. -/
structure Session where
  conn : Conn
  announced : Bool
  cursor : Int64

/-- `announce_folder`; `listed` is the folder's bit in `cc_mask`. -/
def announceFolder (t : FolderTable) (mode : FolderMode) (listed : Bool) (S : Session) :
    Except Session Session :=
  if !listed then .ok S
  else if S.announced = true ∧ t.sequence ≤ S.cursor then .ok S
  else
    match ((List.range t.numFiles).foldlM (announceSlot link folder t mode S.cursor)
        ⟨S.conn, !S.announced, S.announced, none⟩).bind fun s =>
          (sendLast link s).bind (establishFolder link folder) with
    | .ok s => .ok ⟨s.conn, s.announced, if S.cursor < t.sequence then t.sequence else S.cursor⟩
    | .error s => .error ⟨s.conn, s.announced, S.cursor⟩

end Pass

/-! ## Messages -/

/-- A record as it goes out. -/
def itemOf (m : FileMeta) (hashes : List Hash) : FileInfo × List BlockInfo :=
  (fileinfoFromMeta m, blocksOut (fileinfoFromMeta m) (some hashes))

/-- The messages of groups of records: an Index, unless there was one already, and updates. -/
def streamOf (folder : CString 63) : Bool → List (List (FileInfo × List BlockInfo)) → List Message
  | _, [] => []
  | announced, g :: gs =>
    ⟨if announced then .indexUpdate else .index, indexBytes folder g⟩ :: streamOf folder true gs

section Groups
variable {folder : CString 63}

theorem streamOf_concat (announced : Bool) (gs : List (List (FileInfo × List BlockInfo)))
    (g : List (FileInfo × List BlockInfo)) : streamOf folder announced (gs ++ [g]) =
      streamOf folder announced gs ++
        [⟨if announced || !gs.isEmpty then .indexUpdate else .index, indexBytes folder g⟩] := by
  induction gs generalizing announced with
  | nil => simp [streamOf]
  | cons h gs ih =>
    rw [List.cons_append, streamOf, ih, streamOf]
    simp

theorem type_streamOf (announced : Bool) (gs : List (List (FileInfo × List BlockInfo))) {i : Nat} {m : Message}
    (h : (streamOf folder announced gs)[i]? = some m) :
    m.type = if i = 0 ∧ announced = false then .index else .indexUpdate := by
  induction gs generalizing announced i with
  | nil => simp [streamOf] at h
  | cons g gs ih =>
    rw [streamOf] at h
    cases i with
    | zero =>
      rw [List.getElem?_cons_zero, Option.some.injEq] at h
      subst h
      cases announced <;> rfl
    | succ i =>
      rw [List.getElem?_cons_succ] at h
      rw [ih true h]
      simp

end Groups

/-! ## What a step sends -/

/-- What has been sent since `c₀`, in groups of records. -/
structure Sent (c₀ : Conn) (announced₀ : Bool) (folder : CString 63)
    (gs : List (List (FileInfo × List BlockInfo))) (s : Sending) : Prop where
  sent : s.conn.sent = c₀.sent ++ streamOf folder announced₀ gs
  announced : s.announced = (announced₀ || !gs.isEmpty)
  first : s.first = !s.announced
  full : ∀ g ∈ gs, g ≠ []

/-- The records that are in the batch. -/
def InBatch (folder : CString 63) : Option IndexBatch → List (FileInfo × List BlockInfo) → Prop
  | none, pending => pending = []
  | some b, pending => b.Holds folder pending

/-- These records have been sent, or are in the batch. -/
structure Passed (c₀ : Conn) (announced₀ : Bool) (folder : CString 63)
    (items : List (FileInfo × List BlockInfo)) (s : Sending) : Prop where
  groups : ∃ gs pending, Sent c₀ announced₀ folder gs s ∧ gs.flatten ++ pending = items ∧
    InBatch folder s.batch pending

/-- A pass that broke off: the link is down, and the records came out in order. -/
structure Broken (link : Link) (c₀ : Conn) (announced₀ : Bool) (folder : CString 63)
    (items : List (FileInfo × List BlockInfo)) (s : Sending) : Prop where
  groups : ∃ gs, Sent c₀ announced₀ folder gs s ∧ gs.flatten <+: items
  down : ¬ link.Up

section Steps
variable {link : Link} {folder : CString 63} {c₀ : Conn} {announced₀ : Bool}
  {gs : List (List (FileInfo × List BlockInfo))} {s : Sending}
  {pending done items : List (FileInfo × List BlockInfo)}

theorem outcome_sendMessage (link : Link) (c : Conn) (type : MsgType) (body : Bytes) :
    Outcome (fun c' => c'.sent = c.sent ++ [⟨type, body⟩]) (fun c' => c'.sent = c.sent ∧ ¬ link.Up)
      (sendMessage link c type body) := by
  rw [sendMessage]
  split
  · rfl
  · rename_i h
    exact ⟨rfl, fun up => h (up.accepts _)⟩

variable (link) in
/-- The buffer grows until the message fits, or memory runs out. -/
theorem outcome_sendEncoded {encode : Nat → Option Bytes} {body : Bytes}
    (hbody : ∀ cap b, encode cap = some b → b = body)
    (hfit : ∀ cap, bepMsgMax ≤ cap → (encode cap).isSome = true) (type : MsgType) (fuel : Nat) (c : Conn)
    (hfuel : bepMsgMax ≤ c.outCap + fuel) :
    Outcome (fun c' => c'.sent = c.sent ++ [⟨type, body⟩]) (fun c' => c'.sent = c.sent ∧ ¬ link.Up)
      (sendEncoded link type encode fuel c) := by
  induction fuel generalizing c with
  | zero =>
    obtain ⟨b, hb⟩ := Option.isSome_iff_exists.mp (hfit c.outCap hfuel)
    rw [sendEncoded, hb, hbody _ b hb]
    exact outcome_sendMessage link c type body
  | succ fuel ih =>
    rw [sendEncoded]
    cases hb : encode c.outCap with
    | some b =>
      rw [hbody _ b hb]
      exact outcome_sendMessage link c type body
    | none =>
      have hsmall : ¬ bepMsgMax ≤ c.outCap := fun h => absurd (hfit _ h) (by simp [hb])
      dsimp only
      rw [if_neg hsmall]
      split
      · have hstep : growStep = 131072 := rfl
        exact ih { c with outCap := min (c.outCap + growStep) bepMsgMax } (by dsimp only; omega)
      · rename_i halloc
        exact ⟨rfl, fun up => halloc (up.alloc _)⟩

theorem Sent.after (h : Sent c₀ announced₀ folder gs s) (hne : pending ≠ []) {x : Except Conn Conn}
    (hx : Outcome (fun c => c.sent = s.conn.sent ++ [⟨s.msgType, indexBytes folder pending⟩])
      (fun c => c.sent = s.conn.sent ∧ ¬ link.Up) x) :
    Outcome (fun s' => Sent c₀ announced₀ folder (gs ++ [pending]) s' ∧ s'.batch = s.batch)
      (fun s' => Sent c₀ announced₀ folder gs s' ∧ ¬ link.Up) (s.after x) := by
  cases x with
  | ok c =>
    have hc : c.sent = s.conn.sent ++ [⟨s.msgType, indexBytes folder pending⟩] := hx
    have htype : s.msgType = if announced₀ || !gs.isEmpty then .indexUpdate else .index := by
      rw [Sending.msgType, h.first, h.announced]
      cases announced₀ || !gs.isEmpty <;> rfl
    refine ⟨⟨?_, by simp, rfl, ?_⟩, rfl⟩
    · show c.sent = _
      rw [hc, h.sent, htype, streamOf_concat, List.append_assoc]
    · intro g hg
      rcases List.mem_append.mp hg with hg | hg
      · exact h.full g hg
      · exact List.mem_singleton.mp hg ▸ hne
  | error c =>
    obtain ⟨hc, hdown⟩ := hx
    exact ⟨⟨hc.trans h.sent, h.announced, h.first, h.full⟩, hdown⟩

variable (link) in
theorem outcome_sendIndexBatch (h : Sent c₀ announced₀ folder gs s) {b : IndexBatch}
    (hb : b.Holds folder pending) (hnum : 0 < b.num) :
    Outcome (fun s' => Sent c₀ announced₀ folder (gs ++ [pending]) s' ∧ s'.batch = s.batch)
      (fun s' => Sent c₀ announced₀ folder gs s' ∧ ¬ link.Up) (sendIndexBatch link s b) := by
  have hok : b.error = false := by
    cases he : b.error with
    | false => rfl
    | true =>
      rw [hb.num, hb.error he] at hnum
      exact absurd hnum (by simp)
  have hne : pending ≠ [] := by
    rw [hb.num] at hnum
    exact List.length_pos_iff.mp hnum
  rw [sendIndexBatch, if_neg (by simp [hok]), if_neg (by omega), hb.buf hok]
  exact h.after hne (outcome_sendMessage link s.conn s.msgType _)

/-- A message that goes wrong leaves the groups before it. -/
theorem Broken.of_sent (h : Sent c₀ announced₀ folder gs s ∧ ¬ link.Up) (hgs : gs.flatten <+: items) :
    Broken link c₀ announced₀ folder items s :=
  ⟨⟨gs, h.1, hgs⟩, h.2⟩

theorem prefix_of_append_eq {l₁ l₂ l l' : List (FileInfo × List BlockInfo)} (h : l₁ ++ l₂ = l)
    (hl : l <+: l') : l₁ <+: l' :=
  (h ▸ List.prefix_append l₁ l₂ : l₁ <+: l).trans hl

/-- **A batch with a new record.** -/
theorem outcome_sendFull (h : Sent c₀ announced₀ folder gs s) {b : IndexBatch} (hb : b.Holds folder pending)
    (hdone : gs.flatten ++ pending = done) (hitems : done <+: items) :
    Outcome (Passed c₀ announced₀ folder done) (Broken link c₀ announced₀ folder items)
      (sendFull link s b) := by
  rw [sendFull]
  split
  · rename_i hfull
    have hnum : 0 < b.num := Nat.lt_of_lt_of_le (by decide) hfull
    have hsend := outcome_sendIndexBatch link h hb hnum
    refine Outcome.map (hsend.mono (fun _ => id) fun s' hs' =>
      Broken.of_sent hs' (prefix_of_append_eq hdone hitems)) fun s' hs' => ?_
    refine ⟨gs ++ [pending], [], ⟨hs'.1.sent, hs'.1.announced, hs'.1.first, hs'.1.full⟩, ?_, rfl⟩
    rw [List.flatten_append, List.append_nil, List.flatten_singleton, hdone]
  · exact ⟨gs, pending, ⟨h.sent, h.announced, h.first, h.full⟩, hdone, hb⟩

variable (link) in
/-- **Flush.** Afterwards everything is in groups, or the batch was empty already. -/
theorem outcome_flush (h : Sent c₀ announced₀ folder gs s) {b : IndexBatch} (hb : b.Holds folder pending)
    (hdone : gs.flatten ++ pending = done) (hitems : done <+: items) :
    Outcome (fun sb => (∃ gs', Sent c₀ announced₀ folder gs' sb.1 ∧ gs'.flatten = done) ∧
        sb.2.Holds folder []) (Broken link c₀ announced₀ folder items) (flush link folder s b) := by
  rw [flush]
  split
  · rename_i hnum
    have hsend := outcome_sendIndexBatch link h hb hnum
    refine Outcome.map (hsend.mono (fun _ => id) fun s' hs' =>
      Broken.of_sent hs' (prefix_of_append_eq hdone hitems)) fun s' hs' => ?_
    refine ⟨⟨gs ++ [pending], hs'.1, ?_⟩, holds_batchBegin _ folder⟩
    rw [List.flatten_append, List.flatten_singleton, hdone]
  · rename_i hnum
    have hempty : pending = [] := by
      rw [hb.num] at hnum
      exact List.length_eq_zero_iff.mp (by omega)
    subst hempty
    rw [List.append_nil] at hdone
    exact ⟨⟨gs, h, hdone⟩, hb⟩

variable (link) in
/-- **A record alone.** -/
theorem outcome_sendRecord (h : Sent c₀ announced₀ folder gs s) {m : FileMeta} {hashes : List Hash}
    (hlen : hashes.length ≤ folderMaxBlocks) (hfile : ¬ (m.type = 0 ∧ m.deleted = 0) → hashes = []) :
    Outcome (fun s' => Sent c₀ announced₀ folder (gs ++ [[itemOf m hashes]]) s' ∧ s'.batch = s.batch)
      (fun s' => Sent c₀ announced₀ folder gs s' ∧ ¬ link.Up) (sendRecord link folder s m hashes) := by
  rw [sendRecord]
  split
  · refine h.after (List.cons_ne_nil _ _) (outcome_sendEncoded link (fun cap b hb => encodeIndexFile_eq hb) (fun cap hcap => ?_)
      s.msgType bepMsgMax s.conn (Nat.le_add_left _ _))
    exact encodeIndexFile_isSome folder hlen (Nat.le_trans (by decide) hcap)
  · rename_i hm
    have hitem : itemOf m hashes = (fileinfoFromMeta m, []) := by
      rw [itemOf, hfile hm]
      rfl
    rw [hitem]
    refine h.after (List.cons_ne_nil _ _) (outcome_sendEncoded link (fun cap b hb => ?_) (fun cap hcap => ?_) s.msgType bepMsgMax s.conn
      (Nat.le_add_left _ _))
    · rw [encodeIndex_single folder _ rfl] at hb
      split at hb
      · exact (Option.some.inj hb).symm
      · simp at hb
    · have hfolder := length_folder folder
      have hinfo := length_infoBytes_le (fileinfoFromMeta m) []
      have hdata := length_data_le (f := 2) (infoBytes (fileinfoFromMeta m) []) (by decide)
        (Nat.lt_of_le_of_lt hinfo (by decide))
      have hmax : bepMsgMax = 1114112 := rfl
      have hfits : (indexBytes folder [(fileinfoFromMeta m, [])]).length ≤ cap := by
        rw [← List.nil_append [(fileinfoFromMeta m, [])], indexBytes_concat, List.length_append]
        simp only [List.length_nil] at hinfo
        omega
      rw [encodeIndex_single folder _ rfl, if_pos hfits]
      rfl

variable (link) in
/-- **A record.** -/
theorem outcome_announceRecord (h : Passed c₀ announced₀ folder done s) {m : FileMeta} {hashes : List Hash}
    (hlen : hashes.length ≤ folderMaxBlocks) (hfile : ¬ (m.type = 0 ∧ m.deleted = 0) → hashes = [])
    (hitems : done ++ [itemOf m hashes] <+: items) :
    Outcome (Passed c₀ announced₀ folder (done ++ [itemOf m hashes]))
      (Broken link c₀ announced₀ folder items) (announceRecord link folder s m hashes) := by
  obtain ⟨gs, pending, hsent, hdone, hbatch⟩ := h
  have hb : (s.batch.getD (batchBegin s.conn.outCap folder)).Holds folder pending := by
    cases hs : s.batch with
    | none =>
      rw [hs] at hbatch
      obtain rfl : pending = [] := hbatch
      exact holds_batchBegin _ folder
    | some b =>
      rw [hs] at hbatch
      exact hbatch
  have hprefix : done <+: items := (List.prefix_append _ _).trans hitems
  rw [announceRecord]
  cases hadd : batchAdd (s.batch.getD (batchBegin s.conn.outCap folder)) (fileinfoFromMeta m) hashes with
  | some b' =>
    refine outcome_sendFull hsent (hb.add hadd) ?_ hitems
    rw [← List.append_assoc, hdone]
    rfl
  | none =>
    refine (outcome_flush link hsent hb hdone hprefix).bind ?_
    rintro ⟨s', b'⟩ ⟨⟨gs', hsent', hgs'⟩, hb'⟩
    dsimp only
    cases hadd' : batchAdd b' (fileinfoFromMeta m) hashes with
    | some b'' =>
      refine outcome_sendFull hsent' (hb'.add hadd') ?_ hitems
      rw [List.nil_append, hgs']
      rfl
    | none =>
      have hsend := outcome_sendRecord link hsent' hlen hfile
      refine Outcome.map (hsend.mono (fun _ => id) fun s'' hs'' =>
        Broken.of_sent hs'' (hgs' ▸ hprefix)) fun s'' hs'' => ?_
      refine ⟨gs' ++ [[itemOf m hashes]], [], ⟨hs''.1.sent, hs''.1.announced, hs''.1.first, hs''.1.full⟩, ?_, rfl⟩
      rw [List.flatten_append, List.append_nil, List.flatten_singleton, hgs']

end Steps

/-! ## The whole pass -/

/-- All the records have been sent; where there was nothing to send, an empty Index. -/
structure Finished (c₀ : Conn) (announced₀ : Bool) (folder : CString 63)
    (items : List (FileInfo × List BlockInfo)) (s : Sending) : Prop where
  groups : ∃ gs, s.conn.sent = c₀.sent ++ streamOf folder announced₀ gs ∧ gs.flatten = items ∧
    (items = [] → gs = if announced₀ then [] else [[]])
  announced : s.announced = true

section Finish
variable {link : Link} {folder : CString 63} {c₀ : Conn} {announced₀ : Bool}
  {gs : List (List (FileInfo × List BlockInfo))} {s : Sending} {items : List (FileInfo × List BlockInfo)}

variable (link) in
theorem outcome_sendLast (h : Passed c₀ announced₀ folder items s) :
    Outcome (fun s' => ∃ gs, Sent c₀ announced₀ folder gs s' ∧ gs.flatten = items)
      (Broken link c₀ announced₀ folder items) (sendLast link s) := by
  obtain ⟨gs, pending, hsent, hitems, hbatch⟩ := h
  rw [sendLast]
  cases hs : s.batch with
  | none =>
    rw [hs] at hbatch
    obtain rfl : pending = [] := hbatch
    exact ⟨gs, hsent, by rw [← hitems, List.append_nil]⟩
  | some b =>
    rw [hs] at hbatch
    have hflush := outcome_flush link hsent hbatch hitems (List.prefix_refl items)
    rw [flush] at hflush
    dsimp only
    split
    · rename_i hnum
      have hsend := outcome_sendIndexBatch link hsent hbatch hnum
      refine hsend.mono (fun s' hs' => ⟨gs ++ [pending], hs'.1, ?_⟩) fun s' hs' =>
        Broken.of_sent hs' (prefix_of_append_eq hitems (List.prefix_refl items))
      rw [List.flatten_append, List.flatten_singleton, hitems]
    · rename_i hnum
      rw [if_neg hnum] at hflush
      exact hflush.1

/-- **Establishing.** -/
theorem outcome_establishFolder (h : Sent c₀ announced₀ folder gs s) (hitems : gs.flatten = items) :
    Outcome (Finished c₀ announced₀ folder items) (Broken link c₀ announced₀ folder items)
      (establishFolder link folder s) := by
  rw [establishFolder]
  split
  · rename_i hann
    refine ⟨⟨gs, h.sent, hitems, fun hnil => ?_⟩, hann⟩
    have hgs : gs = [] := by
      rw [← hitems] at hnil
      cases gs with
      | nil => rfl
      | cons g gs =>
        rw [List.flatten_cons, List.append_eq_nil_iff] at hnil
        exact absurd hnil.1 (h.full g List.mem_cons_self)
    have hann₀ := h.announced
    rw [hann, hgs] at hann₀
    have hann₀' : announced₀ = true := by simpa using hann₀.symm
    rw [hgs, hann₀', if_pos rfl]
  · rename_i hann
    rw [Bool.not_eq_true] at hann
    have hnot := h.announced
    rw [hann] at hnot
    obtain ⟨hann₀, hgs⟩ := Bool.or_eq_false_iff.mp hnot.symm
    have hgs' : gs = [] := by simpa using hgs
    subst hgs'
    have hfolder := length_folder folder
    have hsend := outcome_sendEncoded link (fun cap b (hb : encodeIndex folder [] cap = some b) => by
        rw [encodeIndex_nil] at hb
        split at hb
        · exact (Option.some.inj hb).symm
        · simp at hb)
      (fun cap hcap => by
        have hmax : bepMsgMax = 1114112 := rfl
        rw [encodeIndex_nil, if_pos (by omega)]
        rfl) .index bepMsgMax s.conn (Nat.le_add_left _ _)
    cases hx : sendEncoded link .index (encodeIndex folder []) bepMsgMax s.conn with
    | ok c =>
      rw [hx] at hsend
      have hc : c.sent = s.conn.sent ++ [⟨.index, indexBytes folder []⟩] := hsend
      refine ⟨⟨[[]], ?_, hitems, fun _ => by rw [hann₀]; rfl⟩, rfl⟩
      show c.sent = _
      rw [hc, h.sent, hann₀, List.append_assoc]
      rfl
    | error c =>
      rw [hx] at hsend
      obtain ⟨hc, hdown⟩ := hsend
      exact ⟨⟨[], ⟨hc.trans h.sent, h.announced, h.first, h.full⟩, List.nil_prefix⟩, hdown⟩

end Finish

/-! ## The indexes that are announced -/

/-- An index as the writers make it: only files that are there have block hashes, and no more
than are ever sent. -/
structure FolderIndex where
  table : FolderTable
  ok : table.Ok
  few : ∀ s ∈ table.slots, s.blocks.length ≤ folderMaxBlocks
  files : ∀ s ∈ table.slots, ¬ (s.info.type = 0 ∧ s.info.deleted = 0) → s.blocks = []

/-! ### How the writers make them -/

/-- A record may be stored with these hashes. -/
def BlocksOk (s : FolderTable.Stored) : Prop :=
  s.blocks.length ≤ folderMaxBlocks ∧ (¬ (s.info.type = 0 ∧ s.info.deleted = 0) → s.blocks = [])

/-- What every writer keeps to: hashes come with the record of a file, from the scanner, from a
finished download or with a conflict copy. -/
def StoresBlocks : FolderTable.Op → Prop
  | .upsert m hashes _ => BlocksOk ⟨m, hashes, false⟩
  | _ => True

theorem blocksOk_step {c : FolderTable.Content} (h : ∀ n s, c.records n = some s → BlocksOk s)
    {op : FolderTable.Op} (hop : StoresBlocks op) :
    ∀ n s, (c.step op).records n = some s → BlocksOk s := by
  have hset : ∀ (k : FileName) (x : Option FolderTable.Stored), (∀ s, x = some s → BlocksOk s) →
      ∀ n s, (c.set k x).records n = some s → BlocksOk s := by
    intro k x hx n s hs
    by_cases hn : n = k
    · subst hn
      exact hx s (by simpa [FolderTable.Content.set] using hs)
    · exact h n s (by simpa [FolderTable.Content.set, hn] using hs)
  have hmap : ∀ (k : FileName) (f : FolderTable.Stored → FolderTable.Stored),
      (∀ s, BlocksOk s → BlocksOk (f s)) → ∀ s, (c.records k).map f = some s → BlocksOk s := by
    intro k f hf s hs
    obtain ⟨t, ht, rfl⟩ := Option.map_eq_some_iff.mp hs
    exact hf t (h k t ht)
  have hremove : ∀ (p : FolderTable.Stored → Bool) n s, (c.remove p).records n = some s → BlocksOk s :=
    fun p n s hs => h n s (Option.eq_some_of_filter_eq_some hs)
  cases op with
  | init folderId shortId mem => exact fun n s hs => absurd hs (by simp [FolderTable.Content.step,
      FolderTable.Content.empty])
  | upsert m hashes mem => exact hset m.name _ fun s hs => by cases hs; exact hop
  | setVersion k v alloc => exact hset k _ (hmap k _ fun s hs => hs)
  | markSeen k => exact hset k _ (hmap k _ fun s hs => hs)
  | clearSeen => exact fun n => hmap n _ fun s hs => hs
  | forget k => exact hset k none fun s hs => absurd hs (by simp)
  | forgetUnseen before => exact hremove _
  | pruneTombstones cutoff => exact hremove _
  | nextSeq => exact h

/-- **Writers.** Their operations leave an index that can be announced. -/
theorem folderIndex_of_run (folderId : CString 63) (shortId : UInt64) (mem : Arrays)
    (ops : List FolderTable.Op)
    (hg : Machine.Along FolderTable.step FolderTable.Granted (FolderTable.init folderId shortId mem) ops)
    (hops : ∀ op ∈ ops, StoresBlocks op) {t : FolderTable}
    (hr : Machine.run FolderTable.step (FolderTable.init folderId shortId mem) ops = some t) :
    ∃ idx : FolderIndex, idx.table = t := by
  have hholds := FolderTable.holds_run (FolderTable.holds_init folderId shortId mem) hg hr
  have hcontent : ∀ (ops : List FolderTable.Op) (c : FolderTable.Content), (∀ op ∈ ops, StoresBlocks op) →
      (∀ n s, c.records n = some s → BlocksOk s) →
      ∀ n s, (ops.foldl FolderTable.Content.step c).records n = some s → BlocksOk s := by
    intro ops
    induction ops with
    | nil => exact fun c _ hc => hc
    | cons op ops ih =>
      intro c hops hc
      exact ih (c.step op) (fun op' hop' => hops op' (List.mem_cons_of_mem _ hop'))
        (blocksOk_step hc (hops op List.mem_cons_self))
  have hslots : ∀ s ∈ t.slots, BlocksOk s := by
    intro s hs
    refine hcontent ops .empty hops (fun n s hs => absurd hs (by simp [FolderTable.Content.empty])) s.name s ?_
    rw [← hholds.lookup]
    exact Keyed.lookup_of_mem hholds.ok.nodup hs
  exact ⟨⟨t, hholds.ok, fun s hs => (hslots s hs).1, fun s hs => (hslots s hs).2⟩, rfl⟩

/-! ### What is selected -/

/-- The record is in the range of the pass and is not withheld. -/
def Selected (t : FolderTable) (mode : FolderMode) (cursor : Int64) (s : FolderTable.Stored) : Prop :=
  cursor < s.info.sequence ∧ s.info.sequence ≤ t.sequence ∧
    withheld mode t.shortId.toNat s.toSlot = false

instance (t : FolderTable) (mode : FolderMode) (cursor : Int64) (s : FolderTable.Stored) :
    Decidable (Selected t mode cursor s) :=
  inferInstanceAs (Decidable (_ ∧ _ ∧ _))

/-- The records of a pass, in slot order. -/
def selected (t : FolderTable) (mode : FolderMode) (cursor : Int64) : List FolderTable.Stored :=
  t.slots.filter fun s => Selected t mode cursor s

/-- A record as the peer reads it. -/
def readBack (s : FolderTable.Stored) : FileInfo :=
  (fileinfoFromMeta s.info).received (blocksOut (fileinfoFromMeta s.info) (some s.blocks))

theorem withheld_toSlot (mode : FolderMode) (shortId : Nat) (s : FolderTable.Stored) :
    withheld mode shortId s.toSlot = true ↔
      (mode = .receiveOnly ∧ syncVersionHas s.info.toSync.version shortId = true) ∨
        (s.info.type = 0 ∧ s.info.deleted = 0 ∧ s.info.invalid = 0 ∧ s.blocks = []) := by
  have hfile : s.info.fileType = .file ↔ s.info.type = 0 := by
    rw [FileMeta.fileType]
    split
    · rename_i h
      exact iff_of_true rfl h
    · rename_i h
      split
      · exact iff_of_false (by simp) h
      · exact iff_of_false (by simp) h
  simp only [withheld, FolderTable.Stored.toSlot, FileMeta.toSync, Bool.or_eq_true, Bool.and_eq_true,
    beq_iff_eq, hfile, Bool.not_eq_true', decide_eq_false_iff_not, not_not, List.isEmpty_iff, and_assoc]

section Index
variable (idx : FolderIndex) (mode : FolderMode) (cursor : Int64)

theorem blocksOf_slot {i : Nat} (hi : i < idx.table.numFiles) :
    (idx.table.blocksOf (idx.table.metaAt i).name folderMaxBlocks).1 = (idx.table.slotAt i).blocks := by
  have hmem : idx.table.slotAt i ∈ idx.table.slots := List.mem_map.mpr ⟨i, List.mem_range.mpr hi, rfl⟩
  have hfind : idx.table.findSlot (idx.table.metaAt i).name = some i :=
    idx.ok.findSlot_eq_some.mpr ⟨hi, idx.ok.names_eq hi⟩
  have hfew := idx.few _ hmem
  rw [FolderTable.blocksOf, hfind]
  show ((idx.table.blocks i).getD []).take (min (idx.table.nblocks i) folderMaxBlocks) = _
  rw [Nat.min_comm, ← List.take_take]
  exact List.take_of_length_le hfew

/-- **Selection.** -/
theorem select_eq {i : Nat} (hi : i < idx.table.numFiles) : select idx.table mode cursor i =
    if Selected idx.table mode cursor (idx.table.slotAt i) then
      some ((idx.table.slotAt i).info, (idx.table.slotAt i).blocks) else none := by
  have hheld := withheld_toSlot mode idx.table.shortId.toNat (idx.table.slotAt i)
  have hinfo : idx.table.metaAt i = (idx.table.slotAt i).info := rfl
  rw [select]
  dsimp only
  rw [blocksOf_slot idx hi, hinfo]
  by_cases hrange : cursor < (idx.table.slotAt i).info.sequence ∧
      (idx.table.slotAt i).info.sequence ≤ idx.table.sequence
  · rw [if_pos hrange]
    cases hw : withheld mode idx.table.shortId.toNat (idx.table.slotAt i).toSlot with
    | true =>
      rw [if_neg (c := Selected _ _ _ _) (fun h => absurd (hw.symm.trans h.2.2) (by simp))]
      rcases hheld.mp hw with h | h
      · rw [if_pos h]
      · rw [if_pos h, ite_self]
    | false =>
      have hnot := mt hheld.mpr (by simp [hw])
      rw [not_or] at hnot
      rw [if_pos (c := Selected _ _ _ _) ⟨hrange.1, hrange.2, hw⟩, if_neg hnot.1, if_neg hnot.2]
  · rw [if_neg hrange, if_neg (c := Selected _ _ _ _) fun h => hrange ⟨h.1, h.2.1⟩]

theorem filterMap_select : (List.range idx.table.numFiles).filterMap (select idx.table mode cursor) =
    (selected idx.table mode cursor).map fun s => (s.info, s.blocks) := by
  rw [selected, FolderTable.slots, List.filter_map, List.map_map, ← List.filterMap_eq_map,
    List.filterMap_filter]
  refine List.filterMap_congr fun i hi => ?_
  rw [select_eq idx mode cursor (List.mem_range.mp hi)]
  simp only [Function.comp, decide_eq_true_eq]

end Index

section Index
variable (idx : FolderIndex) (mode : FolderMode) (cursor : Int64)

/-- The records of the first slots, as they go out. -/
def itemsOf (l : List Nat) : List (FileInfo × List BlockInfo) :=
  (l.filterMap (select idx.table mode cursor)).map fun x => itemOf x.1 x.2

theorem itemsOf_range : itemsOf idx mode cursor (List.range idx.table.numFiles) =
    (selected idx.table mode cursor).map fun s => itemOf s.info s.blocks := by
  rw [itemsOf, filterMap_select, List.map_map]
  rfl

theorem itemsOf_concat (l : List Nat) (i : Nat) : itemsOf idx mode cursor (l ++ [i]) =
    itemsOf idx mode cursor l ++
      ((select idx.table mode cursor i).map fun x => itemOf x.1 x.2).toList := by
  rw [itemsOf, itemsOf, List.filterMap_append, List.map_append]
  cases hs : select idx.table mode cursor i with
  | none => simp [hs]
  | some x => simp [hs]

theorem itemsOf_prefix {l l' : List Nat} (h : l <+: l') :
    itemsOf idx mode cursor l <+: itemsOf idx mode cursor l' :=
  (h.filterMap _).map _

/-- What is selected of a slot can be sent. -/
theorem sendable_of_select {i : Nat} (hi : i < idx.table.numFiles) {m : FileMeta} {hashes : List Hash}
    (h : select idx.table mode cursor i = some (m, hashes)) :
    hashes.length ≤ folderMaxBlocks ∧ (¬ (m.type = 0 ∧ m.deleted = 0) → hashes = []) := by
  have hmem : idx.table.slotAt i ∈ idx.table.slots := List.mem_map.mpr ⟨i, List.mem_range.mpr hi, rfl⟩
  rw [select_eq idx mode cursor hi] at h
  split at h
  · rw [Option.some.injEq, Prod.mk.injEq] at h
    rw [← h.1, ← h.2]
    exact ⟨idx.few _ hmem, idx.files _ hmem⟩
  · simp at h

/-- **Pass.** -/
theorem outcome_pass (link : Link) (folder : CString 63) (c : Conn) (announced : Bool) :
    Outcome (Finished c announced folder (itemsOf idx mode cursor (List.range idx.table.numFiles)))
      (Broken link c announced folder (itemsOf idx mode cursor (List.range idx.table.numFiles)))
      (((List.range idx.table.numFiles).foldlM (announceSlot link folder idx.table mode cursor)
        ⟨c, !announced, announced, none⟩).bind fun s =>
          (sendLast link s).bind (establishFolder link folder)) := by
  have hstart : Passed c announced folder (itemsOf idx mode cursor []) ⟨c, !announced, announced, none⟩ :=
    ⟨[], [], ⟨by simp [streamOf], by simp, rfl, by simp⟩, rfl, rfl⟩
  refine Outcome.bind (Outcome.foldlM (I := fun l s => Passed c announced folder (itemsOf idx mode cursor l) s)
    (fun l₁ i l₂ s hl hs => ?_) hstart) fun s hs => ?_
  · -- one slot: nothing, or a record
    have hi : i < idx.table.numFiles := by
      rw [← List.mem_range, hl]
      simp
    have hitems : itemsOf idx mode cursor (l₁ ++ [i]) <+:
        itemsOf idx mode cursor (List.range idx.table.numFiles) := by
      refine itemsOf_prefix idx mode cursor ⟨l₂, ?_⟩
      rw [hl, ← List.append_cons]
    rw [announceSlot]
    cases hsel : select idx.table mode cursor i with
    | none =>
      show Passed c announced folder (itemsOf idx mode cursor (l₁ ++ [i])) s
      rw [itemsOf_concat, hsel]
      simpa using hs
    | some x =>
      obtain ⟨hlen, hfile⟩ := sendable_of_select idx mode cursor hi hsel
      have hconcat : itemsOf idx mode cursor (l₁ ++ [i]) =
          itemsOf idx mode cursor l₁ ++ [itemOf x.1 x.2] := by
        rw [itemsOf_concat, hsel]
        rfl
      rw [hconcat] at hitems ⊢
      exact outcome_announceRecord link hs hlen hfile hitems
  · exact (outcome_sendLast link hs).bind fun s' ⟨gs, hgs, hflat⟩ => outcome_establishFolder hgs hflat

end Index

/-! ## What the peer reads -/

section Stream

theorem sendable_selected (idx : FolderIndex) (mode : FolderMode) (cursor : Int64) :
    Sendable ((selected idx.table mode cursor).map fun s => itemOf s.info s.blocks) := by
  intro x hx
  obtain ⟨s, hs, rfl⟩ := List.mem_map.mp hx
  have hlen : (itemOf s.info s.blocks).2.length = s.blocks.length := List.length_mapIdx
  rw [hlen]
  exact idx.few s (List.mem_of_mem_filter hs)

/-- **Stream.** Every message is read whole, and the records come back group by group. -/
theorem read_streamOf (folder : CString 63) (announced : Bool) {gs : List (List (FileInfo × List BlockInfo))}
    (h : Sendable gs.flatten) :
    (∀ m ∈ streamOf folder announced gs, (readIndex m.body).2 = false ∧ indexFolder m.body = folder) ∧
    (streamOf folder announced gs).flatMap (fun m => (readIndex m.body).1) =
      gs.flatten.map fun x => x.1.received x.2 := by
  induction gs generalizing announced with
  | nil => exact ⟨fun m hm => absurd hm (by simp [streamOf]), rfl⟩
  | cons g gs ih =>
    have hg : Sendable g := fun x hx => h x (by simp [hx])
    obtain ⟨hread, hfolder⟩ := readIndex_indexBytes folder hg
    obtain ⟨hall, hflat⟩ := ih true fun x hx => h x (by
      rw [List.flatten_cons]
      exact List.mem_append_right _ hx)
    rw [streamOf]
    constructor
    · intro m hm
      rcases List.mem_cons.mp hm with rfl | hm
      · exact ⟨by rw [hread], hfolder⟩
      · exact hall m hm
    · rw [List.flatMap_cons, hflat, hread, List.flatten_cons, List.map_append]

theorem hashes_readBack (s : FolderTable.Stored) :
    (readBack s).blocks.map BlockInfo.hash = s.blocks.map some := by
  show (s.blocks.mapIdx (extBlock (fileinfoFromMeta s.info))).map BlockInfo.hash = _
  apply List.ext_getElem?
  intro i
  rw [List.getElem?_map, List.getElem?_mapIdx, List.getElem?_map, Option.map_map]
  rfl

end Stream

/-- **The announce stream.** A pass over a folder that our ClusterConfig lists sends an Index
first if there was none in this session, and updates otherwise; where nothing is selected the
Index is empty. The messages name the folder and are read to the end, and the records that come
out are those selected, in slot order, with the metadata and block hashes stored. A pass that
breaks off, which a working link never lets happen, has sent the beginning of that. -/
theorem announce_stream (link : Link) (folder : CString 63) (idx : FolderIndex) (mode : FolderMode)
    (S : Session) :
    Outcome
      (fun S' => ∃ ms, S'.conn.sent = S.conn.sent ++ ms ∧
        (∀ i m, ms[i]? = some m →
          m.type = if i = 0 ∧ S.announced = false then .index else .indexUpdate) ∧
        (∀ m ∈ ms, (readIndex m.body).2 = false ∧ indexFolder m.body = folder) ∧
        ms.flatMap (fun m => (readIndex m.body).1) = (selected idx.table mode S.cursor).map readBack ∧
        (∀ s ∈ selected idx.table mode S.cursor,
          (readBack s).blocks.map BlockInfo.hash = s.blocks.map some) ∧
        (selected idx.table mode S.cursor = [] → S.announced = false →
          ∃ m, ms = [m] ∧ m.type = .index ∧ (readIndex m.body).1 = []))
      (fun S' => ¬ link.Up ∧ ∃ ms, S'.conn.sent = S.conn.sent ++ ms ∧
        (∀ i m, ms[i]? = some m →
          m.type = if i = 0 ∧ S.announced = false then .index else .indexUpdate) ∧
        (∀ m ∈ ms, (readIndex m.body).2 = false ∧ indexFolder m.body = folder) ∧
        ms.flatMap (fun m => (readIndex m.body).1) <+: (selected idx.table mode S.cursor).map readBack)
      (announceFolder link folder idx.table mode true S) := by
  have hreceived : ((selected idx.table mode S.cursor).map fun s => itemOf s.info s.blocks).map
      (fun x => x.1.received x.2) = (selected idx.table mode S.cursor).map readBack := by
    rw [List.map_map]
    rfl
  have hsendable := sendable_selected idx mode S.cursor
  rw [announceFolder, if_neg (by simp)]
  split
  · -- the fast path: nothing is in the range
    rename_i hfast
    have hnone : selected idx.table mode S.cursor = [] := by
      refine List.filter_eq_nil_iff.mpr fun s _ hs => ?_
      have hsel : Selected idx.table mode S.cursor s := by simpa using hs
      exact Int64.lt_irrefl (Int64.lt_of_lt_of_le hsel.1 (Int64.le_trans hsel.2.1 hfast.2))
    refine ⟨[], (List.append_nil _).symm, by simp, by simp, by simp [hnone], by simp [hnone], fun _ h => ?_⟩
    exact absurd (hfast.1.symm.trans h) (by simp)
  · have hpass := outcome_pass idx mode S.cursor link folder S.conn S.announced
    rw [itemsOf_range] at hpass
    split
    · rename_i s hs
      rw [hs] at hpass
      obtain ⟨gs, hsent, hflat, hnil⟩ := hpass.groups
      obtain ⟨hread, hentries⟩ := read_streamOf folder S.announced (hflat ▸ hsendable)
      refine ⟨streamOf folder S.announced gs, hsent, fun i m hm => type_streamOf S.announced gs hm, hread, ?_,
        fun s _ => hashes_readBack s, fun hsel hann => ?_⟩
      · rw [hentries, hflat, hreceived]
      · have hgs := hnil (by rw [hsel]; rfl)
        rw [hann] at hgs ⊢
        subst hgs
        refine ⟨_, rfl, rfl, ?_⟩
        rw [(readIndex_indexBytes folder (fun x (hx : x ∈ []) => absurd hx (by simp))).1]
        rfl
    · rename_i s hs
      rw [hs] at hpass
      obtain ⟨gs, hsent, hpre⟩ := hpass.groups
      have hsub : Sendable gs.flatten := fun x hx => hsendable x (hpre.subset hx)
      obtain ⟨hread, hentries⟩ := read_streamOf folder S.announced hsub
      refine ⟨hpass.down, streamOf folder S.announced gs, hsent.sent,
        fun i m hm => type_streamOf S.announced gs hm, hread, ?_⟩
      rw [hentries, ← hreceived]
      exact hpre.map _

end Stream

end Amisync

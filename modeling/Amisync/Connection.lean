import Amisync.Hello
import Amisync.Lib.Machine
import Mathlib.Logic.Function.Basic

/-!
# A connection of two devices (`bep_handshake`, `bep_send_message`, `bep_read_message`)

Both ends send a Hello at once and read the other's; from then on each sends messages as it
likes, also from the handler of a message it has read, and reads when it likes. The transport
takes and gives bytes in any parts and may break off at any time.

* `Link`, `Event`, `step`: the two ends, and the bytes on their way to each.
* `Passes`, `passes_sent`, `passes_cut`, `passes_read`: one direction.
* `Inv`, `inv_step`: both.
* `link_faithful`: what is read is what was sent, in its order, and a close is told at its end.
* `link_delivers`: what was sent can be read.
-/

namespace Amisync.Connection

open Amisync.Frame Greeting

/-! ## The two ends -/

/-- Why an end reads no more. -/
inductive Ended
  | hello (f : HelloFailure)
  | message (f : Failure)
  deriving DecidableEq

/-- `greeted` and `out` are what went out whole, `welcomed` and `inn` what was read; `shut`: nothing
more goes out. `body` is the body before the handler. -/
structure End where
  conn : Conn
  greeted : Option Hello
  welcomed : Option Hello
  out : List (Int32 × Bytes)
  inn : List (Int32 × Bytes)
  shut : Bool
  ended : Option Ended
  body : Option Bytes

/-- `pipe w`: the bytes on their way to end `w`. -/
structure Link where
  ends : Bool → End
  pipe : Bool → Bytes

/-- The last three: the handler is left, the end is closed, and that is all of `w`. -/
inductive Event
  | hello (w : Bool) (h : Hello) (accepts : Nat → Nat)
  | readHello (w : Bool) (granted : Bool) (answers : Nat → ReadAnswer)
  | send (w : Bool) (type : Int32) (msg : Bytes) (granted : Bool) (accepts : Nat → Nat)
  | read (w : Bool) (mem : ReadMem) (answers : Nat → ReadAnswer)
  | handled (w : Bool)
  | close (w : Bool)

/-- Failures for want of bytes: a read waits for them until the other end is shut. -/
def helloAtEnd : HelloFailure → Bool
  | .closedMidFrame _ => true
  | _ => false

def atEnd : Failure → Bool
  | .closed | .closedMidFrame _ => true
  | _ => false

namespace Link

def set (s : Link) (w : Bool) (e : End) : Link := { s with ends := Function.update s.ends w e }

/-- The end `w` has put bytes on their way. -/
def put (s : Link) (w : Bool) (e : End) (b : Bytes) : Link :=
  { ends := Function.update s.ends w e, pipe := Function.update s.pipe (!w) (s.pipe (!w) ++ b) }

/-- The end `w` has left the bytes `rest` to be read. -/
def leave (s : Link) (w : Bool) (e : End) (rest : Bytes) : Link :=
  { ends := Function.update s.ends w e, pipe := Function.update s.pipe w rest }

end Link

/-- `bep_handshake` sends a Hello, reads one, and only then are there messages. -/
def step (z : Lz4) (s : Link) : Event → Option Link
  | .hello w h accepts =>
    let e := s.ends w
    if e.shut = false ∧ e.greeted = none then
      let r := sendHello accepts h
      some (s.put w (if r.2 then { e with greeted := some h } else { e with shut := true }) r.1)
    else none
  | .readHello w granted answers =>
    let e := s.ends w
    if e.ended = none ∧ e.greeted ≠ none ∧ e.welcomed = none then
      match readHello granted answers e.conn (s.pipe w) with
      | .ok (h, conn, rest) => some (s.leave w { e with welcomed := some h, conn := conn } rest)
      | .error f =>
        if helloAtEnd f = true ∧ (s.ends (!w)).shut = false then none
        else some (s.set w { e with ended := some (.hello f) })
    else none
  | .send w type msg granted accepts =>
    let e := s.ends w
    if e.shut = false ∧ e.welcomed ≠ none then
      let r := sendMessage z granted accepts e.conn type msg
      some (s.put w (if r.ok then { e with conn := r.conn, out := e.out ++ [(type, msg)] }
        else { e with conn := r.conn, shut := true }) r.written)
    else none
  | .read w mem answers =>
    let e := s.ends w
    if e.ended = none ∧ e.welcomed ≠ none ∧ e.body = none then
      match readMessage z mem answers e.conn (s.pipe w) with
      | .ok m =>
        some (s.leave w { e with
          conn := { m.conn with inHandler := true }
          inn := e.inn ++ [(m.hdr.type, m.body)]
          body := some m.body } m.rest)
      | .error f =>
        if atEnd f = true ∧ (s.ends (!w)).shut = false then none
        else some (s.set w { e with ended := some (.message f) })
    else none
  | .handled w =>
    let e := s.ends w
    if e.body = none then none
    else some (s.set w { e with conn := { e.conn with inHandler := false }, body := none })
  | .close w => some (s.set w { s.ends w with shut := true })

/-- Two ends that have just been connected. -/
def connected (conns : Bool → Conn) : Link where
  ends w := {
    conn := conns w
    greeted := none
    welcomed := none
    out := []
    inn := []
    shut := false
    ended := none
    body := none }
  pipe _ := []

/-- The transport gives no bytes only at the end of the stream, and no message is larger than the
largest. -/
def Lawful : Event → Prop
  | .readHello _ _ answers => Chunked answers
  | .read _ _ answers => Chunked answers
  | .send _ _ msg _ _ => msg.length ≤ bepMsgMax
  | _ => True

/-! ## One direction -/

inductive Item
  | hello (h : Hello)
  | message (type : Int32) (msg : Bytes)
  deriving DecidableEq

def End.sent (e : End) : List Item := e.greeted.toList.map .hello ++ e.out.map fun x => .message x.1 x.2

def End.got (e : End) : List Item := e.welcomed.toList.map .hello ++ e.inn.map fun x => .message x.1 x.2

def Codes (z : Lz4) : Item → Bytes → Prop
  | .hello h, b => b = helloBytes h
  | .message type msg, b => Frames z type msg b

/-- What a send that failed has left behind. -/
def Cut (source : End) (part : Bytes) : Prop :=
  part = [] ∨ source.shut = true ∧
    ((source.greeted = none ∧ ∃ h, part <+: helloBytes h ∧ part.length < (helloBytes h).length) ∨
      (source.greeted ≠ none ∧ ∃ b, FrameWord b ∧ part <+: b ∧ part.length < b.length))

/-- What goes from one end to the other. -/
structure Passes (z : Lz4) (source dest : End) (pipe : Bytes) : Prop where
  flow : dest.ended = none → ∃ part, Pipe.Flow (Codes z) source.sent dest.got pipe part ∧ Cut source part
  before : dest.got <+: source.sent
  closed : dest.ended = some (.message .closed) → source.shut = true ∧ dest.got = source.sent

/-- How far an end has come. -/
structure Stage (e : End) : Prop where
  out : e.greeted = none → e.out = []
  inn : e.welcomed = none → e.inn = []
  greeted : e.welcomed ≠ none → e.greeted ≠ none
  body : ∀ b, e.body = some b → b <+: bodyBuffer e.conn ∧ e.conn.inHandler = true ∧
    ∃ type, e.inn.getLast? = some (type, b)

structure Inv (z : Lz4) (s : Link) : Prop where
  stage : ∀ w, Stage (s.ends w)
  passes : ∀ w, Passes z (s.ends !w) (s.ends w) (s.pipe w)

section Direction
variable {z : Lz4} {source source' dest dest' : End} {pipe : Bytes}

theorem passes_congr (h : Passes z source dest pipe) (hsent : source'.sent = source.sent)
    (hshut : source'.shut = source.shut) (hgreeted : source'.greeted = source.greeted)
    (hgot : dest'.got = dest.got) (hended : dest'.ended = dest.ended) : Passes z source' dest' pipe := by
  refine ⟨?_, ?_, ?_⟩
  · rw [hended, hsent, hgot]
    intro hn
    obtain ⟨part, hflow, hcut⟩ := h.flow hn
    refine ⟨part, hflow, ?_⟩
    unfold Cut
    rw [hshut, hgreeted]
    exact hcut
  · rw [hsent, hgot]
    exact h.before
  · rw [hended, hsent, hgot, hshut]
    exact h.closed

theorem part_nil {part : Bytes} (h : Cut source part) (hshut : source.shut = false) : part = [] := by
  rcases h with h | ⟨h, -⟩
  · exact h
  · exact absurd (hshut.symm.trans h) (by simp)

/-- **Sent.** -/
theorem passes_sent (h : Passes z source dest pipe) (hshut : source.shut = false) {i : Item} {b : Bytes}
    (hb : Codes z i b) (hsent : source'.sent = source.sent ++ [i]) : Passes z source' dest (pipe ++ b) := by
  refine ⟨fun hn => ?_, ?_, fun hc => ?_⟩
  · obtain ⟨part, hflow, hcut⟩ := h.flow hn
    obtain rfl := part_nil hcut hshut
    rw [hsent]
    exact ⟨[], Pipe.flow_send hflow hb, Or.inl rfl⟩
  · rw [hsent]
    exact h.before.trans (List.prefix_append _ _)
  · exact absurd (hshut.symm.trans (h.closed hc).1) (by simp)

/-- **Broken off.** -/
theorem passes_cut (h : Passes z source dest pipe) (hshut : source.shut = false) {part : Bytes}
    (hsent : source'.sent = source.sent) (hcut : Cut source' part) : Passes z source' dest (pipe ++ part) := by
  refine ⟨fun hn => ?_, ?_, fun hc => ?_⟩
  · obtain ⟨old, hflow, hold⟩ := h.flow hn
    obtain rfl := part_nil hold hshut
    rw [hsent]
    exact ⟨part, Pipe.flow_cut hflow part, hcut⟩
  · rw [hsent]
    exact h.before
  · exact absurd (hshut.symm.trans (h.closed hc).1) (by simp)

theorem passes_shut (h : Passes z source dest pipe) : Passes z { source with shut := true } dest pipe := by
  refine ⟨fun hn => ?_, h.before, fun hc => ⟨rfl, (h.closed hc).2⟩⟩
  obtain ⟨part, hflow, hcut⟩ := h.flow hn
  exact ⟨part, hflow, hcut.imp_right fun hq => ⟨rfl, hq.2⟩⟩

/-- **Read.** -/
theorem passes_read {i : Item} {rest part : Bytes}
    (h : Pipe.Flow (Codes z) source.sent (dest.got ++ [i]) rest part) (hcut : Cut source part)
    (hended : dest'.ended = none) (hgot : dest'.got = dest.got ++ [i]) : Passes z source dest' rest := by
  refine ⟨fun _ => ?_, ?_, fun hc => absurd (hended.symm.trans hc) (by simp)⟩
  · rw [hgot]
    exact ⟨part, h, hcut⟩
  · rw [hgot]
    exact h.isPrefix

end Direction

/-! ## Both directions -/

section Both
variable {z : Lz4} {s : Link} {w : Bool} {e : End}

/-- An end and the bytes to it and from it change. -/
theorem inv_of_end (h : Inv z s) {pipe : Bool → Bytes} (hstage : Stage e)
    (hfrom : Passes z e (s.ends !w) (pipe !w)) (hto : Passes z (s.ends !w) e (pipe w)) :
    Inv z { ends := Function.update s.ends w e, pipe := pipe } := by
  have hne : (!w) ≠ w := by cases w <;> simp
  refine ⟨fun v => ?_, fun v => ?_⟩
  · by_cases hv : v = w
    · subst hv
      simpa using hstage
    · simpa [Function.update_of_ne hv] using h.stage v
  · by_cases hv : v = w
    · subst hv
      simpa [Function.update_of_ne hne] using hto
    · obtain rfl : v = !w := by
        cases v <;> cases w <;> simp_all
      simpa [Function.update_of_ne hne] using hfrom

theorem inv_set (h : Inv z s) (hstage : Stage e) (hfrom : Passes z e (s.ends !w) (s.pipe !w))
    (hto : Passes z (s.ends !w) e (s.pipe w)) : Inv z (s.set w e) :=
  inv_of_end h hstage hfrom hto

theorem inv_put (h : Inv z s) {b : Bytes} (hstage : Stage e) (hfrom : Passes z e (s.ends !w) (s.pipe (!w) ++ b))
    (hto : Passes z (s.ends !w) e (s.pipe w)) : Inv z (s.put w e b) := by
  have hne : w ≠ (!w) := by cases w <;> simp
  refine inv_of_end h hstage ?_ ?_
  · simpa using hfrom
  · simpa [Function.update_of_ne hne] using hto

theorem inv_leave (h : Inv z s) {rest : Bytes} (hstage : Stage e) (hfrom : Passes z e (s.ends !w) (s.pipe !w))
    (hto : Passes z (s.ends !w) e rest) : Inv z (s.leave w e rest) := by
  have hne : (!w) ≠ w := by cases w <;> simp
  refine inv_of_end h hstage ?_ ?_
  · simpa [Function.update_of_ne hne] using hfrom
  · simpa using hto

/-- What an end is sent, seen from it. -/
theorem passes_to (h : Inv z s) (w : Bool) : Passes z (s.ends !w) (s.ends w) (s.pipe w) := h.passes w

theorem passes_from (h : Inv z s) (w : Bool) : Passes z (s.ends w) (s.ends !w) (s.pipe !w) := by
  have hq := h.passes (!w)
  rwa [Bool.not_not] at hq

/-- Nothing has gone out before the Hello. -/
theorem sent_of_fresh (h : Stage e) (hgreeted : e.greeted = none) : e.sent = [] := by
  simp [End.sent, hgreeted, h.out hgreeted]

theorem got_of_fresh (h : Stage e) (hwelcomed : e.welcomed = none) : e.got = [] := by
  simp [End.got, hwelcomed, h.inn hwelcomed]

/-- The first that an end sends is its Hello. -/
theorem hello_of_first (h : Stage e) {i : Item} {later : List Item} (hsent : e.sent = [] ++ i :: later) :
    ∃ g, i = .hello g := by
  cases hg : e.greeted with
  | none =>
    rw [sent_of_fresh h hg] at hsent
    exact absurd hsent (by simp)
  | some g =>
    simp [End.sent, hg] at hsent
    exact ⟨g, hsent.1.symm⟩

/-- What it sends after that are messages. -/
theorem message_of_behind {before later : List Item} {i : Item} (hbefore : before ≠ [])
    (hsent : e.sent = before ++ i :: later) : ∃ type msg, i = .message type msg := by
  have hmem : i ∈ e.sent.tail := by
    rw [hsent, List.tail_append_of_ne_nil hbefore]
    simp
  have hout : i ∈ e.out.map fun x => Item.message x.1 x.2 := by
    unfold End.sent at hmem
    cases hg : e.greeted with
    | none =>
      rw [hg] at hmem
      exact List.mem_of_mem_tail hmem
    | some g =>
      rw [hg] at hmem
      exact hmem
  obtain ⟨x, -, rfl⟩ := List.mem_map.mp hout
  exact ⟨x.1, x.2, rfl⟩

/-! ### The steps -/

theorem inv_hello (h : Inv z s) (hshut : (s.ends w).shut = false) (hgreeted : (s.ends w).greeted = none)
    (hello : Hello) (accepts : Nat → Nat) :
    Inv z (s.put w (if (sendHello accepts hello).2 then { s.ends w with greeted := some hello }
      else { s.ends w with shut := true }) (sendHello accepts hello).1) := by
  have hst := h.stage w
  have hfrom := passes_from h w
  rw [sendHello_eq]
  cases hok : (writeFull accepts (helloBytes hello).length 0 (helloBytes hello)).2.2 with
  | true =>
    rw [if_pos rfl, writeFull_ok hok]
    refine inv_put h ⟨by simp, hst.inn, by simp, hst.body⟩ ?_ ?_
    · refine passes_sent hfrom hshut (i := .hello hello) rfl ?_
      rw [sent_of_fresh hst hgreeted]
      simp [End.sent, hst.out hgreeted]
    · exact passes_congr (passes_to h w) rfl rfl rfl rfl rfl
  | false =>
    obtain ⟨hpart, hshort⟩ := writeFull_part hok
    rw [if_neg (by simp)]
    refine inv_put h ⟨hst.out, hst.inn, hst.greeted, hst.body⟩ ?_ ?_
    · exact passes_cut hfrom hshut rfl (Or.inr ⟨rfl, Or.inl ⟨hgreeted, hello, hpart, hshort⟩⟩)
    · exact passes_congr (passes_to h w) rfl rfl rfl rfl rfl

theorem inv_send (hz : z.Inverts) (h : Inv z s) (hshut : (s.ends w).shut = false)
    (hwelcomed : (s.ends w).welcomed ≠ none) {type : Int32} {msg : Bytes} (hlen : msg.length ≤ bepMsgMax)
    (granted : Bool) (accepts : Nat → Nat) {r : Sent}
    (hr : r = sendMessage z granted accepts (s.ends w).conn type msg) :
    Inv z (s.put w (if r.ok then { s.ends w with conn := r.conn, out := (s.ends w).out ++ [(type, msg)] }
      else { s.ends w with conn := r.conn, shut := true }) r.written) := by
  have hst := h.stage w
  have hgreeted := hst.greeted hwelcomed
  have hfrom := passes_from h w
  have hbody : ∀ b, (s.ends w).body = some b → b <+: bodyBuffer r.conn ∧ r.conn.inHandler = true ∧
      ∃ type, (s.ends w).inn.getLast? = some (type, b) := by
    intro b hb
    obtain ⟨hbuf, hhandler, hlast⟩ := hst.body b hb
    have hsame : bodyBuffer r.conn = bodyBuffer (s.ends w).conn ∧ r.conn.inHandler = true := by
      rw [hr]
      exact sendMessage_buffer hhandler
    exact ⟨hsame.1 ▸ hbuf, hsame.2, hlast⟩
  cases hok : r.ok with
  | true =>
    have hframes := frames_sent hz hlen (hr ▸ hok)
    rw [← hr] at hframes
    rw [if_pos rfl]
    refine inv_put h ⟨fun hn => absurd hn hgreeted, hst.inn, fun _ => hgreeted, hbody⟩ ?_ ?_
    · refine passes_sent hfrom hshut (i := .message type msg) hframes ?_
      simp [End.sent]
    · exact passes_congr (passes_to h w) rfl rfl rfl rfl rfl
  | false =>
    obtain ⟨hdr, body, hchosen, hpart, hshort⟩ := sendMessage_part (hr ▸ hok)
    rw [← hr] at hpart hshort
    have hword : FrameWord (frameBytes hdr body) := by
      refine frameWord_frameBytes hdr ?_
      rw [hchosen]
      exact length_chooseBody hlen
    rw [if_neg (by simp)]
    refine inv_put h ⟨hst.out, hst.inn, hst.greeted, hbody⟩ ?_ ?_
    · exact passes_cut hfrom hshut rfl (Or.inr ⟨rfl, Or.inr ⟨hgreeted, _, hword, hpart, hshort⟩⟩)
    · exact passes_congr (passes_to h w) rfl rfl rfl rfl rfl

/-- The first that is read is a Hello. -/
theorem inv_readHello (h : Inv z s) (hended : (s.ends w).ended = none) (hgreeted : (s.ends w).greeted ≠ none)
    (hwelcomed : (s.ends w).welcomed = none) {granted : Bool} {answers : Nat → ReadAnswer} {hello : Hello}
    {conn : Conn} {rest : Bytes}
    (hread : readHello granted answers (s.ends w).conn (s.pipe w) = .ok (hello, conn, rest)) :
    Inv z (s.leave w { s.ends w with welcomed := some hello, conn := conn } rest) := by
  have hst := h.stage w
  have hother := h.stage (!w)
  obtain ⟨part, hflow, hcut⟩ := (passes_to h w).flow hended
  have hgot := got_of_fresh hst hwelcomed
  rw [hgot] at hflow
  have hpassed : ∃ i b rest' later, Codes z i b ∧ s.pipe w = b ++ rest' ∧ (s.ends !w).sent = [] ++ i :: later ∧
      Pipe.Flow (Codes z) (s.ends !w).sent ([] ++ [i]) rest' part := by
    rcases Pipe.flow_read hflow with ⟨hnone, hpipe⟩ | hsome
    · exfalso
      rw [hpipe] at hread
      rcases hcut with rfl | ⟨-, hpart⟩
      · exact readHello_cut (h := Hello.zero) List.nil_prefix (by
          rw [length_helloBytes, List.length_nil]; omega) _ hread
      · rcases hpart with ⟨-, g, hpart, hshort⟩ | ⟨hno, -⟩
        · exact readHello_cut hpart hshort _ hread
        · cases hg : (s.ends !w).greeted with
          | none => exact hno hg
          | some g => simp [End.sent, hg] at hnone
    · exact hsome
  obtain ⟨i, b, rest', later, hb, hpipe, hsent, hrest⟩ := hpassed
  obtain ⟨g, rfl⟩ := hello_of_first hother hsent
  obtain rfl : b = helloBytes g := hb
  rw [hpipe] at hread
  obtain ⟨rfl, rfl⟩ := read_hello hread
  obtain ⟨-, -, -, -, -, -, -, hconn⟩ := readHello_ok hread
  refine inv_leave h ⟨hst.out, by simp, fun _ => hgreeted, fun b hb => ?_⟩ ?_ ?_
  · exact absurd (hst.body b hb).2.2 (by simp [hst.inn hwelcomed])
  · exact passes_congr (passes_from h w) rfl rfl rfl rfl rfl
  · have hnext : Pipe.Flow (Codes z) (s.ends !w).sent ((s.ends w).got ++ [.hello hello]) rest part := by
      rwa [hgot]
    refine passes_read hnext hcut hended ?_
    rw [hgot]
    simp [End.got, hst.inn hwelcomed]

/-- What is read behind the Hello is a message. -/
theorem inv_read (h : Inv z s) (hended : (s.ends w).ended = none) (hwelcomed : (s.ends w).welcomed ≠ none)
    {mem : ReadMem} {answers : Nat → ReadAnswer} {m : Message}
    (hread : readMessage z mem answers (s.ends w).conn (s.pipe w) = .ok m) :
    Inv z (s.leave w { s.ends w with
      conn := { m.conn with inHandler := true }
      inn := (s.ends w).inn ++ [(m.hdr.type, m.body)]
      body := some m.body } m.rest) := by
  have hst := h.stage w
  obtain ⟨part, hflow, hcut⟩ := (passes_to h w).flow hended
  obtain ⟨hello, hhello⟩ := Option.ne_none_iff_exists'.mp hwelcomed
  have hgot : (s.ends w).got ≠ [] := by simp [End.got, hhello]
  have hpassed : ∃ i b rest later, Codes z i b ∧ s.pipe w = b ++ rest ∧
      (s.ends !w).sent = (s.ends w).got ++ i :: later ∧
      Pipe.Flow (Codes z) (s.ends !w).sent ((s.ends w).got ++ [i]) rest part := by
    rcases Pipe.flow_read hflow with ⟨hnone, hpipe⟩ | hsome
    · exfalso
      rw [hpipe] at hread
      rcases hcut with rfl | ⟨-, hpart⟩
      · have hnil : FrameWord (frameBytes ⟨0, 0⟩ []) := frameWord_frameBytes ⟨0, 0⟩ (Nat.zero_le _)
        refine read_cut hnil List.nil_prefix ?_ hread
        simp only [frameBytes, List.length_append, Words.length_put16, List.length_nil]
        omega
      · rcases hpart with ⟨hno, -⟩ | ⟨-, b, hword, hpart, hshort⟩
        · exact hgot (by rw [← hnone, sent_of_fresh (h.stage !w) hno])
        · exact read_cut hword hpart hshort hread
    · exact hsome
  obtain ⟨i, b, rest, later, hb, hpipe, hsent, hrest⟩ := hpassed
  obtain ⟨type, msg, rfl⟩ := message_of_behind hgot hsent
  rw [hpipe] at hread
  obtain ⟨htype, hmsg, hrest'⟩ := read_frames hb hread
  refine inv_leave h ⟨hst.out, fun hn => absurd hn hwelcomed, hst.greeted, fun b hb => ?_⟩ ?_ ?_
  · obtain rfl := Option.some.inj hb
    exact ⟨readMessage_buffer hread, rfl, m.hdr.type, by simp⟩
  · exact passes_congr (passes_from h w) rfl rfl rfl rfl rfl
  · rw [hrest']
    refine passes_read hrest hcut hended ?_
    simp [End.got, htype, hmsg]

/-- A close between two frames is told where everything has been read. -/
theorem got_of_closed (h : Inv z s) (hended : (s.ends w).ended = none) {mem : ReadMem} {answers : Nat → ReadAnswer}
    (hchunk : Chunked answers) (hread : readMessage z mem answers (s.ends w).conn (s.pipe w) = .error .closed) :
    (s.ends w).got = (s.ends !w).sent := by
  obtain ⟨part, hflow, -⟩ := (passes_to h w).flow hended
  rcases Pipe.flow_read hflow with ⟨hall, -⟩ | ⟨i, b, rest, -, hb, hpipe, -, -⟩
  · exact hall.symm
  · have hshort := readFull_eof hchunk ((readMessage_closed_iff _ _ _ _ _).mp hread)
    rw [hpipe, List.length_append] at hshort
    have hlong : 6 ≤ b.length := by
      cases i with
      | hello g =>
        obtain rfl : b = helloBytes g := hb
        rw [length_helloBytes]
        omega
      | message type msg =>
        obtain ⟨hdr, body, -, rfl, -⟩ := hb.frame
        simp only [frameBytes, List.length_append, Words.length_put16, Words.length_put32]
        omega
    omega

/-- An end reads no more. -/
theorem inv_ended (h : Inv z s) {ended : Ended}
    (hclosed : ended = .message .closed → (s.ends !w).shut = true ∧ (s.ends w).got = (s.ends !w).sent) :
    Inv z (s.set w { s.ends w with ended := some ended }) := by
  have hst := h.stage w
  refine inv_set h ⟨hst.out, hst.inn, hst.greeted, hst.body⟩ ?_ ?_
  · exact passes_congr (passes_from h w) rfl rfl rfl rfl rfl
  · exact ⟨fun hn => absurd hn (by simp), (passes_to h w).before, fun hc => hclosed (Option.some.inj hc)⟩

/-- **Step.** -/
theorem inv_step (hz : z.Inverts) (s : Link) (e : Event) (t : Link) (h : Inv z s) (hlaw : Lawful e)
    (hstep : step z s e = some t) : Inv z t := by
  cases e with
  | hello w hello accepts =>
    simp only [step] at hstep
    split at hstep
    · rename_i hopen
      exact Option.some.inj hstep ▸ inv_hello h hopen.1 hopen.2 hello accepts
    · exact absurd hstep (by simp)
  | readHello w granted answers =>
    simp only [step] at hstep
    split at hstep
    · rename_i hopen
      split at hstep
      · rename_i hello conn rest hread
        exact Option.some.inj hstep ▸ inv_readHello h hopen.1 hopen.2.1 hopen.2.2 hread
      · split at hstep
        · exact absurd hstep (by simp)
        · exact Option.some.inj hstep ▸ inv_ended h fun hc => absurd hc (by simp)
    · exact absurd hstep (by simp)
  | send w type msg granted accepts =>
    simp only [step] at hstep
    split at hstep
    · rename_i hopen
      exact Option.some.inj hstep ▸ inv_send hz h hopen.1 hopen.2 hlaw granted accepts rfl
    · exact absurd hstep (by simp)
  | read w mem answers =>
    simp only [step] at hstep
    split at hstep
    · rename_i hopen
      split at hstep
      · rename_i m hread
        exact Option.some.inj hstep ▸ inv_read h hopen.1 hopen.2.1 hread
      · rename_i f hread
        split at hstep
        · exact absurd hstep (by simp)
        · rename_i hwait
          obtain rfl := Option.some.inj hstep
          refine inv_ended h fun hc => ?_
          obtain rfl : f = .closed := by simpa using hc
          refine ⟨?_, got_of_closed h hopen.1 hlaw hread⟩
          rw [← Bool.not_eq_false]
          exact fun hno => hwait ⟨rfl, hno⟩
    · exact absurd hstep (by simp)
  | handled w =>
    simp only [step] at hstep
    split at hstep
    · exact absurd hstep (by simp)
    · have hst := h.stage w
      obtain rfl := Option.some.inj hstep
      refine inv_set h ⟨hst.out, hst.inn, hst.greeted, by simp⟩ ?_ ?_
      · exact passes_congr (passes_from h w) rfl rfl rfl rfl rfl
      · exact passes_congr (passes_to h w) rfl rfl rfl rfl rfl
  | close w =>
    have hst := h.stage w
    obtain rfl := Option.some.inj hstep
    refine inv_set h ⟨hst.out, hst.inn, hst.greeted, hst.body⟩ ?_ ?_
    · exact passes_shut (passes_from h w)
    · exact passes_congr (passes_to h w) rfl rfl rfl rfl rfl

/-- **Run.** -/
theorem inv_run (hz : z.Inverts) {conns : Bool → Conn} {es : List Event} (hlaw : ∀ e ∈ es, Lawful e)
    (hrun : Machine.run (step z) (connected conns) es = some s) : Inv z s := by
  refine Machine.run_inv_along (C := fun _ e => Lawful e) (fun s e t h hl hstep => inv_step hz s e t h hl hstep)
    (Machine.along_of_forall hlaw _) hrun ⟨fun w => ?_, fun w => ?_⟩
  · exact ⟨fun _ => rfl, fun _ => rfl, by simp [connected], by simp [connected]⟩
  · exact ⟨fun _ => ⟨[], Pipe.flow_empty, Or.inl rfl⟩, List.prefix_rfl, by simp [connected]⟩

end Both

/-! ## The main results -/

/-- **Nothing is lost, doubled or changed.** After each run, what an end has read is the beginning of
what the other has sent; where it was told of a close between two frames, it is all of it, and no
more is sent; and a body that is being handled is still in its buffer, whatever has been sent
since. -/
theorem link_faithful (z : Lz4) (hz : z.Inverts) (conns : Bool → Conn) (es : List Event)
    (hlaw : ∀ e ∈ es, Lawful e) {s : Link} (hrun : Machine.run (step z) (connected conns) es = some s) (w : Bool) :
    (s.ends w).got <+: (s.ends !w).sent ∧
      ((s.ends w).ended = some (.message .closed) →
        (s.ends !w).shut = true ∧ (s.ends w).got = (s.ends !w).sent) ∧
      ∀ b, (s.ends w).body = some b → b <+: bodyBuffer (s.ends w).conn ∧
        ∃ type, (s.ends w).got.getLast? = some (.message type b) := by
  have h := inv_run hz hlaw hrun
  refine ⟨(passes_to h w).before, (passes_to h w).closed, fun b hb => ?_⟩
  obtain ⟨hbuf, -, type, hlast⟩ := (h.stage w).body b hb
  refine ⟨hbuf, type, ?_⟩
  have hne : (s.ends w).inn ≠ [] := fun hn => by simp [hn] at hlast
  rw [End.got, List.getLast?_append_of_ne_nil _ (by simpa using hne), List.getLast?_map, hlast]
  rfl

def sampleHello : Hello := ⟨.ofBytes _ [65], .ofBytes _ [66], .ofBytes _ [49]⟩

/-- Both ends greet, and one sends a message of three bytes. -/
def sampleRun : List Event :=
  [.hello false sampleHello fun _ => 4, .hello true sampleHello fun _ => 100,
    .readHello true true fun _ => .got 1, .readHello false true fun _ => .got 9,
    .send false 6 [1, 2, 3] true fun _ => 2]

/-- The message is read and handled; then the first end closes. -/
def sampleEnd : List Event :=
  [.read true ⟨true, true, true⟩ fun _ => .got 1, .handled true, .close false,
    .read true ⟨true, true, true⟩ fun _ => .got 1]

theorem lawful_sample : ∀ e ∈ sampleRun ++ sampleEnd, Lawful e := by
  have hgot : ∀ n, n ≠ 0 → Chunked fun _ => .got n := by
    intro n hn i hi
    exact hn (by simpa using hi)
  intro e he
  simp only [sampleRun, sampleEnd, List.cons_append, List.nil_append, List.mem_cons, List.not_mem_nil, or_false] at he
  rcases he with rfl | rfl | rfl | rfl | rfl | rfl | rfl | rfl | rfl
  · trivial
  · trivial
  · exact hgot 1 (by decide)
  · exact hgot 9 (by decide)
  · exact Nat.le_of_ble_eq_true rfl
  · exact hgot 1 (by decide)
  · trivial
  · trivial
  · exact hgot 1 (by decide)

theorem link_faithful_sample :
    ∃ s, Machine.run (step zerosLz4) (connected fun _ => freshConn) (sampleRun ++ sampleEnd) = some s ∧
      (s.ends true).got = [.hello sampleHello, .message 6 [1, 2, 3]] ∧ (s.ends true).got = (s.ends false).sent := by
  have hfacts : ((Machine.run (step zerosLz4) (connected fun _ => freshConn) (sampleRun ++ sampleEnd)).any fun s =>
      decide ((s.ends true).got = [.hello sampleHello, .message 6 [1, 2, 3]]) &&
        decide ((s.ends true).ended = some (.message .closed))) = true := by decide +kernel
  obtain ⟨s, hs, hstate⟩ := (Option.any_eq_true _ _).mp hfacts
  simp only [Bool.and_eq_true, decide_eq_true_eq] at hstate
  exact ⟨s, hs, hstate.1, ((link_faithful zerosLz4 zerosLz4_inverts (fun _ => freshConn) (sampleRun ++ sampleEnd)
    lawful_sample hs true).2.1 hstate.2).2⟩

/-- **Delivery.** After each run, where an end has not read all that was sent, has sent its own Hello
and has no body to handle: with memory and a transport that gives bytes, its next read gives the
next. -/
theorem link_delivers (z : Lz4) (hz : z.Inverts) (conns : Bool → Conn) (es : List Event)
    (hlaw : ∀ e ∈ es, Lawful e) {s : Link} (hrun : Machine.run (step z) (connected conns) es = some s) (w : Bool)
    (hended : (s.ends w).ended = none) (hgreeted : (s.ends w).greeted ≠ none) (hbody : (s.ends w).body = none)
    (hmore : (s.ends w).got ≠ (s.ends !w).sent) {mem : ReadMem} (hmem : mem.Granted)
    {answers : Nat → ReadAnswer} (hpos : Positive answers) :
    ∃ t i, step z s (if (s.ends w).welcomed = none then .readHello w true answers else .read w mem answers) = some t ∧
      (t.ends w).got = (s.ends w).got ++ [i] ∧ (s.ends w).got ++ [i] <+: (s.ends !w).sent := by
  have h := inv_run hz hlaw hrun
  have hst := h.stage w
  obtain ⟨part, hflow, -⟩ := (passes_to h w).flow hended
  rcases Pipe.flow_read hflow with ⟨hall, -⟩ | ⟨i, b, rest, later, hb, hpipe, hsent, hrest⟩
  · exact absurd hall.symm hmore
  · cases hwelcomed : (s.ends w).welcomed with
    | none =>
      rw [if_pos rfl]
      rw [got_of_fresh hst hwelcomed] at hsent
      obtain ⟨g, rfl⟩ := hello_of_first (h.stage !w) hsent
      obtain rfl : b = helloBytes g := hb
      obtain ⟨conn, hread⟩ := readHello_frame (c := (s.ends w).conn) hpos g rest
      rw [← hpipe] at hread
      refine ⟨s.leave w { s.ends w with welcomed := some g, conn := conn } rest, .hello g, ?_, ?_, hrest.isPrefix⟩
      · simp only [step]
        rw [if_pos ⟨hended, hgreeted, hwelcomed⟩, hread]
      · simp [Link.leave, End.got, hst.inn hwelcomed, hwelcomed]
    | some g =>
      rw [if_neg (by simp)]
      obtain ⟨type, msg, rfl⟩ := message_of_behind (by simp [End.got, hwelcomed]) hsent
      obtain ⟨m, hread, htype, hmsg⟩ := readMessage_positive (c := (s.ends w).conn) hmem hpos hb rest
      rw [← hpipe] at hread
      refine ⟨s.leave w { s.ends w with
        conn := { m.conn with inHandler := true }
        inn := (s.ends w).inn ++ [(m.hdr.type, m.body)]
        body := some m.body } m.rest, .message type msg, ?_, ?_, hrest.isPrefix⟩
      · simp only [step]
        rw [if_pos ⟨hended, by simp [hwelcomed], hbody⟩, hread]
      · simp [Link.leave, End.got, hwelcomed, htype, hmsg]

theorem link_delivers_sample :
    ∃ s t i, Machine.run (step zerosLz4) (connected fun _ => freshConn) sampleRun = some s ∧
      step zerosLz4 s (.read true ⟨true, true, true⟩ fun _ => .got 1) = some t ∧
      (t.ends true).got = (s.ends true).got ++ [i] := by
  have hfacts : ((Machine.run (step zerosLz4) (connected fun _ => freshConn) sampleRun).any fun s =>
      decide ((s.ends true).ended = none) && decide ((s.ends true).greeted ≠ none) &&
        decide ((s.ends true).body = none) && decide ((s.ends true).got ≠ (s.ends false).sent) &&
        decide ((s.ends true).welcomed ≠ none)) = true := by decide +kernel
  obtain ⟨s, hs, hstate⟩ := (Option.any_eq_true _ _).mp hfacts
  simp only [Bool.and_eq_true, decide_eq_true_eq] at hstate
  obtain ⟨⟨⟨⟨hended, hgreeted⟩, hbody⟩, hmore⟩, hwelcomed⟩ := hstate
  have hmem : ReadMem.Granted ⟨true, true, true⟩ := ⟨rfl, rfl, rfl⟩
  have hpos : Positive fun _ => .got 1 := fun _ => ⟨1, Nat.one_pos, rfl⟩
  obtain ⟨t, i, hstep, hgot, -⟩ := link_delivers zerosLz4 zerosLz4_inverts (fun _ => freshConn) sampleRun
    (fun e he => lawful_sample e (List.mem_append_left _ he)) hs true hended hgreeted hbody hmore
    hmem hpos
  rw [if_neg hwelcomed] at hstep
  exact ⟨s, t, i, hs, hstep, hgot⟩

end Amisync.Connection

import Amisync.DeviceCodec
import Amisync.Disco
import Amisync.Lib.Machine
import Amisync.Lib.Ring
import Amisync.PeerCalls

/-!
# From an announcement to the daemon (`disco.c`, `drain_discovered`)

Each device broadcasts its key and its port. What is heard goes through a message port to the
daemon: a configured peer is dialled, and any other device is kept in a table of the last
sixteen.

* `discoBuildAnnounce`, `discoRecvAnnounce`: the two ends of a datagram.
* `announce_heard`: the announcement of one device at another.
* `discoSeenAdd`, `order_seenAdd`: the table.
* `sightings_run`: the table after any datagrams.
* `announcement_arrives`: a configured peer gets the address it announced from.
-/

namespace Amisync.Disco

open Ctype Pbuf ConfigFile Peer

def discoSeenMax : Nat := 16
def discoHostMax : Nat := configHostMax

/-! ## The datagram -/

/-- `disco_build_announce`; `none` stands for no bytes. -/
def discoBuildAnnounce (cap : Nat) (idRaw : Bytes) (addresses : List Str) (instanceId : Int64) : Option Bytes :=
  if cap < 4 then none
  else
    let w := (Writer.init (cap - 4)).writeBytes 1 idRaw
    let w := addresses.foldl (fun w a => w.writeBytes 2 a) w
    let w := if instanceId ≠ 0 then w.writeInt64 3 instanceId else w
    if w.error then none
    else some ([(discoMagic >>> 24).toUInt8, (discoMagic >>> 16).toUInt8, (discoMagic >>> 8).toUInt8,
      discoMagic.toUInt8] ++ w.buf)

/-- `sprintf(addr, "tcp://0.0.0.0:%u", listen_port)` -/
def announceAddr (listenPort : Nat) : Str := ascii "tcp://0.0.0.0:" ++ decimal listenPort

/-- `DISCO_FOUND` is a configured peer. -/
inductive DiscoEventKind
  | found
  | seen
  deriving DecidableEq

structure DiscoEvent where
  kind : DiscoEventKind
  id : Str
  host : Str
  port : Nat
  deriving DecidableEq

/-- What `post_disco` puts into the message. -/
def postDisco (kind : DiscoEventKind) (id host : Str) (port : Nat) : DiscoEvent :=
  ⟨kind, setField deviceIdBufsz id, setField discoHostMax host, port⟩

/-- `disco_recv_announce`. `source`: where the datagram came from, if that can be written down. -/
def discoRecvAnnounce (peers : List ConfigPeer) (pkt : Bytes) (source : Option Str) : Option DiscoEvent :=
  match discoParseAnnounce 96 pkt with
  | none => none
  | some (idRaw, addr0) =>
    if addr0 = [] then none
    else match discoParseTcpAddr 64 addr0 with
      | none => none
      | some (host, port) =>
        match if host = ascii "0.0.0.0" then source.map (setField 64) else some host with
        | none => none
        | some host =>
          match peers.find? fun p => decide (deviceIdToRaw p.id = some idRaw) with
          | some p => some (postDisco .found p.id host port)
          | none => some (postDisco .seen (deviceIdFromRaw idRaw) host port)

/-! ## The table -/

structure DiscoSeenEntry where
  id : Str
  host : Str
  port : Nat
  deriving DecidableEq

/-- `e`, `n` and `next`. -/
abbrev DiscoSeenList := RingBuffer DiscoSeenEntry

def noneSeen : DiscoSeenList := ⟨List.replicate discoSeenMax ⟨[], [], 0⟩, 0, 0⟩

/-- `disco_seen_add` -/
def discoSeenAdd (l : DiscoSeenList) (id host : Str) (port : Nat) : Bool × DiscoSeenList :=
  if id = [] then (false, l)
  else match (l.cells.take l.count).findIdx? fun e => decide (e.id = id) with
    | some i =>
      (false,
        { l with cells := l.cells.modify i fun e => { e with host := setField discoHostMax host, port := port } })
    | none => (true, l.push ⟨setField deviceIdBufsz id, setField discoHostMax host, port⟩)

/-! ## The run -/

/-- `port` are the messages in `found_port`, `found` the addresses `peer_manager_discovered` has been
called with. `noted` is no part of the program: the sightings that have been drained. -/
structure Watch where
  port : List DiscoEvent
  seen : DiscoSeenList
  found : List DiscoEvent
  noted : List DiscoSeenEntry

/-- The configured peers may change from one datagram to the next; `granted`: there is memory for the
message. -/
inductive Event
  | datagram (peers : List ConfigPeer) (pkt : Bytes) (source : Option Str) (granted : Bool)
  | drain

def step (s : Watch) : Event → Option Watch
  | .datagram peers pkt source granted =>
    match discoRecvAnnounce peers pkt source with
    | none => some s
    | some e => some (if granted then { s with port := s.port ++ [e] } else s)
  | .drain =>
    match s.port with
    | [] => none
    | e :: port =>
      match e.kind with
      | .seen =>
        some { s with
          port := port
          seen := (discoSeenAdd s.seen e.id e.host e.port).2
          noted := s.noted ++ [⟨e.id, e.host, e.port⟩] }
      | .found => some { s with port := port, found := s.found ++ [e] }

def watchStart : Watch := ⟨[], noneSeen, [], []⟩

/-! ## What is announced is heard -/

section Announce
variable {key : Bytes} {p : Nat}

def announceFieldList (key : Bytes) (addr : Str) (iid : Int64) : List Field :=
  [.data 1 key, .data 2 addr] ++ optional (iid ≠ 0) (.num 3 iid.toUInt64)

def announceBody (key : Bytes) (addr : Str) (iid : Int64) : Bytes :=
  (announceFieldList key addr iid).flatMap Field.bytes

theorem length_announceAddr (hp : p < 10 ^ 5) : (announceAddr p).length ≤ 19 := by
  have hlen := length_decimal_le (k := 5) (by decide) hp
  have hprefix : (ascii "tcp://0.0.0.0:").length = 14 := by decide
  rw [announceAddr, List.length_append]
  omega

theorem length_announceBody (hkey : key.length = 32) {addr : Str} (haddr : addr.length ≤ 19) (iid : Int64) :
    (announceBody key addr iid).length ≤ 70 := by
  have h1 := length_data_short (f := 1) key (by decide) (by omega)
  have h2 := length_data_short (f := 2) addr (by decide) (by omega)
  have h3 := length_optional_le (p := iid ≠ 0) (length_num_le (f := 3) iid.toUInt64 (by decide))
  rw [announceBody, announceFieldList]
  simp only [List.cons_append, List.nil_append, List.flatMap_cons, List.length_append]
  omega

theorem discoBuildAnnounce_eq (hkey : key.length = 32) {addr : Str} (haddr : addr.length ≤ 19) (iid : Int64) :
    discoBuildAnnounce 512 key [addr] iid = some ([0x2E, 0xA7, 0xD9, 0x0B] ++ announceBody key addr iid) := by
  have h2 := ((Writer.wrote_init 508).writeBytes 1 key).writeBytes 2 addr
  have h3 := Wrote.optional (p := iid ≠ 0) h2 (h2.writeUint64 3 iid.toUInt64)
  have hbody : announceBody key addr iid = [] ++ (Field.data 1 key).bytes ++ (Field.data 2 addr).bytes ++
      (optional (iid ≠ 0) (Field.num 3 iid.toUInt64)).flatMap Field.bytes := by
    simp only [announceBody, announceFieldList, List.cons_append, List.nil_append, List.flatMap_cons,
      List.append_assoc]
  rw [← hbody] at h3
  have hlen := length_announceBody hkey haddr iid
  have hret : ∀ w : Writer, Writer.Wrote 508 w (announceBody key addr iid) →
      (if w.error then none else some ([0x2E, 0xA7, 0xD9, 0x0B] ++ w.buf)) =
        some ([0x2E, 0xA7, 0xD9, 0x0B] ++ announceBody key addr iid) := by
    intro w hw
    have herr := hw.fits.mpr (by omega)
    rw [herr, hw.buf herr]
    rfl
  exact hret _ h3

theorem announceFields_cons {f : Field} (hf : f.Sized) (addrcap fuel : Nat) (a : Announce) (rest : Bytes) :
    announceFields addrcap (fuel + 1) a (f.bytes ++ rest) =
      announceFields addrcap fuel (announceField addrcap a f.number f.value) rest := by
  rw [Field.bytes, List.append_assoc, announceFields, readTag_put]
  dsimp only
  rw [readValue_payload hf]

theorem announceFields_nil (addrcap fuel : Nat) (a : Announce) : announceFields addrcap fuel a [] = some a := by
  cases fuel with
  | zero => rfl
  | succ fuel => rfl

theorem announceFields_bytes {l : List Field} (hl : ∀ f ∈ l, f.Sized) {addrcap fuel : Nat} (hfuel : l.length ≤ fuel)
    (a : Announce) : announceFields addrcap fuel a (l.flatMap Field.bytes) =
      some (l.foldl (fun a f => announceField addrcap a f.number f.value) a) := by
  induction l generalizing fuel a with
  | nil => exact announceFields_nil addrcap fuel a
  | cons f l ih =>
    obtain ⟨hf, hl⟩ := List.forall_mem_cons.mp hl
    obtain ⟨fuel, rfl⟩ : ∃ n, fuel = n + 1 := ⟨fuel - 1, by rw [List.length_cons] at hfuel; omega⟩
    rw [List.flatMap_cons, announceFields_cons hf, ih hl (by rw [List.length_cons] at hfuel; omega)]
    rfl

/-- What was built is parsed. -/
theorem discoParseAnnounce_built (hkey : key.length = 32) {addr : Str} (haddr : addr.length ≤ 19)
    (hnul : (0 : UInt8) ∉ addr) (iid : Int64) :
    discoParseAnnounce 96 ([0x2E, 0xA7, 0xD9, 0x0B] ++ announceBody key addr iid) = some (key, addr) := by
  have hlen := length_announceBody hkey haddr iid
  have hsized : ∀ f ∈ announceFieldList key addr iid, f.Sized :=
    sized_of_length (by rw [← announceBody]; omega)
  have hcopy : (addr.take 95).takeWhile (fun c : UInt8 => decide (c ≠ 0)) = addr := by
    rw [List.take_of_length_le (by omega), List.takeWhile_eq_self_iff]
    intro c hc
    simpa using fun h : c = 0 => hnul (h ▸ hc)
  have hfold : (announceFieldList key addr iid).foldl (fun a f => announceField 96 a f.number f.value) ⟨none, []⟩ =
      ⟨some key, addr⟩ := by
    have htwo : announceField 96 (announceField 96 ⟨none, []⟩ 1 (.data key)) 2 (.data addr) = ⟨some key, addr⟩ := by
      simp only [announceField, hkey, if_true]
      rw [if_neg (by decide), if_pos ⟨by decide, trivial⟩, hcopy]
    rw [announceFieldList, List.foldl_append]
    have hfirst : ([Field.data 1 key, Field.data 2 addr] : List Field).foldl
        (fun a f => announceField 96 a f.number f.value) ⟨none, []⟩ = ⟨some key, addr⟩ := htwo
    rw [hfirst]
    unfold optional
    split
    · rfl
    · rfl
  unfold discoParseAnnounce
  have hmagic : (0x2E : UInt8).toUInt32 <<< 24 ||| (0xA7 : UInt8).toUInt32 <<< 16 |||
      (0xD9 : UInt8).toUInt32 <<< 8 ||| (0x0B : UInt8).toUInt32 = discoMagic := by decide
  simp only [List.cons_append, List.nil_append]
  rw [if_pos hmagic, announceBody, announceFields_bytes hsized (length_le_flatMap _), hfold]
  rfl

theorem announceAddr_eq (p : Nat) : announceAddr p = ascii "tcp://" ++ (ascii "0.0.0.0" ++ 58 :: decimal p) := by
  have hascii : ascii "tcp://0.0.0.0:" = ascii "tcp://" ++ (ascii "0.0.0.0" ++ [58]) := by decide
  rw [announceAddr, hascii]
  simp

theorem nonul_announceAddr (p : Nat) : (0 : UInt8) ∉ announceAddr p := by
  rw [announceAddr, List.mem_append, not_or]
  refine ⟨by decide, fun hmem => ?_⟩
  exact absurd (isdigit_of_mem_decimal hmem) (by decide)

/-- **The address.** No host of its own, and the port. -/
theorem discoParseTcpAddr_announce (hp : 0 < p) (hp' : p ≤ 65535) :
    discoParseTcpAddr 64 (announceAddr p) = some (ascii "0.0.0.0", p) := by
  have hcolon : (58 : UInt8) ∉ decimal p := fun hmem => absurd (isdigit_of_mem_decimal hmem) (by decide)
  have hval := atol_decimal_take hp (by omega) (decimal p).length
  rw [List.take_length, Nat.sub_self, Nat.pow_zero, Nat.div_one] at hval
  have hpre : (ascii "tcp://").isPrefixOf (announceAddr p) = true := by
    rw [announceAddr_eq, List.isPrefixOf_iff_prefix]
    exact List.prefix_append _ _
  have hdrop : (announceAddr p).drop 6 = ascii "0.0.0.0" ++ 58 :: decimal p := by
    rw [announceAddr_eq]
    exact List.drop_left' (by decide)
  unfold discoParseTcpAddr
  rw [if_pos hpre, hdrop, strrchr_append hcolon, Option.bind_some]
  dsimp only
  rw [if_neg (by decide), if_neg (by decide), hval]
  have hport : ¬ ((decide ((p : Int) ≤ 0) || decide ((65535 : Int) < p)) = true) := by
    simp only [Bool.or_eq_true, decide_eq_true_eq]
    omega
  rw [if_neg hport, Int.toNat_natCast]

/-- **Heard.** An announcement is heard with the address it came from. -/
theorem announce_heard (hkey : key.length = 32) (hp : 0 < p) (hp' : p ≤ 65535) (iid : Int64)
    (peers : List ConfigPeer) {d : Str} (hd : d.length ≤ 63) :
    ∃ pkt, discoBuildAnnounce 512 key [announceAddr p] iid = some pkt ∧
      discoRecvAnnounce peers pkt (some d) =
        some (match peers.find? fun q => decide (deviceIdToRaw q.id = some key) with
          | some q => postDisco .found q.id d p
          | none => ⟨.seen, deviceIdFromRaw key, d, p⟩) := by
  have haddr := length_announceAddr (p := p) (by omega)
  have hid := (formatted_fromRaw hkey).facts.1
  have hcut : setField 64 d = d := List.take_of_length_le hd
  have hcutid : setField deviceIdBufsz (deviceIdFromRaw key) = deviceIdFromRaw key :=
    List.take_of_length_le (by rw [hid]; decide)
  refine ⟨_, discoBuildAnnounce_eq hkey haddr iid, ?_⟩
  unfold discoRecvAnnounce
  rw [discoParseAnnounce_built hkey haddr (nonul_announceAddr p)]
  dsimp only
  rw [if_neg (by rw [announceAddr_eq]; simp [ascii]), discoParseTcpAddr_announce hp hp']
  dsimp only
  rw [if_pos rfl, Option.map_some, hcut]
  dsimp only
  cases peers.find? fun q => decide (deviceIdToRaw q.id = some key) with
  | some q => rfl
  | none =>
    dsimp only
    rw [postDisco, hcutid]
    exact congrArg (fun h => some (DiscoEvent.mk .seen (deviceIdFromRaw key) h p)) hcut

end Announce

/-! ## Dialled -/

section Dial
variable {s : PeerState} {i : Nat} {slot : PeerSlot}

theorem spawn_addr (h : s.slots[i]? = some slot) (delay : Nat) (o : SpawnOutcome) :
    ∃ t, (s.spawn i delay o).slots[i]? = some t ∧ t.host = slot.host ∧ t.port = slot.port ∧
      t.haveAddr = slot.haveAddr := by
  unfold PeerState.spawn
  cases s.entry i with
  | none => exact ⟨slot, h, rfl, rfl, rfl⟩
  | some e =>
    cases o with
    | noMemory => exact ⟨spawnFailed slot, by simp [PeerState.setSlot, h], rfl, rfl, rfl⟩
    | noProcess => exact ⟨spawnFailed slot, by simp [PeerState.setSlot, h], rfl, rfl, rfl⟩
    | started =>
      exact ⟨setProc ⟨s.nextProc, PeerState.startupFor e.1 e.2 i delay⟩ slot, by simp [PeerState.setSlot, h],
        rfl, rfl, rfl⟩

/-- **Dialled.** The first slot for the device has the address. -/
theorem discovered_addr (hdown : s.shuttingDown = false) {id host : Str} {port : Nat} (hhost : host ≠ [])
    (hcut : host.length ≤ 63) (hport : port ≠ 0)
    (hfind : (s.findSlot fun q => !q.removed && deviceIdEqual q.id id) = some i) (o : SpawnOutcome) :
    ∃ t, (s.peerManagerDiscovered id host port o).slots[i]? = some t ∧ t.host = host ∧ t.port = port ∧
      t.haveAddr = true := by
  have hset : setField configHostMax host = host := List.take_of_length_le hcut
  have hentry : ∃ e, s.entry i = some e := by
    have hany := List.find?_some hfind
    obtain ⟨e, he, -⟩ := (Option.any_eq_true _ _).mp hany
    exact ⟨e, he⟩
  obtain ⟨⟨slot, q⟩, he⟩ := hentry
  have hslot := (entry_eq_some.mp he).1
  have hnew : (s.setSlot i (slotSetAddr host port)).slots[i]? =
      some { slot with host := host, port := port, haveAddr := true } := by
    simp [PeerState.setSlot, hslot, slotSetAddr, hhost, hset, portOr, hport]
  unfold PeerState.peerManagerDiscovered
  rw [if_neg (by simp [hdown, hhost, hport]), hfind]
  dsimp only
  rw [hslot]
  dsimp only
  split
  · rename_i hsame
    simp only [Bool.and_eq_true, decide_eq_true_eq] at hsame
    exact ⟨slot, hslot, hsame.1.2, hsame.1.1.2, hsame.1.1.1⟩
  · split
    · exact ⟨_, hnew, rfl, rfl, rfl⟩
    · split
      · have hback : ((s.setSlot i (slotSetAddr host port)).setSlot i (setBackoff peerBackoffMin)).slots[i]? =
            some { slot with host := host, port := port, haveAddr := true, backoff := peerBackoffMin } := by
          rw [PeerState.setSlot, List.getElem?_modify, hnew]
          simp [setBackoff]
        obtain ⟨t, ht, hthost, htport, hthave⟩ := spawn_addr hback 0 o
        exact ⟨t, ht, hthost, htport, hthave⟩
      · exact ⟨_, hnew, rfl, rfl, rfl⟩

end Dial

/-! ## The table -/

section Seen
variable {l : DiscoSeenList} {id host : Str} {port : Nat}

/-- The cells of the table. -/
structure Sixteen (l : DiscoSeenList) : Prop where
  valid : l.Valid
  cells : l.cells.length = discoSeenMax

theorem sixteen_seenAdd (h : Sixteen l) (id host : Str) (port : Nat) : Sixteen (discoSeenAdd l id host port).2 := by
  unfold discoSeenAdd
  split
  · exact h
  · split
    · exact ⟨⟨by simpa using h.valid.next, by simpa using h.valid.count, by simpa using h.valid.filling⟩,
        by simpa using h.cells⟩
    · exact ⟨RingBuffer.valid_push h.valid _, (RingBuffer.length_push l _).trans h.cells⟩

/-- **A sighting.** -/
theorem order_seenAdd (h : Sixteen l) (hnodup : (l.order.map DiscoSeenEntry.id).Nodup) (hid : id ≠ [])
    (hshort : id.length ≤ 63) (hhost : host.length ≤ 63) :
    (discoSeenAdd l id host port).2.order = RingBuffer.note DiscoSeenEntry.id discoSeenMax l.order ⟨id, host, port⟩ ∧
      (discoSeenAdd l id host port).1 = decide (id ∉ l.order.map DiscoSeenEntry.id) := by
  have hcutid : setField deviceIdBufsz id = id := List.take_of_length_le hshort
  have hcut : setField discoHostMax host = host := List.take_of_length_le hhost
  have hmem : ∀ k, k ∈ l.order.map DiscoSeenEntry.id ↔ k ∈ (l.cells.take l.count).map DiscoSeenEntry.id := by
    intro k
    simp only [List.mem_map, RingBuffer.mem_order h.valid]
  have hany : (l.order.any fun y => decide (y.id = id)) = true ↔ id ∈ l.order.map DiscoSeenEntry.id := by
    simp only [List.any_eq_true, decide_eq_true_eq, List.mem_map]
  unfold discoSeenAdd
  rw [if_neg hid]
  cases hfind : (l.cells.take l.count).findIdx? fun e => decide (e.id = id) with
  | some i =>
    obtain ⟨hlt, hi, -⟩ := List.findIdx?_eq_some_iff_getElem.mp hfind
    have hkey : ((l.cells.take l.count)[i]).id = id := by simpa using hi
    have hcell : (l.cells.take l.count)[i]? = some ((l.cells.take l.count)[i]) :=
      List.getElem?_eq_getElem hlt
    have hin : id ∈ l.order.map DiscoSeenEntry.id := by
      rw [hmem, ← hkey]
      exact List.mem_map_of_mem (List.getElem_mem hlt)
    dsimp only
    rw [RingBuffer.order_modify h.valid hnodup hcell, RingBuffer.note, if_pos (hany.mpr hin)]
    refine ⟨List.map_congr_left fun y _ => ?_, by simp [hin]⟩
    dsimp only
    rw [hkey, hcut]
    split
    · rename_i hy
      rw [← hy]
    · rfl
  | none =>
    have hno : id ∉ l.order.map DiscoSeenEntry.id := by
      rw [hmem]
      intro hin
      obtain ⟨e, he, hkey⟩ := List.mem_map.mp hin
      have := List.findIdx?_eq_none_iff.mp hfind e he
      simp [hkey] at this
    dsimp only
    rw [RingBuffer.order_push h.valid, RingBuffer.note, if_neg fun ht => hno (hany.mp ht), hcutid, hcut,
      RingBuffer.length_order h.valid, h.cells]
    exact ⟨rfl, by simp [hno]⟩

end Seen

/-! ## The run -/

section Run
variable {s t : Watch}

/-- What an address is like. -/
structure Reachable (host : Str) (port : Nat) : Prop where
  nonempty : host ≠ []
  short : host.length ≤ 63
  chars : ∀ c ∈ host, hostCharOk c = true
  range : 0 < port ∧ port ≤ 65535

def IsDevice (id : Str) : Prop := ∃ raw : Bytes, raw.length = 32 ∧ id = deviceIdFromRaw raw

/-- Where a datagram comes from is written with digits and dots. -/
def Lawful : Event → Prop
  | .datagram _ _ (some d) _ => d ≠ [] ∧ ∀ c ∈ d, hostCharOk c = true
  | _ => True

/-- **What is posted.** -/
theorem recv_facts {peers : List ConfigPeer} {pkt : Bytes} {source : Option Str} {granted : Bool} {e : DiscoEvent}
    (hlaw : Lawful (.datagram peers pkt source granted)) (h : discoRecvAnnounce peers pkt source = some e) :
    Reachable e.host e.port ∧ (e.kind = .seen → IsDevice e.id) := by
  unfold discoRecvAnnounce at h
  cases hparse : discoParseAnnounce 96 pkt with
  | none => rw [hparse] at h; exact absurd h (by simp)
  | some r =>
    obtain ⟨raw, addr⟩ := r
    have hraw := (parseAnnounce_facts hparse).1
    rw [hparse] at h
    dsimp only at h
    split at h
    · exact absurd h (by simp)
    · cases haddr : discoParseTcpAddr 64 addr with
      | none => rw [haddr] at h; exact absurd h (by simp)
      | some a =>
        obtain ⟨host, port⟩ := a
        obtain ⟨hne, hlen, hchars, hpos, hmax⟩ := parseTcpAddr_facts haddr
        rw [haddr] at h
        dsimp only at h
        have hreach : ∀ host', (if host = ascii "0.0.0.0" then source.map (setField 64) else some host) = some host' →
            Reachable host' port := by
          intro host' hhost
          split at hhost
          · obtain ⟨d, rfl, rfl⟩ := Option.map_eq_some_iff.mp hhost
            refine ⟨?_, List.length_take_le _ _, fun c hc => hlaw.2 c (List.mem_of_mem_take hc), hpos, hmax⟩
            have := List.length_pos_iff.mpr hlaw.1
            rw [← List.length_pos_iff, setField, List.length_take]
            omega
          · obtain rfl := Option.some.inj hhost
            exact ⟨hne, by omega, hchars, hpos, hmax⟩
        cases hhost : (if host = ascii "0.0.0.0" then source.map (setField 64) else some host) with
        | none => rw [hhost] at h; exact absurd h (by simp)
        | some host' =>
          have hr := hreach host' hhost
          have hcut : setField discoHostMax host' = host' := List.take_of_length_le hr.short
          rw [hhost] at h
          dsimp only at h
          split at h
          · obtain rfl := Option.some.inj h
            refine ⟨?_, fun hk => absurd hk (by simp [postDisco])⟩
            show Reachable (setField discoHostMax host') port
            rwa [hcut]
          · obtain rfl := Option.some.inj h
            refine ⟨?_, fun _ => ⟨raw, hraw, ?_⟩⟩
            · show Reachable (setField discoHostMax host') port
              rwa [hcut]
            · exact List.take_of_length_le (by rw [(formatted_fromRaw hraw).facts.1]; decide)

/-- What holds of the table and of what is in the port. -/
structure Sound (s : Watch) : Prop where
  table : Sixteen s.seen
  recent : RingBuffer.Recent DiscoSeenEntry.id discoSeenMax s.noted s.seen.order
  port : ∀ e ∈ s.port, Reachable e.host e.port ∧ (e.kind = .seen → IsDevice e.id)
  noted : ∀ x ∈ s.noted, Reachable x.host x.port ∧ IsDevice x.id

theorem sound_start : Sound watchStart := by
  have hcells : noneSeen.cells.length = 16 := rfl
  refine ⟨⟨⟨by decide, by decide, fun _ => rfl⟩, hcells⟩, ?_, by simp [watchStart], by simp [watchStart]⟩
  exact RingBuffer.recent_nil _ _

/-- **Step.** -/
theorem sound_step (s : Watch) (e : Event) (t : Watch) (h : Sound s) (hlaw : Lawful e) (hstep : step s e = some t) :
    Sound t := by
  cases e with
  | datagram peers pkt source granted =>
    simp only [step] at hstep
    split at hstep
    · exact Option.some.inj hstep ▸ h
    · rename_i e hrecv
      obtain rfl := Option.some.inj hstep
      cases granted with
      | false => exact h
      | true =>
        refine ⟨h.table, h.recent, fun x hx => ?_, h.noted⟩
        rcases List.mem_append.mp hx with hx | hx
        · exact h.port x hx
        · rw [List.mem_singleton.mp hx]
          exact recv_facts hlaw hrecv
  | drain =>
    simp only [step] at hstep
    split at hstep
    · exact absurd hstep (by simp)
    · rename_i e port hport
      have he := h.port e (hport ▸ List.mem_cons_self)
      have hrest : ∀ x ∈ port, Reachable x.host x.port ∧ (x.kind = .seen → IsDevice x.id) := fun x hx =>
        h.port x (hport ▸ List.mem_cons_of_mem e hx)
      split at hstep
      · rename_i hkind
        obtain rfl := Option.some.inj hstep
        obtain ⟨raw, hraw, hid⟩ := he.2 hkind
        have hlen := (formatted_fromRaw hraw).facts.1
        rw [← hid] at hlen
        have hne : e.id ≠ [] := List.ne_nil_of_length_pos (by omega)
        have hshort : e.id.length ≤ 63 := by omega
        have horder : (discoSeenAdd s.seen e.id e.host e.port).2.order = _ ∧ _ :=
          order_seenAdd h.table h.recent.nodup hne hshort he.1.short
        refine ⟨sixteen_seenAdd h.table _ _ _, ?_, hrest, fun x hx => ?_⟩
        · dsimp only
          rw [horder.1]
          exact RingBuffer.recent_note (by decide) h.recent
        · rcases List.mem_append.mp hx with hx | hx
          · exact h.noted x hx
          · rw [List.mem_singleton.mp hx]
            exact ⟨he.1, raw, hraw, hid⟩
      · obtain rfl := Option.some.inj hstep
        exact ⟨h.table, h.recent, hrest, h.noted⟩

/-- **The table.** After any datagrams, whatever is in them: it holds at most sixteen devices, each
once and with the address of its last sighting, the last sighting among them, and all that were
sighted while these are not more than sixteen; and each has a well-formed id and address. -/
theorem sightings_run (es : List Event) (hlaw : ∀ e ∈ es, Lawful e) (hrun : Machine.run step watchStart es = some s) :
    RingBuffer.Recent DiscoSeenEntry.id discoSeenMax s.noted s.seen.order ∧
      ∀ x ∈ s.seen.order, Reachable x.host x.port ∧ IsDevice x.id := by
  have h : Sound s := Machine.run_inv_along (C := fun _ e => Lawful e)
    (fun s e t h hl hstep => sound_step s e t h hl hstep) (Machine.along_of_forall hlaw _) hrun sound_start
  refine ⟨h.recent, fun x hx => h.noted x ?_⟩
  exact List.mem_reverse.mp (List.mem_of_find?_eq_some (h.recent.last x hx))

/-- The key of zeros at port 22000. -/
def samplePacket : Bytes := (discoBuildAnnounce 512 (List.replicate 32 0) [announceAddr 22000] 7).getD []

theorem sightings_run_sample :
    ∃ s, Machine.run step watchStart [.datagram [] samplePacket (some (ascii "10.0.0.2")) true, .drain] = some s ∧
      s.seen.order = [⟨deviceIdFromRaw (List.replicate 32 0), ascii "10.0.0.2", 22000⟩] ∧
      ∀ x ∈ s.seen.order, Reachable x.host x.port ∧ IsDevice x.id := by
  have hfacts : ((Machine.run step watchStart
      [.datagram [] samplePacket (some (ascii "10.0.0.2")) true, .drain]).any fun s =>
      decide (s.seen.order = [⟨deviceIdFromRaw (List.replicate 32 0), ascii "10.0.0.2", 22000⟩])) = true := by
    decide +kernel
  obtain ⟨s, hs, horder⟩ := (Option.any_eq_true _ _).mp hfacts
  have hlaw : ∀ e ∈ ([.datagram [] samplePacket (some (ascii "10.0.0.2")) true, .drain] : List Event), Lawful e := by
    intro e he
    simp only [List.mem_cons, List.not_mem_nil, or_false] at he
    rcases he with rfl | rfl
    · have hchars : (ascii "10.0.0.2").all hostCharOk = true := by decide +kernel
      exact ⟨by decide, List.all_eq_true.mp hchars⟩
    · trivial
  exact ⟨s, hs, of_decide_eq_true horder, (sightings_run _ hlaw hs).2⟩

/-- **An announcement arrives.** What a device announces at a port and from an address, another that
hears it takes for a configured peer with the key, and then the first slot for that peer has the
address and is dialled; or there is none, and then the device is in the table with the address. -/
theorem announcement_arrives {key : Bytes} (hkey : key.length = 32) {p : Nat} (hp : 0 < p) (hp' : p ≤ 65535)
    (iid : Int64) {d : Str} (hd : d ≠ []) (hd' : d.length ≤ 63) (s : PeerState) (hdown : s.shuttingDown = false)
    (o : SpawnOutcome) :
    ∃ pkt e, discoBuildAnnounce 512 key [announceAddr p] iid = some pkt ∧
      discoRecvAnnounce (s.cfg.map RunPeer.toConfigPeer) pkt (some d) = some e ∧
      match (s.cfg.map RunPeer.toConfigPeer).find? fun q => decide (deviceIdToRaw q.id = some key) with
      | some q => e.kind = .found ∧ e.id = setField deviceIdBufsz q.id ∧
          ∀ i, (s.findSlot fun r => !r.removed && deviceIdEqual r.id e.id) = some i →
            ∃ slot, (s.peerManagerDiscovered e.id e.host e.port o).slots[i]? = some slot ∧
              slot.host = d ∧ slot.port = p ∧ slot.haveAddr = true
      | none => e.kind = .seen ∧ ∀ l : DiscoSeenList, Sixteen l → (l.order.map DiscoSeenEntry.id).Nodup →
          ⟨deviceIdFromRaw key, d, p⟩ ∈ (discoSeenAdd l e.id e.host e.port).2.order := by
  obtain ⟨pkt, hpkt, hrecv⟩ := announce_heard hkey hp hp' iid (s.cfg.map RunPeer.toConfigPeer) hd'
  have hcut : setField discoHostMax d = d := List.take_of_length_le hd'
  refine ⟨pkt, _, hpkt, hrecv, ?_⟩
  split
  · rename_i q hq
    refine ⟨rfl, rfl, fun i hi => ?_⟩
    have haddr := discovered_addr hdown hd hd' (Nat.pos_iff_ne_zero.mp hp) hi o
    dsimp only [postDisco] at haddr ⊢
    rw [hcut]
    exact haddr
  · refine ⟨rfl, fun l hl hnodup => ?_⟩
    have hlen := (formatted_fromRaw hkey).facts.1
    have hne : deviceIdFromRaw key ≠ [] := List.ne_nil_of_length_pos (by omega)
    have hshort : (deviceIdFromRaw key).length ≤ 63 := by omega
    have horder : (discoSeenAdd l (deviceIdFromRaw key) d p).2.order = _ ∧ _ :=
      order_seenAdd hl hnodup hne hshort hd'
    dsimp only
    rw [horder.1]
    exact RingBuffer.mem_note _ _ _ _

theorem announcement_arrives_sample :
    ∃ pkt e, discoBuildAnnounce 512 (List.replicate 32 0) [announceAddr 22000] 7 = some pkt ∧
      discoRecvAnnounce [] pkt (some (ascii "10.0.0.2")) = some e ∧ e.kind = .seen := by
  have hkey : (List.replicate 32 (0 : UInt8)).length = 32 := List.length_replicate
  obtain ⟨pkt, e, hpkt, hrecv, hkind, -⟩ := announcement_arrives hkey (p := 22000) (by decide) (by decide) 7
    (d := ascii "10.0.0.2") (by decide) (by decide) (PeerState.peerManagerCreate []) rfl .noMemory
  exact ⟨pkt, e, hpkt, hrecv, hkind⟩

end Run

end Amisync.Disco

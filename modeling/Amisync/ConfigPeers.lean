import Amisync.ConfigTokens
import Amisync.Disco

/-!
# A peer in the configuration file (`config_append_peer`)

A device that announces itself is written to the file with its host and port as
one word, and the reader keeps 63 characters of a word: of a long host the port
is lost, or its last digits are.

* `readPort`: the port that is read. `readPort_eq_iff`: when it is the one that was
  written.
* `offers_of_peer`: the line offers the peer with that port and nothing else.
* `discovered_peer_iff`: a text with one more line has one more peer exactly when
  the port survives.
-/

namespace Amisync.ConfigFile

open Ctype Disco

/-! ## The line -/

theorem parseLine_peer (w : Str) : parseLine (ascii "peer = " ++ w) = some (ascii "peer", trim w) := by
  have hkey : ascii "peer = " = ascii "peer" ++ [32, 61, 32] := by decide
  rw [hkey, List.append_assoc]
  exact parseLine_assign (c := 112) (z := 114) (t := ascii "ee") (by decide) (by decide) (by decide) w

theorem peerOf_peer (w : Str) : peerOf (ascii "peer = " ++ w) = parsePeer (trim w) := by
  unfold peerOf
  rw [parseLine_peer]
  rfl

theorem folderOf_peer (w : Str) : folderOf (ascii "peer = " ++ w) = none := by
  unfold folderOf
  rw [parseLine_peer]
  rfl

theorem settingOf_peer (w : Str) : settingOf (ascii "peer = " ++ w) = none := by
  unfold settingOf
  rw [parseLine_peer]
  rfl

/-- What is known of a discovered address, and of an id in its written form. -/
structure Heard (id host : Str) (port : Nat) : Prop where
  id_form : Formatted id
  host_ne : host ≠ []
  host_len : host.length < configHostMax
  host_chars : ∀ c ∈ host, hostCharOk c = true
  port_pos : 0 < port
  port_max : port ≤ 65535

/-- Of a word of 63 characters the port is what is left after the host and the colon. -/
def readPort (host : Str) (port : Nat) : Nat :=
  if 62 ≤ host.length then configDefaultPort
  else port / 10 ^ ((decimal port).length - (62 - host.length))

/-- The port is written in full, or it is the default and nothing of it is. -/
def PortKept (host : Str) (port : Nat) : Prop :=
  host.length + 1 + (decimal port).length < configHostMax ∨ (62 ≤ host.length ∧ port = configDefaultPort)

instance (host : Str) (port : Nat) : Decidable (PortKept host port) :=
  inferInstanceAs (Decidable (_ ∨ _))

theorem readPort_eq_iff {host : Str} {port : Nat} (hp : 0 < port) :
    readPort host port = port ↔ PortKept host port := by
  have hmax : configHostMax = 64 := rfl
  have hdigits : 0 < (decimal port).length := by
    rw [length_decimal hp]
    exact List.length_pos_iff.mpr (Nat.digits_ne_nil_iff_ne_zero.mpr (by omega))
  unfold readPort PortKept
  split
  · rename_i hlong
    constructor
    · intro heq
      exact Or.inr ⟨hlong, heq.symm⟩
    · rintro (h | ⟨-, h⟩)
      · omega
      · exact h.symm
  · rename_i hshort
    constructor
    · intro heq
      refine Or.inl ?_
      by_contra hno
      -- a digit is missing
      obtain ⟨k, hk⟩ : ∃ k, (decimal port).length - (62 - host.length) = k + 1 :=
        ⟨(decimal port).length - (62 - host.length) - 1, by omega⟩
      rw [hk] at heq
      have hlt : port / 10 ^ (k + 1) < port := Nat.div_lt_self hp (Nat.one_lt_pow (by omega) (by decide))
      omega
    · rintro (h | ⟨h, -⟩)
      · rw [show (decimal port).length - (62 - host.length) = 0 by omega, Nat.pow_zero, Nat.div_one]
      · omega

section Line
variable {id host : Str} {port : Nat}

theorem hostChar_facts (c : UInt8) : hostCharOk c = true → isspace c = false ∧ c ≠ 58 ∧ c ≠ nl ∧
    (!(c < 32 || c = 127) && c ≠ quote) = true := by
  revert c
  exact forall_byte (by decide +kernel)

theorem idChar_facts (c : UInt8) : c = 45 ∨ Clean c → isspace c = false ∧ c ≠ quote ∧ c ≠ nl ∧
    (!(c < 32 || c = 127) && c ≠ quote) = true := by
  revert c
  exact forall_byte (by decide +kernel)

/-- The word for the address. -/
def address (host : Str) (port : Nat) : Str := host ++ 58 :: decimal port

theorem address_facts (h : Heard id host port) : address host port ≠ [] ∧
    (∀ c ∈ address host port, isspace c = false ∧ c ≠ nl) ∧ (address host port).head? ≠ some quote := by
  refine ⟨by simp [address], ?_, ?_⟩
  · intro c hc
    rcases List.mem_append.mp hc with hc | hc
    · obtain ⟨hspace, -, hnl, -⟩ := hostChar_facts c (h.host_chars c hc)
      exact ⟨hspace, hnl⟩
    · rcases List.mem_cons.mp hc with rfl | hc
      · decide
      · have hspace := (digit_not_blank c (isdigit_of_mem_decimal hc)).1
        refine ⟨hspace, ?_⟩
        rintro rfl
        exact absurd hspace (by decide)
  · obtain ⟨c, t, rfl⟩ := List.exists_cons_of_ne_nil h.host_ne
    have hok := h.host_chars c List.mem_cons_self
    intro hq
    obtain rfl : c = quote := by simpa [address] using hq
    exact absurd hok (by decide)

theorem peerLine_eq (h : Heard id host port) :
    peerLine id host port = ascii "peer = " ++ (id ++ 32 :: address host port) := by
  have hid : id.take (deviceIdBufsz - 1) = id :=
    List.take_of_length_le (by rw [h.id_form.facts.1]; decide)
  have hhost : host.take (configHostMax - 1) = host :=
    List.take_of_length_le (by have := h.host_len; omega)
  unfold peerLine address
  dsimp only
  rw [if_pos ⟨h.host_ne, by have := h.port_pos; omega⟩, hid, hhost]
  simp

/-- The port, read from the end of the word. -/
theorem port_of_token (h : Heard id host port) :
    splitPort ((address host port).take (configHostMax - 1)) =
      (host, if 62 ≤ host.length then 0 else readPort host port) := by
  have hmax : configHostMax = 64 := rfl
  have hlen := h.host_len
  have hcolon : (58 : UInt8) ∉ host := fun hmem => (hostChar_facts 58 (h.host_chars 58 hmem)).2.1 rfl
  unfold address splitPort
  rw [hmax, List.take_append]
  rcases Nat.lt_or_ge host.length 63 with hshort | hfull
  · obtain ⟨k, hk⟩ : ∃ k, 64 - 1 - host.length = k + 1 := ⟨62 - host.length, by omega⟩
    have hdigits : (58 : UInt8) ∉ (decimal port).take k := by
      intro hmem
      exact (digit_not_blank 58 (isdigit_of_mem_decimal (List.mem_of_mem_take hmem))).2.2.2 rfl
    have hval : atol ((decimal port).take k) = (port / 10 ^ ((decimal port).length - k) : Nat) :=
      atol_decimal_take h.port_pos (by have := h.port_max; omega) k
    have hle : port / 10 ^ ((decimal port).length - k) ≤ 65535 :=
      Nat.le_trans (Nat.div_le_self _ _) h.port_max
    rw [List.take_of_length_le (by omega), hk, List.take_succ_cons, strrchr_append hdigits]
    dsimp only
    rw [hval]
    refine Prod.ext rfl ?_
    dsimp only
    split
    · rename_i hlong
      obtain rfl : k = 0 := by omega
      have hdiv : port / 10 ^ ((decimal port).length - 0) = 0 := by
        rw [Nat.sub_zero, length_decimal h.port_pos]
        exact Nat.div_eq_of_lt (Nat.lt_base_pow_length_digits (by omega))
      rw [hdiv]
      rfl
    · rename_i hno
      have hroom : k = 62 - host.length := by omega
      unfold readPort toUShort
      rw [if_neg hno, ← hroom]
      generalize port / 10 ^ ((decimal port).length - k) = q at hle
      omega
  · rw [show 64 - 1 - host.length = 0 by omega, List.take_zero, List.append_nil,
      List.take_of_length_le (by omega), strrchr_of_notMem hcolon, if_pos (by omega)]

theorem readPort_pos (h : Heard id host port) : readPort host port ≠ 0 := by
  unfold readPort
  split
  · decide
  · rename_i hshort
    have hk : (decimal port).length - (62 - host.length) < (Nat.digits 10 port).length := by
      have hpos : 0 < (Nat.digits 10 port).length :=
        List.length_pos_iff.mpr (Nat.digits_ne_nil_iff_ne_zero.mpr (by have := h.port_pos; omega))
      rw [length_decimal h.port_pos]
      omega
    have hle := (Nat.lt_digits_length_iff (by omega : 1 < 10) port).mp hk
    have := Nat.div_pos hle (Nat.pow_pos (by omega))
    omega

/-- What is read of the line. -/
theorem parsePeer_line (h : Heard id host port) :
    parsePeer (id ++ 32 :: address host port) = some ⟨id, host, readPort host port⟩ := by
  obtain ⟨hidlen, hidchars, canon, hcanon, -⟩ := h.id_form.facts
  obtain ⟨hane, hachars, haq⟩ := address_facts h
  have hidne : id ≠ [] := by
    rintro rfl
    simp at hidlen
  have hidq : id.head? ≠ some quote := by
    intro hq
    exact (idChar_facts quote (hidchars quote (List.mem_of_head? hq))).2.1 rfl
  have hbuf : deviceIdBufsz = 64 := rfl
  have hblank : ∀ c, (32 :: address host port).head? = some c → isspace c = true := by simp [isspace]
  have hid : tokenOr deviceIdBufsz (id ++ 32 :: address host port) = (id, 32 :: address host port) := by
    have htok := nextToken_word (w := []) (by simp) hidne (fun c hc => (idChar_facts c (hidchars c hc)).1) hidq
      (by omega : id.length < deviceIdBufsz) hblank
    rw [List.nil_append] at htok
    unfold tokenOr
    rw [htok]
    rfl
  have haddr : tokenOr configHostMax (32 :: address host port) =
      ((address host port).take (configHostMax - 1), (address host port).drop (configHostMax - 1)) := by
    have htok : nextToken configHostMax ([32] ++ (address host port ++ [])) = _ :=
      nextToken_long (List.forall_mem_singleton.mpr rfl) hane (fun c hc => (hachars c hc).1) haq (by simp)
    rw [List.append_nil, List.append_nil] at htok
    unfold tokenOr
    rw [show 32 :: address host port = [32] ++ address host port from rfl, htok]
    rfl
  have hne : (address host port).take (configHostMax - 1) ≠ [] := by
    intro hnil
    rcases List.take_eq_nil_iff.mp hnil with h | h
    · exact absurd h (by decide)
    · exact hane h
  have hidfield : setField deviceIdBufsz id = id := setField_of_length (by omega)
  have hhostfield : setField configHostMax host = host := setField_of_length h.host_len
  unfold parsePeer
  simp only [hid, haddr]
  rw [if_neg (by simp [hidne, hcanon]), if_neg hne]
  simp only [port_of_token h, hidfield, hhostfield]
  by_cases hlong : 62 ≤ host.length
  · rw [if_pos hlong, if_pos rfl, readPort, if_pos hlong]
  · rw [if_neg hlong, if_neg (readPort_pos h)]

/-- **The line.** It offers the peer, with the port that is read, and nothing else. -/
theorem offers_of_peer (h : Heard id host port) :
    (TextLines.pieces nl lineRoom (peerLine id host port ++ [nl])).filterMap peerOf =
        [⟨id, host, readPort host port⟩] ∧
      (TextLines.pieces nl lineRoom (peerLine id host port ++ [nl])).filterMap folderOf = [] ∧
      (TextLines.pieces nl lineRoom (peerLine id host port ++ [nl])).filterMap settingOf = [] := by
  obtain ⟨hidlen, hidchars, -⟩ := h.id_form.facts
  obtain ⟨hane, hachars, -⟩ := address_facts h
  have hdigits : (decimal port).length ≤ 5 := by
    rw [length_decimal h.port_pos, Nat.digits_length_le_iff (by omega)]
    have := h.port_max
    omega
  have hlen : (peerLine id host port).length < lineRoom := by
    have hkey : (ascii "peer = ").length = 7 := by decide
    have hhost := h.host_len
    have hmax : configHostMax = 64 := rfl
    rw [peerLine_eq h, address]
    simp only [List.length_append, List.length_cons, hkey]
    unfold lineRoom
    omega
  have hnl : nl ∉ peerLine id host port := by
    rw [peerLine_eq h]
    intro hmem
    rcases List.mem_append.mp hmem with hmem | hmem
    · exact absurd hmem (by decide)
    · rcases List.mem_append.mp hmem with hmem | hmem
      · exact (idChar_facts nl (hidchars nl hmem)).2.2.1 rfl
      · rcases List.mem_cons.mp hmem with hmem | hmem
        · exact absurd hmem (by decide)
        · exact (hachars nl hmem).2 rfl
  obtain ⟨t, z, hlast⟩ : ∃ t z, id ++ 32 :: address host port = t ++ [z] := by
    refine ⟨(id ++ 32 :: address host port).dropLast, (id ++ 32 :: address host port).getLast (by simp), ?_⟩
    exact (List.dropLast_concat_getLast (by simp)).symm
  have hz : isspace z = false := by
    have hget : (id ++ 32 :: address host port).getLast (by simp) = z := by simp [hlast]
    refine (hachars z ?_).1
    rw [← hget, List.getLast_append_of_ne_nil _ (by simp), List.getLast_cons hane]
    exact List.getLast_mem hane
  have htrim : trim (id ++ 32 :: address host port ++ [nl]) = id ++ 32 :: address host port := by
    obtain ⟨c, u, hcons⟩ := List.exists_cons_of_ne_nil (l := id) (by rintro rfl; simp at hidlen)
    have hc : isspace c = false := (idChar_facts c (hidchars c (by simp [hcons]))).1
    have hfix : rtrim (id ++ 32 :: address host port) = id ++ 32 :: address host port := by
      rw [hlast]
      exact rtrim_of_last hz
    rw [trim_append_blank (List.forall_mem_singleton.mpr rfl)]
    unfold trim
    rw [hcons, List.cons_append, List.dropWhile_cons_of_neg (by simp [hc]), ← List.cons_append, ← hcons, hfix]
  have hpieces : TextLines.pieces nl lineRoom (peerLine id host port ++ [nl]) =
      [ascii "peer = " ++ (id ++ 32 :: address host port ++ [nl])] := by
    rw [TextLines.pieces_short hnl hlen, peerLine_eq h, List.append_assoc]
  rw [hpieces]
  simp [peerOf_peer, folderOf_peer, settingOf_peer, -List.append_assoc, htrim, parsePeer_line h]

end Line

/-! ## The note, glued to a line -/

section Note
variable {r u v w x : Str}

/-- What is left without the blanks at its end has the same first word. -/
theorem takeWhile_rtrim (s : Str) :
    (rtrim s).takeWhile (fun d => !isspace d) = s.takeWhile fun d => !isspace d := by
  have hsplit : rtrim s ++ s.rtakeWhile isspace = s := List.rdropWhile_append_rtakeWhile
  have hblank : (s.rtakeWhile isspace).takeWhile (fun d => !isspace d) = [] := by
    cases hb : s.rtakeWhile isspace with
    | nil => rfl
    | cons c t =>
      have hc : isspace c = true := List.mem_rtakeWhile_imp (l := s) (by rw [hb]; exact List.mem_cons_self)
      exact List.takeWhile_cons_of_neg (by simp [hc])
  conv_rhs => rw [← hsplit, List.takeWhile_append]
  split
  · rename_i hall
    rw [hblank, List.append_nil]
    exact (List.takeWhile_prefix _).eq_of_length hall
  · rfl

/-- In quotes, blanks at the end are kept, and an id does not mind them. -/
theorem normalize_rtrim (x : Str) (n : Nat) :
    deviceIdNormalize (((rtrim x).takeWhile fun c => decide (c ≠ quote)).take n) =
      deviceIdNormalize ((x.takeWhile fun c => decide (c ≠ quote)).take n) := by
  have hsplit : rtrim x ++ x.rtakeWhile isspace = x := List.rdropWhile_append_rtakeWhile
  have hblank : ∀ c ∈ x.rtakeWhile isspace, isspace c = true := fun _ => List.mem_rtakeWhile_imp
  conv_rhs => rw [← hsplit, List.takeWhile_append]
  split
  · rename_i hall
    rw [(List.takeWhile_prefix _).eq_of_length hall, List.take_append, normalize_append_blank]
    intro c hc
    exact hblank c ((List.takeWhile_prefix _).subset (List.mem_of_mem_take hc))
  · rfl

/-- Either the first word is the same, or there is a semicolon in it. -/
theorem takeWhile_semicolon (p : UInt8 → Bool) (hp : p 59 = true) (x w : Str) (n : Nat) :
    (59 : UInt8) ∈ ((x ++ 59 :: w).takeWhile p).take n ∨
      ((x ++ 59 :: w).takeWhile p).take n = (x.takeWhile p).take n := by
  rw [List.takeWhile_append]
  split
  · rename_i hall
    have hx : x.takeWhile p = x := (List.takeWhile_prefix p).eq_of_length hall
    rw [List.takeWhile_cons_of_pos hp, hx]
    rcases Nat.lt_or_ge x.length n with hlt | hge
    · obtain ⟨k, rfl⟩ : ∃ k, n = x.length + (k + 1) := ⟨n - x.length - 1, by omega⟩
      rw [List.take_length_add_append, List.take_succ_cons]
      exact Or.inl (by simp)
    · exact Or.inr (List.take_append_of_le_length hge)
  · exact Or.inr rfl

/-- With a semicolon after it a value still names the same device, or none. -/
theorem normalize_token {canon : Str} (h : deviceIdNormalize (tokenOr deviceIdBufsz (trim (v ++ 59 :: w))).1 = some canon) :
    deviceIdNormalize (tokenOr deviceIdBufsz (trim v)).1 = some canon := by
  have hno : ∀ s : Str, deviceIdNormalize s = some canon → (59 : UInt8) ∉ s := by
    intro s hs hmem
    rw [normalize_of_bad hmem (by decide)] at hs
    simp at hs
  cases hv : v.dropWhile isspace with
  | nil =>
    -- the word begins with the semicolon
    have htrim : trim (v ++ 59 :: w) = 59 :: rtrim w := by
      rw [trim_blank_append (List.dropWhile_eq_nil_iff.mp hv), trim_of_first (by decide)]
    rw [htrim] at h
    refine absurd ?_ (hno _ h)
    simp [tokenOr, nextToken, isspace, quote, deviceIdBufsz]
  | cons d x =>
    have hd : isspace d = false := by
      have hne : v.dropWhile isspace ≠ [] := by simp [hv]
      have h := List.head_dropWhile_not isspace hne
      simpa [hv] using h
    have htrim : trim (v ++ 59 :: w) = d :: (x ++ 59 :: rtrim w) := by
      unfold trim
      rw [List.dropWhile_append, hv]
      exact rtrim_append_of_last (s := d :: x) (by decide)
    have htrim' : trim v = d :: rtrim x := by
      unfold trim
      rw [hv]
      exact rtrim_append_of_last (s := []) hd
    rw [htrim] at h
    rw [htrim']
    unfold tokenOr nextToken at h ⊢
    rw [List.dropWhile_cons_of_neg (by simp [hd])] at h ⊢
    dsimp only at h ⊢
    split at h
    · rename_i hq
      rw [if_pos hq]
      simp only [Option.getD_some] at h ⊢
      rcases takeWhile_semicolon (fun c => decide (c ≠ quote)) (by decide) x (rtrim w) (deviceIdBufsz - 1) with
        hmem | hsame
      · exact absurd hmem (hno _ h)
      · rw [hsame] at h
        rw [normalize_rtrim]
        exact h
    · rename_i hq
      rw [if_neg hq]
      simp only [Option.getD_some] at h ⊢
      rcases takeWhile_semicolon (fun c => !isspace c) (by decide) (d :: x) (rtrim w) (deviceIdBufsz - 1) with
        hmem | hsame
      · exact absurd hmem (hno _ h)
      · rw [← List.cons_append, hsame] at h
        rwa [show d :: rtrim x = rtrim (d :: x) from (rtrim_append_of_last (s := []) hd).symm, takeWhile_rtrim]

/-- The key of a line stands before the note. -/
theorem parseLine_glued {key value : Str} (hu : 61 ∉ u) (h : parseLine (r ++ 59 :: u) = some (key, value)) :
    ∃ v, value = trim (v ++ 59 :: rtrim u) ∧ parseLine r = some (key, trim v) := by
  cases hr : r.dropWhile isspace with
  | nil =>
    have htrim : trim (r ++ 59 :: u) = 59 :: rtrim u := by
      rw [trim_blank_append (List.dropWhile_eq_nil_iff.mp hr), trim_of_first (by decide)]
    unfold parseLine at h
    rw [htrim] at h
    simp at h
  | cons c x =>
    have hc : isspace c = false := by
      have hne : r.dropWhile isspace ≠ [] := by simp [hr]
      have h := List.head_dropWhile_not isspace hne
      simpa [hr] using h
    have htrim : trim (r ++ 59 :: u) = c :: (x ++ 59 :: rtrim u) := by
      unfold trim
      rw [List.dropWhile_append, hr]
      exact rtrim_append_of_last (s := c :: x) (by decide)
    have htrim' : trim r = c :: rtrim x := by
      unfold trim
      rw [hr]
      exact rtrim_append_of_last (s := []) hc
    obtain ⟨hfirst, heq⟩ : ¬ (c = 59 || c = 35 || c = 91) = true ∧ (61 : UInt8) ∈ c :: (x ++ 59 :: rtrim u) := by
      unfold parseLine at h
      rw [htrim] at h
      dsimp only at h
      split at h
      · simp at h
      · rename_i hfirst
        split at h
        · rename_i heq
          exact ⟨hfirst, heq⟩
        · simp at h
    have hin : (61 : UInt8) ∈ c :: x := by
      rw [← List.cons_append] at heq
      rcases List.mem_append.mp heq with hin | hin
      · exact hin
      · rcases List.mem_cons.mp hin with hin | hin
        · exact absurd hin (by decide)
        · exact absurd ((List.rdropWhile_prefix _ _).subset hin) hu
    obtain ⟨a, v, hsplit, ha⟩ := List.eq_append_cons_of_mem hin
    have hglued : c :: (x ++ 59 :: rtrim u) = a ++ 61 :: (v ++ 59 :: rtrim u) := by
      rw [← List.cons_append, hsplit, List.append_assoc, List.cons_append]
    have hplain : c :: rtrim x = a ++ 61 :: rtrim v := by
      have hleft : rtrim (c :: x) = c :: rtrim x := rtrim_append_of_last (s := []) hc
      rw [← hleft, hsplit]
      exact rtrim_append_of_last (by decide)
    rw [parseLine_of_trim htrim hfirst hglued ha] at h
    obtain ⟨rfl, rfl⟩ := Prod.mk.inj (Option.some.inj h)
    refine ⟨v, rfl, ?_⟩
    rw [parseLine_of_trim htrim' hfirst hplain ha, trim_rtrim]

/-- **The note.** It makes no peer of a line that was none, and the peer of another device of no line. -/
theorem peerOf_glued {p : ConfigPeer} (hu : 61 ∉ u) (h : peerOf (r ++ 59 :: u) = some p) :
    ∃ q, peerOf r = some q ∧ peerKey q = peerKey p := by
  obtain ⟨⟨key, value⟩, hline, hpeer⟩ := Option.bind_eq_some_iff.mp h
  obtain ⟨v, rfl, hplain⟩ := parseLine_glued hu hline
  dsimp only at hpeer
  split at hpeer
  · rename_i hkey
    obtain ⟨htok, hne⟩ := peerKey_of_token hpeer
    obtain ⟨canon, hcanon⟩ := Option.ne_none_iff_exists'.mp hne
    have hsame := normalize_token (htok.symm.trans hcanon)
    obtain ⟨q, hq⟩ := parsePeer_of_token hsame
    refine ⟨q, ?_, ?_⟩
    · unfold peerOf
      rw [hplain, Option.bind_some, if_pos hkey, hq]
    · rw [(peerKey_of_token hq).1, hsame, hcanon]
  · simp at hpeer

theorem peerOf_of_no_equals {l : Str} (h : 61 ∉ l) : peerOf l = none := by
  have hnone : parseLine l = none := by
    unfold parseLine
    split
    · rfl
    · rename_i c x htrim
      split
      · rfl
      · rw [if_neg]
        intro hmem
        rw [← htrim] at hmem
        exact h ((infix_trim l).subset hmem)
  unfold peerOf
  rw [hnone]
  rfl

/-- With the note at the end of it a text names no other devices. -/
theorem key_of_noted {text : Str} {cfg : Config} (hroom : (configLoad (some text) cfg).peers.length < configMaxPeers)
    {p : ConfigPeer} (hp : p ∈ (noted text cfg).peers) :
    ∃ q ∈ (configLoad (some text) cfg).peers, peerKey q = peerKey p := by
  have hnote : runtimeNote = 59 :: ascii " added at runtime:" := by decide
  obtain ⟨ps, r, u, rest, hold, hnew, hu, hrest⟩ :=
    TextLines.pieces_append nl lineRoom text 59 (ascii " added at runtime:")
  have hplain : (61 : UInt8) ∉ ascii " added at runtime:" := by decide
  have hload : (noted text cfg).peers =
      Roster.run peerKey configMaxPeers cfg.peers ((ps ++ (r ++ 59 :: u) :: rest).filterMap peerOf) := by
    unfold noted configLoad
    dsimp only
    rw [hnote, hnew, peers_foldl]
  have hbefore : (configLoad (some text) cfg).peers =
      Roster.run peerKey configMaxPeers cfg.peers ((ps ++ if r = [] then [] else [r]).filterMap peerOf) := by
    unfold configLoad
    dsimp only
    rw [hold, peers_foldl]
  rw [hload] at hp
  rw [hbefore] at hroom ⊢
  rcases Roster.mem_of_run hp with hmem | hmem
  · exact ⟨p, (Roster.prefix_run _ _ _ _).subset hmem, rfl⟩
  · obtain ⟨l, hl, hpeer⟩ := List.mem_filterMap.mp hmem
    rcases List.mem_append.mp hl with hl | hl
    · exact Roster.key_of_offered hroom
        (List.mem_filterMap.mpr ⟨l, List.mem_append_left _ hl, hpeer⟩)
    · rcases List.mem_cons.mp hl with rfl | hl
      · obtain ⟨q, hq, hkey⟩ := peerOf_glued (fun hmem => hplain (hu.subset hmem)) hpeer
        have hne : r ≠ [] := by
          rintro rfl
          simp [peerOf, parseLine, trim, rtrim] at hq
        obtain ⟨q', hq', hkey'⟩ := Roster.key_of_offered hroom (a := q)
          (List.mem_filterMap.mpr ⟨r, by simp [hne], hq⟩)
        exact ⟨q', hq', hkey'.trans hkey⟩
      · rw [peerOf_of_no_equals fun hmem => hplain ((hrest l hl).subset hmem)] at hpeer
        simp at hpeer

end Note

/-! ## One peer more -/

/-- One peer more, and nothing else. -/
def AddsPeer (p : ConfigPeer) (old new : Config) : Prop :=
  new.settings = old.settings ∧ Roster.Inserted p old.peers new.peers ∧ new.folders = old.folders

/-- The id is not configured. -/
def NewPeer (id : Str) (cfg : Config) : Prop := ∀ p ∈ cfg.peers, deviceIdEqual p.id id = false

section Append
variable {id host : Str} {port : Nat} {base : Config} {post : List Str}

theorem NewPeer.key {cfg : Config} (hnew : NewPeer id cfg) (hid : Formatted id) {q : ConfigPeer} (hq : q.id = id) :
    ∀ p ∈ cfg.peers, peerKey p ≠ peerKey q := by
  obtain ⟨-, -, canon, hcanon, -⟩ := hid.facts
  intro p hp heq
  have hdiff := hnew p hp
  unfold peerKey at heq
  unfold deviceIdEqual at hdiff
  rw [heq, hq, hcanon] at hdiff
  simp at hdiff

variable (post) in
/-- The line adds the peer with the port that is read. -/
theorem addsPeer_line (h : Heard id host port)
    (hroom : (post.foldl loadLine base).peers.length < configMaxPeers)
    (hnew : NewPeer id (post.foldl loadLine base)) :
    AddsPeer ⟨id, host, readPort host port⟩ (post.foldl loadLine base)
      (post.foldl loadLine (loadLine base (peerLine id host port))) := by
  obtain ⟨hp, hf, hs⟩ := offers_of_peer h
  have hkey := hnew.key h.id_form (q := ⟨id, host, readPort host port⟩) rfl
  have hload : loadLine base (peerLine id host port) =
      loadPieces base (TextLines.pieces nl lineRoom (peerLine id host port ++ [nl])) := rfl
  rw [← loadPieces_unlines] at hroom hkey ⊢
  rw [← loadPieces_unlines, hload]
  rw [peers_foldl] at hroom hkey
  refine ⟨?_, ?_, ?_⟩
  · rw [settings_foldl, settings_foldl, settings_foldl, hs]
    rfl
  · have hpre := Roster.prefix_run peerKey configMaxPeers base.peers
      ((TextLines.pieces nl lineRoom (TextLines.unlines nl post)).filterMap peerOf)
    rw [peers_foldl, peers_foldl, peers_foldl, hp]
    refine Roster.run_insert (Roster.inserted_of_new ?_ ?_) hroom hkey
    · exact Nat.lt_of_le_of_lt hpre.length_le hroom
    · exact fun p hmem => hkey p (hpre.subset hmem)
  · rw [folders_foldl, folders_foldl, folders_foldl, hf]
    rfl

theorem newPeer_not_mem {cfg : Config} (hnew : NewPeer id cfg) (hid : Formatted id) {q : ConfigPeer}
    (hq : q.id = id) : q ∉ cfg.peers :=
  fun hmem => hnew.key hid hq q hmem rfl

variable (post) in
/-- The peer is there only if its port is the one that is read. -/
theorem portKept_of_mem (h : Heard id host port)
    (hroom : (post.foldl loadLine base).peers.length < configMaxPeers)
    (hnew : NewPeer id (post.foldl loadLine base))
    (hmem : ⟨id, host, port⟩ ∈ (post.foldl loadLine (loadLine base (peerLine id host port))).peers) :
    PortKept host port := by
  obtain ⟨-, hins, -⟩ := addsPeer_line post h hroom hnew
  rcases hins.eq_or_mem hmem with heq | hold
  · exact (readPort_eq_iff h.port_pos).mp (congrArg ConfigPeer.port heq).symm
  · exact absurd hold (newPeer_not_mem hnew h.id_form rfl)

end Append

theorem newPeer_noted {text id : Str} {cfg : Config} (hroom : (configLoad (some text) cfg).peers.length < configMaxPeers)
    (hnew : NewPeer id (configLoad (some text) cfg)) : NewPeer id (noted text cfg) := by
  intro p hp
  obtain ⟨q, hq, hkey⟩ := key_of_noted hroom hp
  have hold := hnew q hq
  unfold peerKey at hkey
  unfold deviceIdEqual at hold ⊢
  rwa [hkey] at hold

/-- Such a peer is never refused. -/
theorem configAppendPeer_eq {path text id host : Str} {port : Nat} (h : Heard id host port) :
    configAppendPeer path (some text) id host port =
      some (appendAfterAnchor path (some text) (peerLine id host port) (ascii "peer")) := by
  have hid : textFieldSafe id = true :=
    List.all_eq_true.mpr fun c hc => (idChar_facts c (h.id_form.facts.2.1 c hc)).2.2.2
  have hhost : textFieldSafe host = true :=
    List.all_eq_true.mpr fun c hc => (hostChar_facts c (h.host_chars c hc)).2.2.2
  unfold configAppendPeer
  rw [hid, hhost]
  rfl

/-- **One peer more.** A discovered address that is written to the file is read back, and nothing
else changes, exactly when its port is kept and the note before it does no harm. -/
theorem discovered_peer_iff {path text buf raw addr id host : Str} {port : Nat} {cfg : Config}
    (_hbuf : discoParseAnnounce 96 buf = some (raw, addr)) (haddr : discoParseTcpAddr 64 addr = some (host, port))
    (hform : Formatted id)
    (hroom : (configLoad (some text) cfg).peers.length < configMaxPeers)
    (hnew : NewPeer id (configLoad (some text) cfg)) :
    (∃ new, configAppendPeer path (some text) id host port = some new ∧
        AddsPeer ⟨id, host, port⟩ (configLoad (some text) cfg) (configLoad (some new) cfg)) ↔
      PortKept host port ∧ (Carried path text ∨ noted text cfg = configLoad (some text) cfg) := by
  obtain ⟨hne, hlen, hchars, hpos, hmax⟩ := parseTcpAddr_facts haddr
  have h : Heard id host port := ⟨hform, hne, hlen, hchars, hpos, hmax⟩
  have hread : ∀ {old new' : Config}, PortKept host port → AddsPeer ⟨id, host, readPort host port⟩ old new' →
      AddsPeer ⟨id, host, port⟩ old new' := by
    intro old new' hkept hadds
    rwa [(readPort_eq_iff hpos).mpr hkept] at hadds
  have happend : (∃ new, configAppendPeer path (some text) id host port = some new ∧
      AddsPeer ⟨id, host, port⟩ (configLoad (some text) cfg) (configLoad (some new) cfg)) ↔
      AddsPeer ⟨id, host, port⟩ (configLoad (some text) cfg)
        (configLoad (some (appendAfterAnchor path (some text) (peerLine id host port) (ascii "peer"))) cfg) := by
    rw [configAppendPeer_eq h]
    constructor
    · rintro ⟨new, heq, hadds⟩
      obtain rfl := Option.some.inj heq
      exact hadds
    · intro hadds
      exact ⟨_, rfl, hadds⟩
  rw [happend]
  by_cases hc : Carried path text
  · obtain ⟨pre, post, hlines, hload⟩ := configLoad_append hc (peerLine id host port) (ascii "peer") cfg
    have hold : configLoad (some text) cfg = post.foldl loadLine (pre.foldl loadLine cfg) := by
      rw [configLoad_eq, hlines, List.foldl_append]
    rw [hold] at hroom hnew ⊢
    rw [hload]
    constructor
    · intro hadds
      exact ⟨portKept_of_mem post h hroom hnew hadds.2.1.mem, Or.inl hc⟩
    · rintro ⟨hkept, -⟩
      exact hread hkept (addsPeer_line post h hroom hnew)
  · have hnew' := newPeer_noted hroom hnew
    rw [configLoad_glued hc]
    constructor
    · intro hadds
      -- what the line adds is the peer, so that the note added nothing
      have hroom' : (noted text cfg).peers.length < configMaxPeers := by
        have hmem := hadds.2.1.mem
        unfold loadLine at hmem
        rw [peers_foldl] at hmem
        exact Roster.room_of_mem (newPeer_not_mem hnew' hform rfl) hmem
      have hkept : PortKept host port := portKept_of_mem [] h hroom' hnew' hadds.2.1.mem
      obtain ⟨hs, hp, hf⟩ := hread hkept (addsPeer_line [] h hroom' hnew')
      refine ⟨hkept, Or.inr ?_⟩
      have hpeers := hp.unique hadds.2.1 (newPeer_not_mem hnew' hform rfl) (newPeer_not_mem hnew hform rfl)
      exact Config.ext (hs.symm.trans hadds.1) hpeers (hf.symm.trans hadds.2.2)
    · rintro ⟨hkept, hharm⟩
      rw [hharm.resolve_left hc]
      exact hread hkept (addsPeer_line [] h hroom hnew)

/-- The id of the device in the examples. -/
def sampleRaw : Bytes := List.replicate 32 7

/-- It announces itself. -/
def sampleAnnounce (addr : Str) : Bytes :=
  [0x2E, 0xA7, 0xD9, 0x0B, 10, 32] ++ sampleRaw ++ [18, UInt8.ofNat addr.length] ++ addr

theorem discovered_peer_dialled :
    ∃ new, configAppendPeer (ascii "ENVARC:cfg") (some (ascii "window = 4\n")) (deviceIdFromRaw sampleRaw)
        (ascii "192.168.1.7") 22067 = some new ∧
      AddsPeer ⟨deviceIdFromRaw sampleRaw, ascii "192.168.1.7", 22067⟩
        (configLoad (some (ascii "window = 4\n")) configDefaults) (configLoad (some new) configDefaults) :=
  (discovered_peer_iff
    (show discoParseAnnounce 96 (sampleAnnounce (ascii "tcp://192.168.1.7:22067")) =
      some (sampleRaw, ascii "tcp://192.168.1.7:22067") by decide +kernel)
    (by decide +kernel) (formatted_fromRaw (by decide)) (by decide +kernel)
    (show ∀ p ∈ (configLoad (some (ascii "window = 4\n")) configDefaults).peers,
      deviceIdEqual p.id (deviceIdFromRaw sampleRaw) = false by decide +kernel)).mpr
    ⟨by decide +kernel, Or.inl (Or.inl (by decide))⟩

/-- After a host of 60 characters there is room for two digits. -/
theorem discovered_peer_cut :
    discoParseAnnounce 96 (sampleAnnounce (ascii "tcp://" ++ List.replicate 60 97 ++ ascii ":22067")) =
        some (sampleRaw, ascii "tcp://" ++ List.replicate 60 97 ++ ascii ":22067") ∧
      discoParseTcpAddr 64 (ascii "tcp://" ++ List.replicate 60 97 ++ ascii ":22067") =
        some (List.replicate 60 97, 22067) ∧
      Formatted (deviceIdFromRaw sampleRaw) ∧
      (configLoad (some []) configDefaults).peers = [] ∧
      ∃ new, configAppendPeer (ascii "ENVARC:cfg") (some []) (deviceIdFromRaw sampleRaw)
          (List.replicate 60 97) 22067 = some new ∧
        (configLoad (some new) configDefaults).peers =
          [⟨deviceIdFromRaw sampleRaw, List.replicate 60 97, 22⟩] ∧
        ¬ AddsPeer ⟨deviceIdFromRaw sampleRaw, List.replicate 60 97, 22067⟩
          (configLoad (some []) configDefaults) (configLoad (some new) configDefaults) := by
  have hload : (configLoad (some (appendAfterAnchor (ascii "ENVARC:cfg") (some [])
      (peerLine (deviceIdFromRaw sampleRaw) (List.replicate 60 97) 22067) (ascii "peer"))) configDefaults).peers =
        [⟨deviceIdFromRaw sampleRaw, List.replicate 60 97, 22⟩] := by
    decide +kernel
  refine ⟨by decide +kernel, by decide +kernel, formatted_fromRaw (by decide), rfl, _,
    if_pos (by decide +kernel), hload, ?_⟩
  intro hadds
  have hmem := hadds.2.1.mem
  rw [hload] at hmem
  have hport := congrArg ConfigPeer.port (List.mem_singleton.mp hmem)
  exact absurd hport (by decide)

end Amisync.ConfigFile

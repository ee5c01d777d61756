import Amisync.Lib.Ctype
import Amisync.Pbuf

/-!
# Local discovery (`disco.c`)

Every device on the network may send an announcement, and nothing in it is
authenticated: an id, and addresses as text.

* `discoParseAnnounce`: the id and the first address of a datagram.
* `discoParseTcpAddr`: host and port of an address.
* `parseAnnounce_facts`, `parseTcpAddr_facts`: what is known of them then.
-/

namespace Amisync.Disco

open Ctype Pbuf

def discoMagic : UInt32 := 0x2EA7D90B

/-! ## The datagram -/

/-- `id_out`, if there is one, and the string in `addr0`. -/
structure Announce where
  id : Option Bytes
  addr : Str
  deriving DecidableEq, Repr

/-- One field. An address that is empty leaves room for the next. -/
def announceField (addrcap : Nat) (a : Announce) (field : UInt32) : Value → Announce
  | .data d =>
    if field = 1 then if d.length = 32 then { a with id := some d } else a
    else if field = 2 then
      if 0 < addrcap ∧ a.addr = [] then { a with addr := (d.take (addrcap - 1)).takeWhile (· ≠ 0) } else a
    else a
  | _ => a

/-- The loop. It also ends at a tag that cannot be read; each field takes a byte or more. -/
def announceFields (addrcap : Nat) : Nat → Announce → Bytes → Option Announce
  | 0, a, _ => some a
  | fuel + 1, a, b =>
    match readTag b with
    | .eof => some a
    | .error => some a
    | .tag field wiretype rest =>
      match readValue wiretype rest with
      | none => none
      | some (v, rest) => announceFields addrcap fuel (announceField addrcap a field v) rest

/-- `disco_parse_announce` -/
def discoParseAnnounce (addrcap : Nat) (buf : Bytes) : Option (Bytes × Str) :=
  match buf with
  | p₀ :: p₁ :: p₂ :: p₃ :: rest =>
    if p₀.toUInt32 <<< 24 ||| p₁.toUInt32 <<< 16 ||| p₂.toUInt32 <<< 8 ||| p₃.toUInt32 = discoMagic then
      (announceFields addrcap rest.length ⟨none, []⟩ rest).bind fun a => a.id.map (·, a.addr)
    else none
  | _ => none

/-! ## The address -/

def hostCharOk (c : UInt8) : Bool :=
  (97 ≤ c && c ≤ 122) || (65 ≤ c && c ≤ 90) || (48 ≤ c && c ≤ 57) || c = 46 || c = 45 || c = 95

/-- `disco_parse_tcp_addr` -/
def discoParseTcpAddr (hostcap : Nat) (url : Str) : Option (Str × Nat) :=
  if (ascii "tcp://").isPrefixOf url then
    (strrchr 58 (url.drop 6)).bind fun (host, rest) =>
      if host = [] || hostcap ≤ host.length then none
      else if !host.all hostCharOk then none
      else
        let pn := atol rest
        if pn ≤ 0 || 65535 < pn then none else some (host, pn.toNat)
  else none

/-! ## What is accepted -/

/-- The id has its length, and the address is a string that fits. -/
def Announce.Fits (addrcap : Nat) (a : Announce) : Prop :=
  (∀ d, a.id = some d → d.length = 32) ∧ a.addr.length ≤ addrcap - 1 ∧ (0 : UInt8) ∉ a.addr

theorem announceField_fits {addrcap : Nat} {a : Announce} (h : a.Fits addrcap) (field : UInt32) (v : Value) :
    (announceField addrcap a field v).Fits addrcap := by
  obtain ⟨hid, hlen, hnul⟩ := h
  cases v with
  | num v => exact ⟨hid, hlen, hnul⟩
  | fixed => exact ⟨hid, hlen, hnul⟩
  | data d =>
    unfold announceField
    dsimp only
    split
    · split
      · rename_i hd
        exact ⟨fun e he => Option.some.inj he ▸ hd, hlen, hnul⟩
      · exact ⟨hid, hlen, hnul⟩
    · split
      · split
        · refine ⟨hid, ?_, ?_⟩
          · have hle := (List.takeWhile_prefix (p := fun c : UInt8 => decide (c ≠ 0))
              (l := d.take (addrcap - 1))).length_le
            rw [List.length_take] at hle
            exact Nat.le_trans hle (Nat.min_le_left _ _)
          · intro hmem
            simpa using List.mem_takeWhile_imp hmem
        · exact ⟨hid, hlen, hnul⟩
      · exact ⟨hid, hlen, hnul⟩

theorem announceFields_fits {addrcap fuel : Nat} {a a' : Announce} {b : Bytes} (h : a.Fits addrcap)
    (hrun : announceFields addrcap fuel a b = some a') : a'.Fits addrcap := by
  induction fuel generalizing a b with
  | zero =>
    obtain rfl := Option.some.inj hrun
    exact h
  | succ fuel ih =>
    unfold announceFields at hrun
    split at hrun
    · obtain rfl := Option.some.inj hrun
      exact h
    · obtain rfl := Option.some.inj hrun
      exact h
    · split at hrun
      · simp at hrun
      · exact ih (announceField_fits h _ _) hrun

/-- **Announcements.** The id is that of a device, and the address fits its buffer. -/
theorem parseAnnounce_facts {addrcap : Nat} {buf id : Bytes} {addr : Str}
    (h : discoParseAnnounce addrcap buf = some (id, addr)) :
    id.length = 32 ∧ addr.length ≤ addrcap - 1 ∧ (0 : UInt8) ∉ addr := by
  unfold discoParseAnnounce at h
  split at h
  · split at h
    · obtain ⟨a, hrun, hid⟩ := Option.bind_eq_some_iff.mp h
      obtain ⟨d, hd, heq⟩ := Option.map_eq_some_iff.mp hid
      obtain ⟨rfl, rfl⟩ := Prod.mk.inj heq
      obtain ⟨hlen, hfits⟩ := announceFields_fits (a := ⟨none, []⟩) ⟨by simp, Nat.zero_le _, by simp⟩ hrun
      exact ⟨hlen d hd, hfits⟩
    · simp at h
  · simp at h

/-- **Addresses.** The host fits its buffer and is made of letters, digits and the like. -/
theorem parseTcpAddr_facts {hostcap : Nat} {url host : Str} {port : Nat}
    (h : discoParseTcpAddr hostcap url = some (host, port)) :
    host ≠ [] ∧ host.length < hostcap ∧ (∀ c ∈ host, hostCharOk c = true) ∧ 0 < port ∧ port ≤ 65535 := by
  unfold discoParseTcpAddr at h
  split at h
  · obtain ⟨⟨before, rest⟩, -, h⟩ := Option.bind_eq_some_iff.mp h
    dsimp only at h
    split at h
    · simp at h
    · rename_i hlen
      split at h
      · simp at h
      · rename_i hchars
        split at h
        · simp at h
        · rename_i hport
          obtain ⟨rfl, rfl⟩ := Prod.mk.inj (Option.some.inj h)
          simp only [Bool.or_eq_true, decide_eq_true_iff, not_or] at hlen hport
          refine ⟨hlen.1, by omega, ?_, by omega, by omega⟩
          intro c hc
          rw [Bool.not_eq_true, Bool.not_eq_false'] at hchars
          exact List.all_eq_true.mp hchars c hc
  · simp at h

end Amisync.Disco

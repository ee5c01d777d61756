import Amisync.DeviceId
import Amisync.Lib.BitStream

/-!
# Device ids and raw keys (`device_id_to_raw`, `device_id_from_raw`)

The characters of an id and the bytes of a key are one stream of bits. The last
character that is not a check has four bits more than the key.

* `stream_b32Encode`, `stream_rawFrom`: both codecs, told by the stream.
* `normalize_spellings`: dashes, blanks and case do not count.
* `luhn32_replace`: a check character sees every single change.
* `device_id_codec`: there and back again, and no slip of one character.
* `same_device_iff`: when the two notions of one device agree.
-/

namespace Amisync

open Ctype BitStream

/-- The loop that drops the check characters; `i` is the position. -/
def dataFrom : Nat → Str → Str
  | _, [] => []
  | i, c :: cs => if i % 14 ≠ 13 then c :: dataFrom (i + 1) cs else dataFrom (i + 1) cs

/-- The value of a character. -/
def symbol (c : UInt8) : Nat := (b32Index c).getD 0

/-- The loop that packs characters into bytes. The top of the buffer is never cleared. -/
def rawFrom (buffer : UInt32) (bits : Nat) : Str → List UInt8
  | [] => []
  | c :: cs =>
    let buffer := buffer <<< 5 ||| UInt32.ofNat (symbol c)
    let bits := bits + 5
    if 8 ≤ bits then (buffer >>> UInt32.ofNat (bits - 8)).toUInt8 :: rawFrom buffer (bits - 8) cs
    else rawFrom buffer bits cs

def deviceIdToRaw (s : Str) : Option (List UInt8) :=
  (deviceIdNormalize s).bind fun canon =>
    let raw := rawFrom 0 0 (dataFrom 0 canon)
    if raw.length = 32 then some raw else none

/-! ## Symbols -/

theorem symbol_lt (c : UInt8) : symbol c < 2 ^ 5 := by
  revert c
  exact forall_byte (by decide +kernel)

theorem symbol_b32Char (n : Nat) : symbol (b32Char n) = n % 32 := by
  have h : ∀ k < 32, symbol (b32Alpha.getD k 0) = k := by decide
  exact h (n % 32) (Nat.mod_lt n (by omega))

/-- A character of the alphabet from its value. -/
theorem b32Char_symbol (c : UInt8) : Clean c → b32Char (symbol c) = c := by
  revert c
  exact forall_byte (by decide +kernel)

theorem symbol_inj {c d : UInt8} (hc : Clean c) (hd : Clean d) (h : symbol c = symbol d) : c = d := by
  rw [← b32Char_symbol c hc, ← b32Char_symbol d hd, h]

/-- The bits of the characters. -/
def charStream (s : Str) : List Bool := stream 5 (s.map symbol)

/-- The bits of the bytes. -/
def byteStream (raw : List UInt8) : List Bool := stream 8 (raw.map UInt8.toNat)

theorem charStream_append (s t : Str) : charStream (s ++ t) = charStream s ++ charStream t := by
  rw [charStream, List.map_append, stream_append, charStream, charStream]

theorem length_charStream (s : Str) : (charStream s).length = 5 * s.length := by
  rw [charStream, length_stream, List.length_map]

theorem length_byteStream (raw : List UInt8) : (byteStream raw).length = 8 * raw.length := by
  rw [byteStream, length_stream, List.length_map]

theorem byteStream_inj {raw raw' : List UInt8} (h : byteStream raw = byteStream raw') : raw = raw' := by
  have hlen : raw.length = raw'.length := by
    have := congrArg List.length h
    rw [length_byteStream, length_byteStream] at this
    omega
  have hbyte : ∀ l : List UInt8, ∀ n ∈ l.map UInt8.toNat, n < 2 ^ 8 := by
    intro l n hn
    obtain ⟨b, -, rfl⟩ := List.mem_map.mp hn
    exact b.toNat_lt
  have hmap := stream_inj (hbyte raw) (hbyte raw') (by simpa using hlen) h
  exact List.map_injective_iff.mpr (fun a b hab => UInt8.toNat_inj.mp hab) hmap

theorem charStream_inj {s t : Str} (hs : ∀ c ∈ s, Clean c) (ht : ∀ c ∈ t, Clean c)
    (h : charStream s = charStream t) : s = t := by
  have hlen : s.length = t.length := by
    have := congrArg List.length h
    rw [length_charStream, length_charStream] at this
    omega
  have hsym : ∀ l : Str, ∀ n ∈ l.map symbol, n < 2 ^ 5 := by
    intro l n hn
    obtain ⟨c, -, rfl⟩ := List.mem_map.mp hn
    exact symbol_lt c
  have hmap := stream_inj (hsym s) (hsym t) (by simpa using hlen) h
  have hback : ∀ l : Str, (∀ c ∈ l, Clean c) → (l.map symbol).map b32Char = l := by
    intro l hl
    rw [List.map_map]
    exact (List.map_congr_left fun c hc => b32Char_symbol c (hl c hc)).trans (List.map_id l)
  rw [← hback s hs, ← hback t ht, hmap]

/-! ## The codecs -/

theorem bits_b32Char (n : Nat) : BitStream.bits 5 (symbol (b32Char n)) = BitStream.bits 5 n := by
  rw [symbol_b32Char]
  exact bits_mod (k := 5) (Nat.le_refl 5) n

theorem stream_b32Emit (buffer bits : Nat) :
    charStream (b32Emit buffer bits).1 ++ BitStream.bits (b32Emit buffer bits).2 buffer =
      BitStream.bits bits buffer := by
  fun_induction b32Emit buffer bits with
  | case1 bits r ih =>
    have hcut : BitStream.bits (bits + 5) buffer =
        BitStream.bits 5 (buffer >>> bits) ++ BitStream.bits bits buffer := by
      rw [Nat.add_comm, bits_add]
    show _ = BitStream.bits (bits + 5) buffer
    rw [hcut, charStream, List.map_cons, stream_cons, bits_b32Char, List.append_assoc]
    exact congrArg _ ih
  | case2 bits hsmall => rfl

theorem stream_b32EncodeFrom (buffer bits : Nat) (hbits : bits < 5) (bs : List UInt8) :
    ∃ pad, charStream (b32EncodeFrom buffer bits bs) =
      BitStream.bits bits buffer ++ byteStream bs ++ BitStream.bits pad 0 := by
  induction bs generalizing buffer bits with
  | nil =>
    rw [b32EncodeFrom]
    split
    · refine ⟨5 - bits, ?_⟩
      have hchar := bits_shiftLeft_or bits buffer (b := 5 - bits) (d := 0) (Nat.two_pow_pos _)
      rw [show bits + (5 - bits) = 5 by omega, Nat.or_zero] at hchar
      rw [charStream, List.map_cons, stream_cons, bits_b32Char, hchar]
      simp [byteStream]
    · obtain rfl : bits = 0 := by omega
      exact ⟨0, rfl⟩
  | cons b bs ih =>
    obtain ⟨-, hrest, -⟩ := b32Emit_facts (buffer <<< 8 ||| b.toNat) (bits + 8)
    have hemit := stream_b32Emit (buffer <<< 8 ||| b.toNat) (bits + 8)
    obtain ⟨pad, hpad⟩ := ih ((buffer <<< 8 ||| b.toNat) &&& (2 ^ ((bits + 8) % 5) - 1)) ((bits + 8) % 5)
      (Nat.mod_lt _ (by omega))
    refine ⟨pad, ?_⟩
    rw [bits_shiftLeft_or bits buffer b.toNat_lt, hrest] at hemit
    rw [b32EncodeFrom, hrest, charStream_append, hpad, Nat.and_two_pow_sub_one_eq_mod,
      bits_mod (Nat.le_refl _), ← List.append_assoc, ← List.append_assoc, hemit]
    simp [byteStream]

/-- **From a key.** -/
theorem stream_b32Encode (hash : List UInt8) :
    ∃ pad, charStream (b32Encode hash) = byteStream hash ++ BitStream.bits pad 0 := by
  obtain ⟨pad, h⟩ := stream_b32EncodeFrom 0 0 (by omega) hash
  exact ⟨pad, h⟩

/-- **To a key.** Fewer than eight bits are left over. -/
theorem stream_rawFrom (buffer : UInt32) (bits : Nat) (hbits : bits < 8) (cs : Str) :
    ∃ rest, rest.length < 8 ∧ BitStream.bits bits buffer.toNat ++ charStream cs =
      byteStream (rawFrom buffer bits cs) ++ rest := by
  induction cs generalizing buffer bits with
  | nil =>
    refine ⟨BitStream.bits bits buffer.toNat, ?_, by simp [charStream, byteStream, rawFrom]⟩
    rw [length_bits]
    exact hbits
  | cons c cs ih =>
    have hsym := symbol_lt c
    have hword : (buffer <<< 5 ||| UInt32.ofNat (symbol c)).toNat =
        (buffer.toNat <<< 5 ||| symbol c) % 2 ^ 32 := by
      rw [UInt32.toNat_or, UInt32.toNat_shiftLeft, UInt32.toNat_ofNat', Nat.or_mod_two_pow]
      rfl
    have hnext : BitStream.bits (bits + 5) (buffer <<< 5 ||| UInt32.ofNat (symbol c)).toNat =
        BitStream.bits bits buffer.toNat ++ BitStream.bits 5 (symbol c) := by
      rw [hword, bits_mod (by omega), bits_shiftLeft_or bits buffer.toNat hsym]
    have hhead : BitStream.bits bits buffer.toNat ++ charStream (c :: cs) =
        BitStream.bits (bits + 5) (buffer <<< 5 ||| UInt32.ofNat (symbol c)).toNat ++ charStream cs := by
      rw [hnext, charStream, List.map_cons, stream_cons, List.append_assoc]
      rfl
    rw [hhead, rawFrom]
    generalize buffer <<< 5 ||| UInt32.ofNat (symbol c) = buffer' at *
    split
    · rename_i hfull
      obtain ⟨rest, hrest, h⟩ := ih buffer' (bits + 5 - 8) (by omega)
      refine ⟨rest, hrest, ?_⟩
      have hbyte : BitStream.bits 8 (buffer' >>> UInt32.ofNat (bits + 5 - 8)).toUInt8.toNat =
          BitStream.bits 8 (buffer'.toNat >>> (bits + 5 - 8)) := by
        rw [UInt32.toNat_toUInt8, bits_mod (Nat.le_refl 8), UInt32.toNat_shiftRight, UInt32.toNat_ofNat']
        congr 2
        omega
      have hcut := bits_add 8 (bits + 5 - 8) buffer'.toNat
      rw [show 8 + (bits + 5 - 8) = bits + 5 by omega] at hcut
      rw [hcut, List.append_assoc, h, ← hbyte, ← List.append_assoc]
      rfl
    · rename_i hshort
      exact ih buffer' (bits + 5) (by omega)

/-! ## Chunks -/

/-- A chunk of data is kept. -/
theorem dataFrom_keep {i : Nat} {x : Str} (hx : i % 14 + x.length ≤ 13) (y : Str) :
    dataFrom i (x ++ y) = x ++ dataFrom (i + x.length) y := by
  induction x generalizing i with
  | nil => rfl
  | cons c x ih =>
    rw [List.length_cons] at hx
    rw [List.cons_append, dataFrom, if_pos (by omega), ih (by omega), List.length_cons, List.cons_append,
      Nat.add_assoc, Nat.add_comm 1]

/-- A chunk with its check character. -/
theorem dataFrom_chunk {i : Nat} (hi : i % 14 = 0) {x : Str} (hx : x.length = 13) (l : UInt8) (y : Str) :
    dataFrom i ((x ++ [l]) ++ y) = x ++ dataFrom (i + 14) y := by
  rw [List.append_assoc, dataFrom_keep (by omega), hx, List.singleton_append, dataFrom, if_neg (by omega)]

theorem dataFrom_last {x : Str} (hx : x.length = 13) (l : UInt8) : dataFrom 42 (x ++ [l]) = x := by
  have h := dataFrom_chunk (i := 42) (by decide) hx l []
  rw [List.append_nil, dataFrom, List.append_nil] at h
  exact h

/-- **An id that is accepted** is its data with the checks: three chunks, and one with the last
character that is no check. -/
theorem exists_chunks {s canon : Str} (h : deviceIdNormalize s = some canon) :
    ∃ x₀ x₁ x₂ w z, x₀.length = 13 ∧ x₁.length = 13 ∧ x₂.length = 13 ∧ w.length = 12 ∧
      canon = (x₀ ++ [luhn32 x₀]) ++ ((x₁ ++ [luhn32 x₁]) ++ ((x₂ ++ [luhn32 x₂]) ++
        ((w ++ [z]) ++ [luhn32 (w ++ [z])]))) ∧
      dataFrom 0 canon = x₀ ++ (x₁ ++ (x₂ ++ (w ++ [z]))) := by
  obtain ⟨hlen, hok, -⟩ := normalize_facts h
  have hsplit : ∀ t : Str, 14 ≤ t.length → ∃ x l, x.length = 13 ∧ t = (x ++ [l]) ++ t.drop 14 := by
    intro t ht
    refine ⟨t.take 13, t[13], by rw [List.length_take]; omega, ?_⟩
    conv_lhs => rw [← List.take_append_drop 14 t, List.take_succ_eq_append_getElem (by omega)]
  obtain ⟨x₀, l₀, h₀, e₀⟩ := hsplit canon (by omega)
  obtain ⟨x₁, l₁, h₁, e₁⟩ := hsplit (canon.drop 14) (by rw [List.length_drop]; omega)
  obtain ⟨x₂, l₂, h₂, e₂⟩ := hsplit ((canon.drop 14).drop 14) (by simp only [List.length_drop]; omega)
  obtain ⟨x₃, l₃, h₃, e₃⟩ := hsplit (((canon.drop 14).drop 14).drop 14)
    (by simp only [List.length_drop]; omega)
  have hnil : (((canon.drop 14).drop 14).drop 14).drop 14 = [] := by
    rw [List.drop_drop, List.drop_drop, List.drop_drop]
    exact List.drop_of_length_le (by omega)
  rw [hnil, List.append_nil] at e₃
  have hcanon : canon = (x₀ ++ [l₀]) ++ ((x₁ ++ [l₁]) ++ ((x₂ ++ [l₂]) ++ (x₃ ++ [l₃]))) := by
    rw [← e₃, ← e₂, ← e₁, ← e₀]
  rw [hcanon, checksOk_chunks l₀ l₁ l₂ l₃ h₀ h₁ h₂ h₃] at hok
  obtain ⟨rfl, rfl, rfl, rfl⟩ := hok
  obtain ⟨w, z, rfl⟩ : ∃ w z, x₃ = w ++ [z] :=
    ⟨x₃.dropLast, x₃.getLast (by intro hx; rw [hx] at h₃; cases h₃), (List.dropLast_append_getLast _).symm⟩
  have hw : w.length = 12 := by
    rw [List.length_append, List.length_singleton] at h₃
    omega
  refine ⟨x₀, x₁, x₂, w, z, h₀, h₁, h₂, hw, hcanon, ?_⟩
  rw [hcanon, dataFrom_chunk (by decide) h₀, dataFrom_chunk (by decide) h₁, dataFrom_chunk (by decide) h₂,
    dataFrom_last h₃]

theorem dataFrom_withChecks {b : Str} (hb : b.length = 52) : dataFrom 0 (withChecks b) = b := by
  obtain ⟨h₀, h₁, h₂, h₃⟩ := length_chunks hb
  rw [withChecks_eq, dataFrom_chunk (by decide) h₀, dataFrom_chunk (by decide) h₁, dataFrom_chunk (by decide) h₂,
    dataFrom_last h₃]
  have hjoin : ∀ n, (b.drop n).take 13 ++ b.drop (n + 13) = b.drop n := by
    intro n
    rw [← List.drop_drop, List.take_append_drop]
  have hend : (b.drop 39).take 13 = b.drop 39 := List.take_of_length_le (by rw [List.length_drop]; omega)
  rw [hend, hjoin 26, hjoin 13]
  exact List.take_append_drop 13 b

/-! ## The key of an id -/

/-- **The key** is what the bits say, less the four that are too many. -/
theorem deviceIdToRaw_eq {s canon : Str} (h : deviceIdNormalize s = some canon) :
    ∃ raw, deviceIdToRaw s = some raw ∧ byteStream raw = (charStream (dataFrom 0 canon)).take 256 := by
  obtain ⟨x₀, x₁, x₂, w, z, h₀, h₁, h₂, hw, -, hdata⟩ := exists_chunks h
  have hlen : (dataFrom 0 canon).length = 52 := by
    rw [hdata]
    simp only [List.length_append, List.length_singleton]
    omega
  obtain ⟨rest, hrest, hstream⟩ := stream_rawFrom 0 0 (by omega) (dataFrom 0 canon)
  have hbits := congrArg List.length hstream
  rw [List.length_append, length_bits, length_charStream, hlen, List.length_append, length_byteStream] at hbits
  have hraw : (rawFrom 0 0 (dataFrom 0 canon)).length = 32 := by omega
  refine ⟨rawFrom 0 0 (dataFrom 0 canon), ?_, ?_⟩
  · rw [deviceIdToRaw, h, Option.bind_some]
    dsimp only
    rw [if_pos hraw]
  · have hzero : BitStream.bits 0 (0 : UInt32).toNat ++ charStream (dataFrom 0 canon) =
        charStream (dataFrom 0 canon) := rfl
    rw [← hzero, hstream, List.take_left' (by rw [length_byteStream, hraw])]

/-- **There and back.** -/
theorem deviceIdToRaw_fromRaw {key : List UInt8} (hkey : key.length = 32) :
    deviceIdToRaw (deviceIdFromRaw key) = some key := by
  obtain ⟨hb, hclean⟩ := b32Encode_facts hkey
  have hnorm := normalize_withChecks hb hclean
  obtain ⟨raw, hraw, hbytes⟩ := deviceIdToRaw_eq (normalize_formatId hnorm)
  obtain ⟨pad, hpad⟩ := stream_b32Encode key
  rw [dataFrom_withChecks hb, hpad, List.take_left' (by rw [length_byteStream, hkey])] at hbytes
  rw [byteStream_inj hbytes] at hraw
  exact hraw

/-! ## Spellings -/

/-- A dash or white space. -/
def Separator (c : UInt8) : Prop := c = 45 ∨ isspace c = true

/-- One change to how an id is spelled. -/
inductive Respelled : Str → Str → Prop
  | insert {u v : Str} {c : UInt8} : Separator c → Respelled (u ++ v) (u ++ c :: v)
  | remove {u v : Str} {c : UInt8} : Separator c → Respelled (u ++ c :: v) (u ++ v)
  | letter {u v : Str} {c d : UInt8} : toupper c = toupper d → Respelled (u ++ c :: v) (u ++ d :: v)

theorem separator_toupper (c : UInt8) : (c = 45 || isspace c) = (toupper c = 45 || isspace (toupper c)) := by
  revert c
  exact forall_byte (by decide +kernel)

theorem collectId_append (canon u v : Str) :
    collectId canon (u ++ v) = (collectId canon u).bind fun canon => collectId canon v := by
  induction u generalizing canon with
  | nil => rfl
  | cons c u ih =>
    rw [List.cons_append, collectId, collectId]
    split
    · exact ih canon
    · split
      · rfl
      · split
        · rfl
        · exact ih _

theorem collectId_separator {c : UInt8} (hc : Separator c) (canon v : Str) :
    collectId canon (c :: v) = collectId canon v := by
  rw [collectId, if_pos]
  rcases hc with hc | hc
  · simp [hc]
  · simp [hc]

theorem collectId_letter {c d : UInt8} (h : toupper c = toupper d) (canon v : Str) :
    collectId canon (c :: v) = collectId canon (d :: v) := by
  have hsep : (c = 45 || isspace c) = (d = 45 || isspace d) := by
    rw [separator_toupper c, separator_toupper d, h]
  rw [collectId, collectId, h, hsep]

/-- **Step.** -/
theorem normalize_respelled {s t : Str} (h : Respelled s t) : deviceIdNormalize s = deviceIdNormalize t := by
  unfold deviceIdNormalize
  cases h with
  | insert hc => rw [collectId_append, collectId_append]; simp only [collectId_separator hc]
  | remove hc => rw [collectId_append, collectId_append]; simp only [collectId_separator hc]
  | letter hcd => rw [collectId_append, collectId_append]; simp only [collectId_letter hcd]

/-- **Run.** -/
theorem normalize_spellings {s t : Str} (h : Relation.ReflTransGen Respelled s t) :
    deviceIdNormalize s = deviceIdNormalize t := by
  induction h with
  | refl => rfl
  | tail _ hstep ih => rw [ih, normalize_respelled hstep]

/-! ## Slips -/

/-- The sum of a chunk sees each of its characters: doubling and folding is one to one. -/
theorem luhnSum_replace {factor : Nat} (hf : factor = 1 ∨ factor = 2) (u v : Str) {c d : UInt8} (hc : Clean c)
    (hd : Clean d) (h : luhnSum factor (u ++ c :: v) % 32 = luhnSum factor (u ++ d :: v) % 32) : c = d := by
  induction u generalizing factor with
  | nil =>
    have hc32 := symbol_lt c
    have hd32 := symbol_lt d
    rw [List.nil_append, List.nil_append, luhnSum, luhnSum] at h
    change (factor * symbol c / 32 + factor * symbol c % 32 + _) % 32 =
      (factor * symbol d / 32 + factor * symbol d % 32 + _) % 32 at h
    refine symbol_inj hc hd ?_
    rcases hf with rfl | rfl
    · omega
    · omega
  | cons a u ih =>
    rw [List.cons_append, List.cons_append, luhnSum, luhnSum] at h
    have hnext : (if factor = 2 then 1 else 2) = 1 ∨ (if factor = 2 then 1 else 2) = 2 := by
      split
      · exact Or.inl rfl
      · exact Or.inr rfl
    refine ih hnext ?_
    omega

theorem luhn32_replace {u v : Str} {c d : UInt8} (hc : Clean c) (hd : Clean d)
    (h : luhn32 (u ++ c :: v) = luhn32 (u ++ d :: v)) : c = d := by
  have hsym := congrArg symbol h
  rw [luhn32, luhn32, symbol_b32Char, symbol_b32Char] at hsym
  exact luhnSum_replace (Or.inl rfl) u v hc hd (by omega)

theorem check_chunk {canon : Str} (hok : checksOk canon = true) {i : Nat} (hi : i < 4) :
    some (luhn32 ((canon.drop (14 * i)).take 13)) = (canon.drop (14 * i))[13]? := by
  have := List.all_eq_true.mp hok i (List.mem_range.mpr hi)
  rw [beq_iff_eq] at this
  rw [this, List.getElem?_drop]

/-- **A slip** in a character, the checks included. -/
theorem checks_replace {x y : Str} {c d : UInt8} (hlen : (x ++ c :: y).length = 56)
    (hc : Clean c) (hd : Clean d) (hokc : checksOk (x ++ c :: y) = true) (hokd : checksOk (x ++ d :: y) = true) :
    c = d := by
  rw [List.length_append, List.length_cons] at hlen
  have hi : x.length / 14 < 4 := by omega
  have hle : 14 * (x.length / 14) ≤ x.length := by omega
  have hcheckc := check_chunk hokc hi
  have hcheckd := check_chunk hokd hi
  rw [List.drop_append_of_le_length hle] at hcheckc hcheckd
  have hu : (x.drop (14 * (x.length / 14))).length = x.length % 14 := by
    rw [List.length_drop]
    omega
  generalize x.drop (14 * (x.length / 14)) = u at *
  rcases Nat.lt_or_ge u.length 13 with hlt | hge
  · -- the chunk has it
    have htake : ∀ e : UInt8, (u ++ e :: y).take 13 = u ++ e :: y.take (12 - u.length) := by
      intro e
      rw [List.take_append, List.take_of_length_le (by omega)]
      congr 1
      rw [show 13 - u.length = (12 - u.length) + 1 by omega, List.take_succ_cons]
    have hget : ∀ e : UInt8, (u ++ e :: y)[13]? = y[12 - u.length]? := by
      intro e
      rw [List.getElem?_append_right (by omega), show 13 - u.length = (12 - u.length) + 1 by omega,
        List.getElem?_cons_succ]
    rw [htake, hget] at hcheckc hcheckd
    exact luhn32_replace hc hd (Option.some.inj (hcheckc.trans hcheckd.symm))
  · -- it is the check
    have hthirteen : u.length = 13 := by omega
    have hget : ∀ e : UInt8, (u ++ e :: y)[13]? = some e := by
      intro e
      rw [List.getElem?_append_right (by omega), hthirteen, Nat.sub_self, List.getElem?_cons_zero]
    rw [List.take_left' hthirteen, hget] at hcheckc hcheckd
    exact Option.some.inj (hcheckc.symm.trans hcheckd)

/-- What is collected of the rest does not depend on what was collected before. -/
theorem collectId_tail {canon v out : Str} (h : collectId canon v = some out) :
    ∃ y, out = canon ++ y ∧ ∀ canon', canon'.length = canon.length → collectId canon' v = some (canon' ++ y) := by
  induction v generalizing canon with
  | nil =>
    obtain rfl := Option.some.inj h
    exact ⟨[], (List.append_nil _).symm, fun canon' _ => by rw [collectId, List.append_nil]⟩
  | cons c v ih =>
    rw [collectId] at h
    split at h
    · rename_i hsep
      obtain ⟨y, hout, hall⟩ := ih h
      refine ⟨y, hout, ?_⟩
      intro canon' hlen
      rw [collectId, if_pos hsep]
      exact hall canon' hlen
    · rename_i hsep
      split at h
      · cases h
      · rename_i hsome
        split at h
        · cases h
        · rename_i hroom
          obtain ⟨y, hout, hall⟩ := ih h
          refine ⟨toupper c :: y, by rw [hout, List.append_assoc, List.singleton_append], ?_⟩
          intro canon' hlen
          rw [collectId, if_neg hsep, if_neg hsome, if_neg (by omega),
            hall (canon' ++ [toupper c]) (by rw [List.length_append, List.length_append, hlen]),
            List.append_assoc, List.singleton_append]

theorem not_separator_of_clean (c : UInt8) : Clean (toupper c) → (c = 45 || isspace c) = false := by
  revert c
  exact forall_byte (by decide +kernel)

theorem collectId_of_normalize {s canon : Str} (h : deviceIdNormalize s = some canon) :
    collectId [] s = some canon := by
  obtain ⟨out, hout, hif⟩ := Option.bind_eq_some_iff.mp h
  split at hif
  · rw [← Option.some.inj hif]
    exact hout
  · cases hif

/-- **One wrong character** and the id is rejected. -/
theorem normalize_replace {u v canon : Str} {c d : UInt8} (h : deviceIdNormalize (u ++ c :: v) = some canon)
    (hc : ¬ Separator c) (hd : Clean (toupper d)) (hne : toupper c ≠ toupper d) :
    deviceIdNormalize (u ++ d :: v) = none := by
  obtain ⟨hlen, hok, hclean⟩ := normalize_facts h
  have hcollect := collectId_of_normalize h
  rw [collectId_append] at hcollect
  obtain ⟨x, hx, hrest⟩ := Option.bind_eq_some_iff.mp hcollect
  have hsep : ¬ (c = 45 || isspace c) = true := by
    intro hsep
    rw [Bool.or_eq_true, decide_eq_true_eq] at hsep
    exact hc hsep
  rw [collectId, if_neg hsep] at hrest
  split at hrest
  · cases hrest
  split at hrest
  · cases hrest
  · rename_i hsome hroom
    obtain ⟨y, rfl, hall⟩ := collectId_tail hrest
    have hother : collectId [] (u ++ d :: v) = some ((x ++ [toupper d]) ++ y) := by
      have hsome' : ¬ (b32Index (toupper d)).isNone = true := by
        rw [← Option.not_isSome, show (b32Index (toupper d)).isSome = true from hd]
        simp
      rw [collectId_append, hx, Option.bind_some, collectId, if_neg (by rw [not_separator_of_clean d hd]; simp),
        if_neg hsome', if_neg hroom]
      exact hall _ (by rw [List.length_append, List.length_append]; rfl)
    unfold deviceIdNormalize
    rw [hother, Option.bind_some]
    refine if_neg ?_
    intro hboth
    rw [Bool.and_eq_true] at hboth
    rw [List.append_assoc, List.singleton_append] at hok hlen hboth hclean
    have hcc : Clean (toupper c) := hclean _ (List.mem_append_right _ List.mem_cons_self)
    exact hne (checks_replace hlen hcc hd hok hboth.2)

/-! ## The main results -/

/-- **The codec.** A key comes back from its id; every spelling of the id has one normal form, of 56
characters, which is its own; and an id that is accepted is rejected with any one of its
characters changed for another. -/
theorem device_id_codec :
    (∀ key : List UInt8, key.length = 32 → deviceIdToRaw (deviceIdFromRaw key) = some key ∧
      ∃ canon, canon.length = 56 ∧
        ∀ s, Relation.ReflTransGen Respelled (deviceIdFromRaw key) s → deviceIdNormalize s = some canon) ∧
    (∀ s canon, deviceIdNormalize s = some canon → deviceIdNormalize canon = some canon) ∧
    (∀ u c v canon, deviceIdNormalize (u ++ c :: v) = some canon → ¬ Separator c →
      ∀ d, Clean (toupper d) → toupper c ≠ toupper d → deviceIdNormalize (u ++ d :: v) = none) := by
  refine ⟨?_, fun s canon h => normalize_of_normalize h, fun u c v canon h hc d hd hne =>
    normalize_replace h hc hd hne⟩
  intro key hkey
  obtain ⟨hb, hclean⟩ := b32Encode_facts hkey
  have hnorm := normalize_withChecks hb hclean
  refine ⟨deviceIdToRaw_fromRaw hkey, withChecks (b32Encode key), (normalize_facts hnorm).1, ?_⟩
  intro s hs
  rw [← normalize_spellings hs]
  exact normalize_formatId hnorm

/-- Of the last character that is no check, the bits the key has no room for. -/
def spareBits (canon : Str) : Option Nat := canon[54]?.map fun c => symbol c % 16

/-- What is left of an id without them. -/
def keyPart (canon : Str) : Str × Option Nat := (canon.take 54, canon[54]?.map fun c => symbol c / 16)

/-- The first fifty-four characters are the first fifty-one data with their checks. -/
def checkedFront (front : Str) : Str := (front.take 13 ++ [luhn32 (front.take 13)]) ++
  (((front.drop 13).take 13 ++ [luhn32 ((front.drop 13).take 13)]) ++
  (((front.drop 26).take 13 ++ [luhn32 ((front.drop 26).take 13)]) ++ front.drop 39))

theorem exists_front {s canon : Str} (h : deviceIdNormalize s = some canon) :
    ∃ front z, front.length = 51 ∧ (∀ c ∈ front, Clean c) ∧ Clean z ∧
      canon = checkedFront front ++ [z, luhn32 (front.drop 39 ++ [z])] ∧
      canon.take 54 = checkedFront front ∧ canon[54]? = some z ∧
      dataFrom 0 (checkedFront front) = front ∧ dataFrom 0 canon = front ++ [z] := by
  obtain ⟨x₀, x₁, x₂, w, z, h₀, h₁, h₂, hw, hcanon, hdata⟩ := exists_chunks h
  have hclean := (normalize_facts h).2.2
  have hfront : checkedFront (x₀ ++ (x₁ ++ (x₂ ++ w))) = (x₀ ++ [luhn32 x₀]) ++ ((x₁ ++ [luhn32 x₁]) ++
      ((x₂ ++ [luhn32 x₂]) ++ w)) := by
    have d₁ : (x₀ ++ (x₁ ++ (x₂ ++ w))).drop 13 = x₁ ++ (x₂ ++ w) := List.drop_left' h₀
    have d₂ : (x₀ ++ (x₁ ++ (x₂ ++ w))).drop 26 = x₂ ++ w := by
      rw [show 26 = 13 + 13 by rfl, ← List.drop_drop, d₁, List.drop_left' h₁]
    have d₃ : (x₀ ++ (x₁ ++ (x₂ ++ w))).drop 39 = w := by
      rw [show 39 = 26 + 13 by rfl, ← List.drop_drop, d₂, List.drop_left' h₂]
    rw [checkedFront, d₁, d₂, d₃, List.take_left' h₀, List.take_left' h₁, List.take_left' h₂]
  have hdrop : (x₀ ++ (x₁ ++ (x₂ ++ w))).drop 39 = w := by
    rw [← List.append_assoc, ← List.append_assoc]
    exact List.drop_left' (by simp only [List.length_append]; omega)
  have hlen : (checkedFront (x₀ ++ (x₁ ++ (x₂ ++ w)))).length = 54 := by
    rw [hfront]
    simp only [List.length_append, List.length_singleton]
    omega
  have hsplit : canon = checkedFront (x₀ ++ (x₁ ++ (x₂ ++ w))) ++ [z, luhn32 (w ++ [z])] := by
    rw [hcanon, hfront]
    simp only [List.append_assoc, List.cons_append, List.nil_append]
  have hmem : ∀ c ∈ x₀ ++ (x₁ ++ (x₂ ++ w)) ++ [z], c ∈ canon := by
    intro c hc
    rw [hcanon]
    simp only [List.mem_append, List.mem_singleton] at hc ⊢
    tauto
  refine ⟨x₀ ++ (x₁ ++ (x₂ ++ w)), z, ?_, ?_, ?_, ?_, ?_, ?_, ?_, ?_⟩
  · simp only [List.length_append]
    omega
  · exact fun c hc => hclean c (hmem c (List.mem_append_left _ hc))
  · exact hclean z (hmem z (List.mem_append_right _ List.mem_cons_self))
  · rw [hdrop]
    exact hsplit
  · rw [hsplit, List.take_left' hlen]
  · rw [hsplit, List.getElem?_append_right (by omega), hlen]
    rfl
  · have hlast : dataFrom 42 w = w := by
      have := dataFrom_keep (i := 42) (x := w) (by omega) []
      rw [List.append_nil, dataFrom, List.append_nil] at this
      exact this
    rw [hfront, dataFrom_chunk (by decide) h₀, dataFrom_chunk (by decide) h₁, dataFrom_chunk (by decide) h₂,
      hlast]
  · rw [hdata]
    simp only [List.append_assoc]

/-- Two ids have one key if they are alike but for the bits it has no room for. -/
theorem deviceIdToRaw_eq_iff {a b x y : Str} (ha : deviceIdNormalize a = some x)
    (hb : deviceIdNormalize b = some y) : deviceIdToRaw a = deviceIdToRaw b ↔ keyPart x = keyPart y := by
  obtain ⟨f, z, hlen, hf, hz, -, htake, hget, hback, hdata⟩ := exists_front ha
  obtain ⟨g, t, hlen', hg, ht, -, htake', hget', hback', hdata'⟩ := exists_front hb
  obtain ⟨raw, hraw, hbytes⟩ := deviceIdToRaw_eq ha
  obtain ⟨raw', hraw', hbytes'⟩ := deviceIdToRaw_eq hb
  have hcut : ∀ (l : Str) (c : UInt8), l.length = 51 → (charStream (l ++ [c])).take 256 =
      charStream l ++ BitStream.bits 1 (symbol c >>> 4) := by
    intro l c hl
    have hfive : charStream [c] = BitStream.bits 1 (symbol c >>> 4) ++ BitStream.bits 4 (symbol c) := by
      rw [← bits_add]
      exact List.append_nil _
    rw [charStream_append, hfive, ← List.append_assoc]
    exact List.take_left' (by rw [List.length_append, length_charStream, length_bits, hl])
  rw [hdata, hcut f z hlen] at hbytes
  rw [hdata', hcut g t hlen'] at hbytes'
  have hz32 := symbol_lt z
  have ht32 := symbol_lt t
  have hshift : ∀ n : Nat, n >>> 4 = n / 16 := fun n => Nat.shiftRight_eq_div_pow n 4
  rw [hraw, hraw', keyPart, keyPart, htake, htake', hget, hget']
  constructor
  · intro h
    rw [← Option.some.inj h, hbytes] at hbytes'
    obtain ⟨hfront, htop⟩ := List.append_inj hbytes' (by rw [length_charStream, length_charStream, hlen, hlen'])
    have hbit := bits_inj.mp htop
    rw [hshift, hshift] at hbit
    rw [charStream_inj hf hg hfront, Option.map_some, Option.map_some, show symbol z / 16 = symbol t / 16 by omega]
  · intro h
    obtain ⟨hfront, htop⟩ := Prod.mk.inj h
    have hfg : f = g := by rw [← hback, ← hback', hfront]
    rw [Option.map_some, Option.map_some] at htop
    have hbit := Option.some.inj htop
    rw [hfg, hshift, hbit, ← hshift, ← hbytes'] at hbytes
    rw [byteStream_inj hbytes]

/-- Two ids are one if they are alike in the key and in the bits that are too many. -/
theorem canon_eq_iff {a b x y : Str} (ha : deviceIdNormalize a = some x) (hb : deviceIdNormalize b = some y) :
    x = y ↔ keyPart x = keyPart y ∧ spareBits x = spareBits y := by
  obtain ⟨f, z, -, -, hz, hx, htake, hget, hback, -⟩ := exists_front ha
  obtain ⟨g, t, -, -, ht, hy, htake', hget', hback', -⟩ := exists_front hb
  constructor
  · rintro rfl
    exact ⟨rfl, rfl⟩
  · rintro ⟨hkey, hspare⟩
    rw [keyPart, keyPart, htake, htake', hget, hget'] at hkey
    rw [spareBits, spareBits, hget, hget'] at hspare
    obtain ⟨hfront, htop⟩ := Prod.mk.inj hkey
    have hfg : f = g := by rw [← hback, ← hback', hfront]
    rw [Option.map_some, Option.map_some] at htop hspare
    have hbit := Option.some.inj htop
    have hlow := Option.some.inj hspare
    have hzt : z = t := symbol_inj hz ht (by omega)
    rw [hx, hy, hfg, hzt]

/-- **The same device.** The two notions agree on two ids unless these differ in nothing but the four
bits that a key has no room for. -/
theorem same_device_iff {a b x y : Str} (ha : deviceIdNormalize a = some x) (hb : deviceIdNormalize b = some y) :
    (deviceIdEqual a b = true ↔ deviceIdToRaw a = deviceIdToRaw b) ↔
      (keyPart x ≠ keyPart y ∨ spareBits x = spareBits y) := by
  have hequal : deviceIdEqual a b = true ↔ x = y := by
    unfold deviceIdEqual
    rw [ha, hb]
    exact decide_eq_true_iff
  rw [hequal, canon_eq_iff ha hb, deviceIdToRaw_eq_iff ha hb]
  tauto

/-- The id of the key that is all zeros. -/
def zeroId : Str := List.replicate 56 65

/-- The same with one of the four bits set, and its check character. -/
def spareId : Str := List.replicate 54 65 ++ [66, 55]

theorem normalize_zeroId : deviceIdNormalize zeroId = some zeroId := by decide +kernel

theorem normalize_spareId : deviceIdNormalize spareId = some spareId := by decide +kernel

theorem one_key_two_ids : deviceIdNormalize zeroId = some zeroId ∧ deviceIdNormalize spareId = some spareId ∧
    deviceIdToRaw zeroId = deviceIdToRaw spareId ∧ deviceIdEqual zeroId spareId = false := by
  decide +kernel

theorem same_device_zeroId :
    (deviceIdEqual zeroId spareId = true ↔ deviceIdToRaw zeroId = deviceIdToRaw spareId) ↔
      (keyPart zeroId ≠ keyPart spareId ∨ spareBits zeroId = spareBits spareId) :=
  same_device_iff normalize_zeroId normalize_spareId

end Amisync

import Amisync.Exchange
import Amisync.RecvFinish
import Mathlib.Tactic.Linarith
import Mathlib.Tactic.Ring

/-!
# Hashing a file read by read (`hash_block`, `hash_path`)

A block is fed to the hash in the parts that the disk hands out, and ends by a
count of bytes; a file ends at a block with none, unless that is its first.

* `hashBlock_spec`: a block is as many bytes as it should be, or all there are.
* `hashPathReads_eq`: whatever the reads, the blocks are those of `hashPath`.
* `growBlockSize_spec`: what the ladder of block sizes comes to.
* `hash_any_reads`: the two together.
-/

namespace Amisync

def folderHashChunk : Nat := 128 * 1024

/-- An open file: what is left of it, and the calls so far. -/
structure OpenFile where
  rest : Bytes
  calls : Nat

/-- `Read`. The reply `some n` is for `n` bytes at most, `none` is an error. -/
def OpenFile.read (reply : Nat → Option Nat) (fh : OpenFile) (want : Nat) : Option (Bytes × OpenFile) :=
  (reply fh.calls).map fun n => (fh.rest.take (min n want), ⟨fh.rest.drop (min n want), fh.calls + 1⟩)

section Hashing
variable (sha : Bytes → Hash) (reply : Nat → Option Nat)

/-- `hash_block`; a context is the bytes that it has been given. -/
def hashBlock : Nat → OpenFile → Bytes → Nat → Nat → Option (OpenFile × Bytes × Nat)
  | 0, fh, bc, _, blockbytes => some (fh, bc, blockbytes)
  | fuel + 1, fh, bc, remaining, blockbytes =>
    if 0 < remaining then
      let want := if remaining < folderHashChunk then remaining else folderHashChunk
      match fh.read reply want with
      | none => none
      | some (got, fh) =>
        if got.length = 0 then some (fh, bc, blockbytes)
        else hashBlock fuel fh (bc ++ got) (remaining - got.length) (blockbytes + got.length)
    else some (fh, bc, blockbytes)

/-- What `hash_path` reports. -/
structure Hashed where
  hashes : List Hash
  contentHash : Hash
  bytes : Nat

/-- The loop of `hash_path`; `cc` is the context of the content hash. -/
def hashPathLoop (blockSize cap : Nat) :
    Nat → OpenFile → Bytes → List Hash → Nat → Except (HashWhy × Nat) Hashed
  | 0, _, cc, hashes, total => .ok ⟨hashes, sha cc, total⟩
  | fuel + 1, fh, cc, hashes, total =>
    match hashBlock reply blockSize fh [] blockSize 0 with
    | none => .error (.cannotRead, hashes.length)
    | some (fh, bc, blockbytes) =>
      if blockbytes = 0 ∧ 0 < hashes.length then .ok ⟨hashes, sha cc, total⟩
      else if cap ≤ hashes.length then .error (.tooBig, hashes.length)
      else
        let h := sha bc
        if blockbytes = 0 then .ok ⟨hashes ++ [h], sha (cc ++ h.1), total⟩
        else hashPathLoop blockSize cap fuel fh (cc ++ h.1) (hashes ++ [h]) (total + blockbytes)

/-- `hash_path` of a file that opens. Each round but the last reads one byte at least. -/
def hashPathReads (data : Bytes) (blockSize cap : Nat) : Except (HashWhy × Nat) Hashed :=
  hashPathLoop sha reply blockSize cap (data.length + 2) ⟨data, 0⟩ [] [] 0

end Hashing

/-- The disk hands out something as long as there is something. -/
def Replies (reply : Nat → Option Nat) : Prop := ∀ i, ∃ n, 0 < n ∧ reply i = some n

section Reads
variable {sha : Bytes → Hash} {reply : Nat → Option Nat}

theorem read_spec (hreply : Replies reply) (fh : OpenFile) (want : Nat) (hwant : 0 < want) :
    ∃ k, 0 < k ∧ k ≤ want ∧ fh.read reply want = some (fh.rest.take k, ⟨fh.rest.drop k, fh.calls + 1⟩) := by
  obtain ⟨n, hn, hr⟩ := hreply fh.calls
  refine ⟨min n want, by omega, Nat.min_le_right n want, ?_⟩
  rw [OpenFile.read, hr, Option.map_some]

/-- What is read in two parts. -/
theorem read_twice {l : Bytes} {k r : Nat} (hk : k ≤ r) :
    (l.drop k).drop (r - (l.take k).length) = l.drop r ∧
      l.take k ++ (l.drop k).take (r - (l.take k).length) = l.take r := by
  rcases Nat.lt_or_ge l.length k with hlt | hge
  · rw [List.drop_of_length_le (by omega : l.length ≤ k), List.take_of_length_le (by omega : l.length ≤ k),
      List.drop_of_length_le (by omega : l.length ≤ r), List.take_of_length_le (by omega : l.length ≤ r)]
    simp
  · rw [List.length_take, Nat.min_eq_left hge, List.drop_drop, show k + (r - k) = r by omega]
    refine ⟨rfl, ?_⟩
    rw [← List.take_add, show k + (r - k) = r by omega]

/-- **A block.** -/
theorem hashBlock_spec (hreply : Replies reply) (fuel : Nat) (fh : OpenFile) (bc : Bytes)
    (remaining blockbytes : Nat) (hfuel : remaining ≤ fuel) :
    ∃ calls, hashBlock reply fuel fh bc remaining blockbytes =
      some (⟨fh.rest.drop remaining, calls⟩, bc ++ fh.rest.take remaining,
        blockbytes + (fh.rest.take remaining).length) := by
  induction fuel generalizing fh bc remaining blockbytes with
  | zero =>
    obtain rfl := Nat.le_zero.mp hfuel
    exact ⟨fh.calls, by simp [hashBlock]⟩
  | succ fuel ih =>
    rw [hashBlock]
    by_cases hpos : 0 < remaining
    · have hchunk : folderHashChunk = 131072 := rfl
      obtain ⟨k, hk0, hkw, hread⟩ := read_spec hreply fh
        (if remaining < folderHashChunk then remaining else folderHashChunk) (by split <;> omega)
      have hkr : k ≤ remaining := by
        refine hkw.trans ?_
        split <;> omega
      rw [if_pos hpos]
      dsimp only
      rw [hread]
      dsimp only
      split
      · -- the end of the file
        rename_i hend
        have hnil : fh.rest = [] := by
          rw [List.length_take] at hend
          exact List.length_eq_zero_iff.mp (by omega)
        exact ⟨fh.calls + 1, by simp [hnil]⟩
      · rename_i hmore
        obtain ⟨calls, h⟩ := ih ⟨fh.rest.drop k, fh.calls + 1⟩ (bc ++ fh.rest.take k)
          (remaining - (fh.rest.take k).length) (blockbytes + (fh.rest.take k).length) (by omega)
        obtain ⟨hdrop, htake⟩ := read_twice (l := fh.rest) hkr
        have hlen := congrArg List.length htake
        rw [List.length_append] at hlen
        refine ⟨calls, ?_⟩
        rw [h, hdrop, List.append_assoc, htake, Nat.add_assoc, hlen]
    · rw [if_neg hpos]
      obtain rfl : remaining = 0 := by omega
      exact ⟨fh.calls, by simp⟩

variable (sha) in
/-- What is hashResult of these block hashes. -/
def hashResult (cap : Nat) (hashes : List Hash) (total : Nat) : Except (HashWhy × Nat) Hashed :=
  if hashes.length ≤ cap then .ok ⟨hashes, folderContentHash sha hashes, total⟩ else .error (.tooBig, cap)

theorem length_block {l : Bytes} (hl : l ≠ []) {blockSize : Nat} (hbs : 0 < blockSize) :
    (l.take blockSize).length ≠ 0 := by
  have hpos : 0 < l.length := List.length_pos_iff.mpr hl
  rw [List.length_take]
  omega

variable (sha) in
/-- No room for the hash of one more block. -/
theorem hashPathLoop_full (hreply : Replies reply) {blockSize : Nat} (hbs : 0 < blockSize) {cap : Nat} (fuel : Nat)
    (fh : OpenFile) (cc : Bytes) {hashes : List Hash} (total : Nat) (hrest : fh.rest ≠ [])
    (hfull : cap ≤ hashes.length) :
    hashPathLoop sha reply blockSize cap (fuel + 1) fh cc hashes total = .error (.tooBig, hashes.length) := by
  obtain ⟨calls, hblock⟩ := hashBlock_spec hreply blockSize fh [] blockSize 0 (Nat.le_refl _)
  have hlen := length_block hrest hbs
  rw [hashPathLoop, hblock]
  simp only [Nat.zero_add]
  rw [if_neg (fun h => hlen h.1), if_pos hfull]

variable (sha) in
/-- A block that is not empty. -/
theorem hashPathLoop_step (hreply : Replies reply) {blockSize : Nat} (hbs : 0 < blockSize) (cap fuel : Nat)
    (fh : OpenFile) (hashes : List Hash) (total : Nat) (hrest : fh.rest ≠ []) (hroom : hashes.length < cap) :
    ∃ calls, hashPathLoop sha reply blockSize cap (fuel + 1) fh (hashes.map Subtype.val).flatten hashes total =
      hashPathLoop sha reply blockSize cap fuel ⟨fh.rest.drop blockSize, calls⟩
        ((hashes ++ [sha (fh.rest.take blockSize)]).map Subtype.val).flatten
        (hashes ++ [sha (fh.rest.take blockSize)]) (total + (fh.rest.take blockSize).length) := by
  obtain ⟨calls, hblock⟩ := hashBlock_spec hreply blockSize fh [] blockSize 0 (Nat.le_refl _)
  have hlen := length_block hrest hbs
  refine ⟨calls, ?_⟩
  rw [hashPathLoop, hblock]
  simp only [Nat.zero_add, List.nil_append]
  rw [if_neg (fun h => hlen h.1), if_neg (by omega), if_neg hlen]
  simp

/-- **Loop.** The blocks that are still to come, behind the first. -/
theorem hashPathLoop_spec (hreply : Replies reply) {blockSize : Nat} (hbs : 0 < blockSize) (cap fuel : Nat)
    (fh : OpenFile) (hashes : List Hash) (total : Nat) (hfuel : fh.rest.length < fuel)
    (hfirst : 0 < hashes.length) (hroom : hashes.length ≤ cap) :
    hashPathLoop sha reply blockSize cap fuel fh (hashes.map Subtype.val).flatten hashes total =
      hashResult sha cap (hashes ++ (Blocks.split blockSize fh.rest).map sha) (total + fh.rest.length) := by
  induction fuel generalizing fh hashes total with
  | zero => omega
  | succ fuel ih =>
    by_cases hrest : fh.rest = []
    · obtain ⟨calls, hblock⟩ := hashBlock_spec hreply blockSize fh [] blockSize 0 (Nat.le_refl _)
      rw [hashPathLoop, hblock, hashResult, hrest]
      simp only [List.take_nil, List.length_nil, Nat.add_zero, Blocks.split_nil, List.map_nil, List.append_nil]
      rw [if_pos ⟨trivial, hfirst⟩, if_pos hroom]
      rfl
    · have hpos : 0 < fh.rest.length := List.length_pos_iff.mpr hrest
      have hsplit := Blocks.split_of_ne_nil hbs hrest
      rcases Nat.lt_or_ge hashes.length cap with hlt | hge
      · obtain ⟨calls, hstep⟩ := hashPathLoop_step sha hreply hbs cap fuel fh hashes total hrest hlt
        have hcut := congrArg List.length (List.take_append_drop blockSize fh.rest)
        rw [List.length_append] at hcut
        rw [hstep, ih ⟨fh.rest.drop blockSize, calls⟩ _ _ (by rw [List.length_drop]; omega) (by simp)
          (by rw [List.length_append, List.length_singleton]; omega), hsplit, List.map_cons, List.append_assoc,
          List.singleton_append, Nat.add_assoc, hcut]
      · have hcap : hashes.length = cap := by omega
        rw [hashPathLoop_full sha hreply hbs fuel fh _ total hrest hge, hashResult, hsplit, if_neg, hcap]
        rw [List.length_append, List.map_cons, List.length_cons]
        omega

/-- **Reads do not matter.** The blocks are those of the whole file. -/
theorem hashPathReads_eq (sha : Bytes → Hash) (hreply : Replies reply) (data : Bytes) {blockSize : Nat}
    (hbs : 0 < blockSize) (cap : Nat) : hashPathReads sha reply data blockSize cap =
      (hashPath sha none (some data) blockSize cap).map fun hashes =>
        ⟨hashes, folderContentHash sha hashes, data.length⟩ := by
  have hshape : (hashPath sha none (some data) blockSize cap).map (fun hashes =>
      (⟨hashes, folderContentHash sha hashes, data.length⟩ : Hashed)) =
      hashResult sha cap ((hashBlocks blockSize data).map sha) data.length := by
    rw [hashPath, hashResult]
    by_cases hcap : cap < ((hashBlocks blockSize data).map sha).length
    · rw [if_pos hcap, if_neg (by omega)]
      rfl
    · rw [if_neg hcap, if_pos (by omega)]
      rfl
  rw [hshape, hashPathReads, hashBlocks]
  by_cases hdata : data = []
  · subst hdata
    obtain ⟨calls, hblock⟩ := hashBlock_spec hreply blockSize ⟨[], 0⟩ [] blockSize 0 (Nat.le_refl _)
    rw [if_pos rfl, hashPathLoop, hblock, hashResult]
    simp only [List.take_nil, List.length_nil, Nat.add_zero, List.nil_append, List.map_cons, List.map_nil,
      List.length_singleton]
    rw [if_neg (by omega)]
    rcases Nat.eq_zero_or_pos cap with rfl | hcap
    · rfl
    · rw [if_neg (by omega), if_pos trivial, if_pos (by omega)]
      simp [folderContentHash]
  · rw [if_neg hdata]
    have hpos : 0 < data.length := List.length_pos_iff.mpr hdata
    rcases Nat.eq_zero_or_pos cap with rfl | hcap
    · rw [hashPathLoop_full sha hreply hbs _ ⟨data, 0⟩ _ _ hdata (Nat.zero_le _), hashResult,
        Blocks.split_of_ne_nil hbs hdata]
      rfl
    · obtain ⟨calls, hstep⟩ := hashPathLoop_step sha hreply hbs cap (data.length + 1) ⟨data, 0⟩ [] 0
        hdata hcap
      have hcut := congrArg List.length (List.take_append_drop blockSize data)
      rw [List.length_append] at hcut
      have hstart : (([] : List Hash).map Subtype.val).flatten = [] := rfl
      rw [hstart] at hstep
      have hfuel : (data.drop blockSize).length < data.length + 1 := by
        rw [List.length_drop]
        omega
      have hone : ([] ++ [sha (data.take blockSize)]).length ≤ cap := hcap
      rw [hstep, hashPathLoop_spec hreply hbs cap (data.length + 1) ⟨data.drop blockSize, calls⟩ _ _ hfuel
        (by simp) hone, Blocks.split_of_ne_nil hbs hdata, Nat.zero_add, hcut, List.map_cons, List.nil_append,
        List.singleton_append]

/-- How many blocks. -/
theorem length_hashBlocks {bs : Nat} (hbs : 0 < bs) (data : Bytes) :
    (hashBlocks bs data).length = max 1 ((data.length + bs - 1) / bs) := by
  rw [hashBlocks]
  by_cases hdata : data = []
  · subst hdata
    rw [if_pos rfl, List.length_nil, Nat.zero_add, Nat.div_eq_of_lt (by omega)]
    rfl
  · have hpos : 0 < data.length := List.length_pos_iff.mpr hdata
    have hone : 1 ≤ (data.length + bs - 1) / bs := (Nat.le_div_iff_mul_le hbs).mpr (by omega)
    rw [if_neg hdata, Nat.max_eq_right hone]
    -- block `i` is there exactly below the number
    refine Nat.le_antisymm ?_ ?_
    · by_contra hlt
      have := (Blocks.lt_length_split hbs data _).mp (Nat.lt_of_not_le hlt)
      have hdiv := Nat.lt_mul_div_succ (data.length + bs - 1) hbs
      rw [Nat.mul_add, Nat.mul_comm] at hdiv
      omega
    · have hlast := (Blocks.lt_length_split hbs data ((data.length + bs - 1) / bs - 1)).mpr (by
        have hle := Nat.div_mul_le_self (data.length + bs - 1) bs
        rw [Nat.sub_mul, Nat.one_mul]
        omega)
      omega

/-- What each block is. -/
theorem getElem?_hashBlocks {bs : Nat} (hbs : 0 < bs) (data : Bytes) {i : Nat}
    (hi : i < (hashBlocks bs data).length) : (hashBlocks bs data)[i]? = some (Blocks.slice data (i * bs) bs) := by
  rw [hashBlocks] at hi ⊢
  by_cases hdata : data = []
  · subst hdata
    rw [if_pos rfl, List.length_singleton] at hi
    obtain rfl : i = 0 := by omega
    simp [Blocks.slice]
  · rw [if_neg hdata] at hi ⊢
    rw [Blocks.getElem?_split hbs, if_pos ((Blocks.lt_length_split hbs data i).mp hi)]

end Reads

/-! ## Block sizes -/

/-- **The ladder.** It stops where the file has fewer than 2000 blocks, or at its top. -/
theorem growBlockSize_spec (size : Int) (n : Nat) (bs : Int) (htop : bs * 2 ^ n = 16 * 1024 * 1024) :
    size < 2000 * growBlockSize size n bs ∨ growBlockSize size n bs = 16 * 1024 * 1024 := by
  induction n generalizing bs with
  | zero =>
    rw [growBlockSize]
    right
    omega
  | succ n ih =>
    rw [growBlockSize]
    split
    · refine ih (2 * bs) ?_
      rw [← htop, pow_succ]
      ring
    · rename_i hstop
      have hbelow : bs < 16 * 1024 * 1024 := by
        have hpow : (1 : Int) ≤ 2 ^ n := one_le_pow₀ (by omega)
        rw [pow_succ] at htop
        nlinarith
      omega

theorem growBlockSize_pos (size : Int) (n : Nat) {bs : Int} (hbs : 0 < bs) : 0 < growBlockSize size n bs := by
  induction n generalizing bs with
  | zero => exact hbs
  | succ n ih =>
    rw [growBlockSize]
    split
    · exact ih (by omega)
    · exact hbs

/-- **Room.** A file whose blocks can be stored has no more of them than a file may have. -/
theorem blocks_le_max {size : Nat} (h : folderBlockSize size ≤ folderMaxBlockSize) :
    max 1 ((size + (folderBlockSize size).toNat - 1) / (folderBlockSize size).toNat) ≤ folderMaxBlocks := by
  have hpos : 0 < folderBlockSize size := growBlockSize_pos _ 7 (by decide)
  have hmax : (folderMaxBlockSize : Int) = 1024 * 1024 := rfl
  have hblocks : folderMaxBlocks = 2048 := rfl
  have hspec : (size : Int) < 2000 * folderBlockSize size ∨ folderBlockSize size = 16 * 1024 * 1024 :=
    growBlockSize_spec size 7 folderBlockSizeBase (by decide)
  have hfew : size < 2000 * (folderBlockSize size).toNat := by omega
  generalize (folderBlockSize size).toNat = bs at *
  have hdiv : (size + bs - 1) / bs < 2001 := by
    refine Nat.div_lt_of_lt_mul ?_
    omega
  omega

/-- **Hashing.** However the reads are split, a file of `n` bytes has its blocks in order, one at least,
each with the hash of its part of the bytes, and the content hash is that of the list; and with the
block size of its length it has room for them. -/
theorem hash_any_reads (sha : Bytes → Hash) (reply : Nat → Option Nat) (data : Bytes) (hreply : Replies reply) :
    (∀ blockSize cap : Nat, 0 < blockSize → max 1 ((data.length + blockSize - 1) / blockSize) ≤ cap →
      ∃ hashes, hashPathReads sha reply data blockSize cap =
          .ok ⟨hashes, folderContentHash sha hashes, data.length⟩ ∧
        hashes.length = max 1 ((data.length + blockSize - 1) / blockSize) ∧
        ∀ i < hashes.length, hashes[i]? = some (sha (Blocks.slice data (i * blockSize) blockSize))) ∧
    (folderBlockSize data.length ≤ folderMaxBlockSize →
      ∃ h, hashPathReads sha reply data (folderBlockSize data.length).toNat folderMaxBlocks = .ok h ∧
        h.hashes.length ≤ folderMaxBlocks) := by
  have hall : ∀ blockSize cap : Nat, 0 < blockSize →
      max 1 ((data.length + blockSize - 1) / blockSize) ≤ cap →
      hashPathReads sha reply data blockSize cap = .ok ⟨(hashBlocks blockSize data).map sha,
        folderContentHash sha ((hashBlocks blockSize data).map sha), data.length⟩ := by
    intro blockSize cap hbs hcap
    rw [← length_hashBlocks hbs] at hcap
    rw [hashPathReads_eq sha hreply data hbs, hashPath, if_neg (by rw [List.length_map]; omega)]
    rfl
  constructor
  · intro blockSize cap hbs hcap
    refine ⟨_, hall blockSize cap hbs hcap, ?_, ?_⟩
    · rw [List.length_map, length_hashBlocks hbs]
    · intro i hi
      rw [List.length_map] at hi
      rw [List.getElem?_map, getElem?_hashBlocks hbs data hi]
      rfl
  · intro hstored
    have hpos : 0 < folderBlockSize data.length := growBlockSize_pos _ 7 (by decide)
    have hroom := blocks_le_max hstored
    refine ⟨_, hall _ folderMaxBlocks (by omega) hroom, ?_⟩
    dsimp only
    rw [List.length_map, length_hashBlocks (by omega)]
    exact hroom

def abcDigest : Hash :=
  ⟨[186, 120, 22, 191, 143, 1, 207, 234, 65, 65, 64, 222, 93, 174, 34, 35,
    176, 3, 97, 163, 150, 23, 122, 156, 180, 16, 255, 97, 242, 0, 21, 173], rfl⟩

/-- SHA-256 on the file `abc` and on its one block hash. -/
def abcSha (b : Bytes) : Hash :=
  if b = [97, 98, 99] then abcDigest
  else ⟨[79, 139, 66, 194, 45, 211, 114, 155, 81, 155, 166, 246, 141, 45, 167, 204,
    91, 45, 96, 109, 5, 218, 237, 90, 213, 18, 140, 192, 62, 108, 99, 88], rfl⟩

/-- One byte at a time. -/
theorem hash_abc : ∃ h, hashPathReads abcSha (fun _ => some 1) [97, 98, 99]
    (folderBlockSize ([97, 98, 99] : Bytes).length).toNat folderMaxBlocks = .ok h ∧
      h.hashes.length ≤ folderMaxBlocks :=
  (hash_any_reads abcSha (fun _ => some 1) [97, 98, 99] (fun _ => ⟨1, Nat.one_pos, rfl⟩)).2 (by decide)

end Amisync

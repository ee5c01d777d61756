import Amisync.Download
import Mathlib.Data.Set.Operations

/-!
# Finishing a download (`finalize_download`)

The downloaded file is handed to `folder_recv_finish` and, if that publishes it,
recorded with the metadata the peer announced. A download that resumed an earlier
one is verified as a whole; any other only by its size.

* `swapIn_published`: what stands at the target after a swap that succeeded.
* `describes_of_fresh`, `describes_of_resumed`: what each kind of verification shows.
* `recorded_describes_iff`: what is recorded describes the published file exactly
  when the announced size, block size and hashes fit together.
-/

namespace Amisync

open Blocks

/-! ## The swap, once more -/

/-- The old file is parked where the staged file is. -/
def ParkedOver (fold : Path → Path) (fs : Fs) (tmp full : Path) (aside : Option Path) : Prop :=
  fs.obj fold full ≠ none ∧ ∃ asd, aside = some asd ∧ fold asd = fold tmp

section Swap
variable {fold : Path → Path} {a : DosAnswers} {fs fs₁ fs₂ : Fs} {tmp full : Path}
  {aside parked : Option Path}

/-- Parking leaves the staged file alone, unless it is parked over. -/
theorem park_staged {granted : Bool} (hne : fold full ≠ fold tmp)
    (h : park fold granted fs full aside = (fs₁, parked)) :
    (¬ ParkedOver fold fs tmp full aside → fs₁.obj fold tmp = fs.obj fold tmp) ∧
    (ParkedOver fold fs tmp full aside →
      fs₁.obj fold tmp = parked.bind fun _ => (fs.obj fold full).map (DosObj.setProt 0)) ∧
    ∀ asd, parked = some asd → fold asd ≠ fold full := by
  have hprot : (fs.setProtection fold full 0).obj fold tmp = fs.obj fold tmp := by
    simp [Fs.obj, Fs.setProtection, hne.symm]
  cases ho : fs.obj fold full with
  | none =>
    rw [park_absent granted ho, Prod.mk.injEq] at h
    obtain ⟨rfl, rfl⟩ := h
    exact ⟨fun _ => rfl, fun hp => absurd ho hp.1, fun asd e => by simp at e⟩
  | some o =>
    have hlock : fs.lock fold full = true := by simp [Fs.lock, ho]
    unfold park at h
    rw [hlock, if_pos rfl] at h
    cases aside with
    | none =>
      simp only [Prod.mk.injEq] at h
      obtain ⟨rfl, rfl⟩ := h
      refine ⟨fun _ => ?_, ?_, fun asd e => by simp at e⟩
      · rw [Fs.obj_deleteFile_of_ne hne.symm, hprot]
      · rintro ⟨-, asd, e, -⟩
        simp at e
    | some asd =>
      dsimp only at h
      cases hren : ((fs.setProtection fold full 0).deleteFile fold asd).rename fold granted full asd with
      | none =>
        rw [hren] at h
        simp only [Prod.mk.injEq] at h
        obtain ⟨rfl, rfl⟩ := h
        refine ⟨fun hp => ?_, ?_, fun asd e => by simp at e⟩
        · have hasd : fold tmp ≠ fold asd := fun e => hp ⟨by simp [ho], asd, rfl, e.symm⟩
          rw [Fs.obj_deleteFile_of_ne hne.symm, Fs.obj_deleteFile_of_ne hasd, hprot]
        · rintro ⟨-, asd', e, hasd⟩
          rw [Option.some.injEq] at e
          subst e
          rw [Fs.obj_deleteFile_of_ne hne.symm]
          simp [Fs.obj, Fs.deleteFile, hasd]
      | some fs₃ =>
        rw [hren] at h
        simp only [Prod.mk.injEq] at h
        obtain ⟨rfl, rfl⟩ := h
        have hsep : fold full ≠ fold asd := by
          intro e
          have hnone : ((fs.setProtection fold full 0).deleteFile fold asd).obj fold full = none := by
            simp [Fs.obj, Fs.deleteFile, e]
          rw [Fs.rename_of_none granted hnone] at hren
          simp at hren
        have hsrc : ((fs.setProtection fold full 0).deleteFile fold asd).obj fold full =
            some (o.setProt 0) := by
          rw [Fs.obj_deleteFile_of_ne hsep, Fs.obj_setProtection_self, ho]
          rfl
        cases granted with
        | false => simp [Fs.rename] at hren
        | true =>
          rw [Fs.rename_granted hsrc (Fs.obj_deleteFile_self _ asd), Option.some.injEq] at hren
          subst hren
          refine ⟨fun hp => ?_, ?_, fun asd' e => ?_⟩
          · have hasd : fold tmp ≠ fold asd := fun e => hp ⟨by simp [ho], asd, rfl, e.symm⟩
            unfold Fs.obj
            rw [Function.update_of_ne hasd, Function.update_of_ne hne.symm]
            exact (Fs.obj_deleteFile_of_ne hasd).trans hprot
          · rintro ⟨-, asd', e, hasd⟩
            rw [Option.some.injEq] at e
            subst e
            unfold Fs.obj
            rw [← hasd, Function.update_self]
            rfl
          · rw [Option.some.injEq] at e
            subst e
            exact hsep.symm

/-- **Swap.** The staged file is at the target, or, parked over, the old one. -/
theorem swapIn_published (hne : fold full ≠ fold tmp)
    (h : swapIn fold a fs tmp full aside = (fs₂, true)) :
    (¬ ParkedOver fold fs tmp full aside → fs₂.obj fold full = fs.obj fold tmp) ∧
    (ParkedOver fold fs tmp full aside →
      fs₂.obj fold full = (fs.obj fold full).map (DosObj.setProt 0)) := by
  unfold swapIn at h
  cases hp : park fold a.park fs full aside with
  | mk fs₁ parked =>
    obtain ⟨hkeep, hover, hsep⟩ := park_staged hne hp
    rw [hp] at h
    dsimp only at h
    cases hren : fs₁.rename fold a.publish tmp full with
    | none =>
      rw [hren] at h
      simp at h
    | some fs₃ =>
      rw [hren] at h
      simp only [Prod.mk.injEq, and_true] at h
      obtain ⟨o, ho, hfs₃⟩ : ∃ o, fs₁.obj fold tmp = some o ∧ fs₃.obj fold full = some o := by
        unfold Fs.rename at hren
        split at hren
        · rename_i o _ ho _
          rw [Option.some.injEq] at hren
          subst hren
          exact ⟨o, ho, by simp [Fs.obj]⟩
        · simp at hren
      have hfs₂ : fs₂.obj fold full = fs₁.obj fold tmp := by
        cases parked with
        | none => rw [← h, hfs₃, ho]
        | some asd =>
          rw [← h]
          dsimp only
          rw [Fs.obj_deleteFile_of_ne (hsep asd rfl).symm, hfs₃, ho]
      refine ⟨fun hn => hfs₂.trans (hkeep hn), fun ho' => ?_⟩
      rw [hover ho'] at ho
      rw [hfs₂, hover ho']
      cases parked with
      | none => simp at ho
      | some asd => rfl

end Swap

/-! ## The function -/

def folderExists (fold : Path → Path) (fs : Fs) (path : Bytes) (name : Name) : Bool :=
  match toLocal name with
  | none => true
  | some lname => match joinFull path lname with
    | none => true
    | some full => fs.lock fold full

def finalizeArgs (w : Wanted) (path : Bytes) (tmp : Path) (resumed revert : Bool) : RecvArgs where
  path := path
  name := w.fi.name
  tmp := tmp
  modifiedS := w.fi.modifiedS
  perms := w.fi.permissions
  blockSize := w.fi.blockSize
  expectSize := w.fi.size
  skipVerify := !resumed
  archiveAlways := revert
  expect := w.fi.contentHash
  blockHashes := w.hashes

/-- In a receive-only folder a file that is already there is an edit made here. -/
def reverts (fold : Path → Path) (mode : FolderMode) (fs : Fs) (path : Bytes) (name : Name) : Bool :=
  mode = .receiveOnly && folderExists fold fs path name

/-- `finalize_download`: what is recorded, if the file was received, and the files. The
record's own sequence number is the index's. -/
def finalizeDownload (sha : Bytes → Hash) (fold : Path → Path) (versioning : Bool) (tz : Int)
    (a : DosAnswers) (mode : FolderMode) (path : Bytes) (tmp : Path) (w : Wanted) (resumed : Bool)
    (fs : Fs) : Option Wanted × Fs :=
  let args := finalizeArgs w path tmp resumed (reverts fold mode fs path w.fi.name)
  match folderRecvFinish sha fold versioning tz a args fs with
  | ((.ok, _), fs') => (some w, fs')
  | (_, fs') => (none, fs')

/-! ## What an announcement says -/

namespace Wanted

/-- What `handle_index` lets through to the want queue. -/
structure Admitted (sha : Bytes → Hash) (w : Wanted) : Prop where
  plain : w.fi.type = .file ∧ w.fi.deleted = false ∧ w.fi.invalid = false
  safe : pathNameSafe w.fi.name = true
  blocks : 0 < w.numBlocks → 0 < w.fi.blockSize ∧ w.fi.blockSize ≤ folderMaxBlockSize ∧
    w.numBlocks ≤ folderMaxBlocks
  content : w.fi.contentHash = some (folderContentHash sha w.hashes)

/-- The file has the announced size and the announced blocks. An empty file may be announced
with no block or with one empty block. -/
def Describes (sha : Bytes → Hash) (w : Wanted) (data : Bytes) : Prop :=
  (data.length : Int) = w.fi.size ∧
    (w.hashes = (split w.bs data).map sha ∨ w.hashes = (hashBlocks w.bs data).map sha)

/-- The announced sizes fit together, and the last hash is that of a string as long as the
last block is announced to be. -/
def FitsTogether (sha : Bytes → Hash) (known : Set Bytes) (w : Wanted) : Prop :=
  w.fi.size = 0 ∧ w.numBlocks = 0 ∨
    w.Consistent ∧ 0 < w.numBlocks ∧ ∃ tail ∈ known,
      (tail.length : Int) = (dlBlockSpan w (w.numBlocks - 1)).2 ∧
      w.hashes[w.numBlocks - 1]? = some (sha tail)

end Wanted

/-- The strings whose hashes are compared when the file is finished. -/
def hashedStrings (sha : Bytes → Hash) (w : Wanted) (data : Bytes) : Set Bytes :=
  { b | b ∈ hashBlocks w.bs data ∨ b = (w.hashes.map Subtype.val).flatten ∨
    b = (((hashBlocks w.bs data).map sha).map Subtype.val).flatten }

/-! ## Hash lists and block lists -/

/-- Hashes all have one length, so a row of them can be read back. -/
theorem hashes_flatten_inj {hs hs' : List Hash}
    (h : (hs.map Subtype.val).flatten = (hs'.map Subtype.val).flatten) : hs = hs' := by
  have hpos : bepHashLen = 32 := rfl
  induction hs generalizing hs' with
  | nil =>
    cases hs' with
    | nil => rfl
    | cons y hs' =>
      have hlen := congrArg List.length h
      rw [List.map_cons, List.flatten_cons, List.length_append, y.2] at hlen
      simp only [List.map_nil, List.flatten_nil, List.length_nil] at hlen
      omega
  | cons x hs ih =>
    cases hs' with
    | nil =>
      have hlen := congrArg List.length h
      rw [List.map_cons, List.flatten_cons, List.length_append, x.2] at hlen
      simp only [List.map_nil, List.flatten_nil, List.length_nil] at hlen
      omega
    | cons y hs' =>
      simp only [List.map_cons, List.flatten_cons] at h
      obtain ⟨hxy, htail⟩ := List.append_inj h (x.2.trans y.2.symm)
      rw [Subtype.ext hxy, ih htail]

theorem hashBlocks_of_ne_nil {bs : Nat} {data : Bytes} (h : data ≠ []) :
    hashBlocks bs data = split bs data := by
  rw [hashBlocks, if_neg h]

/-- The last block has what the blocks before it leave over. -/
theorem hashBlocks_last {bs : Nat} (hbs : 0 < bs) (data : Bytes) :
    ∃ k last, (hashBlocks bs data).length = k + 1 ∧ (hashBlocks bs data)[k]? = some last ∧
      data.length = k * bs + last.length ∧ last.length ≤ bs ∧ (data ≠ [] → 0 < last.length) := by
  by_cases hd : data = []
  · subst hd
    exact ⟨0, [], by simp [hashBlocks], by simp [hashBlocks], by simp, by simp, by simp⟩
  · rw [hashBlocks_of_ne_nil hd]
    have hpos : 0 < data.length := List.length_pos_iff.mpr hd
    obtain ⟨k, hk⟩ : ∃ k, (split bs data).length = k + 1 := by
      refine Nat.exists_eq_succ_of_ne_zero (Nat.ne_of_gt ?_)
      exact (lt_length_split hbs data 0).mpr (by omega)
    have hin := (lt_length_split hbs data k).mp (by omega)
    have hout : ¬ (k + 1) * bs < data.length := by
      intro hlt
      have := (lt_length_split hbs data (k + 1)).mpr hlt
      omega
    have hlen := length_slice data (k * bs) bs
    rw [Nat.add_mul, Nat.one_mul] at hout
    refine ⟨k, slice data (k * bs) bs, hk, ?_, ?_, ?_, ?_⟩
    · rw [getElem?_split hbs, if_pos hin]
    · omega
    · omega
    · intro _
      omega

/-- Without blocks there is nothing. -/
theorem eq_nil_of_describes {sha : Bytes → Hash} {w : Wanted} {data : Bytes}
    (h : w.Describes sha data) (hn : w.numBlocks = 0) : data = [] := by
  have hnil : w.hashes = [] := List.length_eq_zero_iff.mp hn
  by_contra hd
  have hb : hashBlocks w.bs data = split w.bs data := hashBlocks_of_ne_nil hd
  have hs : split w.bs data = [] := by
    rcases h.2 with e | e
    · rw [hnil] at e
      exact List.map_eq_nil_iff.mp e.symm
    · rw [hnil, hb] at e
      exact List.map_eq_nil_iff.mp e.symm
  obtain ⟨x, rest, rfl⟩ := List.exists_cons_of_ne_nil hd
  simp [split, splitAux] at hs

/-! ## What each verification shows -/

section Verify
variable {sha : Bytes → Hash} {known : Set Bytes} {w : Wanted} {data : Bytes}

/-- **Fresh.** Every block has been checked on arrival, and the size at the end. -/
theorem describes_of_fresh (hw : w.Consistent)
    (hblocks : ∀ i, i < w.numBlocks → w.hashes[i]? = some (sha (w.blockAt data i)))
    (hlen : (data.length : Int) = w.fi.size) : w.Describes sha data := by
  refine ⟨hlen, ?_⟩
  by_cases hd : data = []
  · subst hd
    have hsize : w.fi.size = 0 := hlen.symm
    have hn : w.hashes.length ≤ 1 := by
      rcases hw.count with ⟨-, h⟩ | ⟨h, -⟩
      · exact h
      · omega
    cases hh : w.hashes with
    | nil => exact Or.inl rfl
    | cons x hs =>
      rw [hh] at hn
      have hs' : hs = [] := by simpa using hn
      have h0 := hblocks 0 (by simp [Wanted.numBlocks, hh])
      rw [hh] at h0
      right
      simpa [hs', hashBlocks, Wanted.blockAt, slice] using h0
  · right
    have hpos : 0 < data.length := List.length_pos_iff.mpr hd
    have hsize : w.fi.size.toNat = data.length := by omega
    rw [hashBlocks_of_ne_nil hd]
    refine List.ext_getElem? fun i => ?_
    rw [List.getElem?_map, getElem?_split hw.bs_pos]
    have hiff := hw.lt_numBlocks (by omega) i
    rw [hsize] at hiff
    by_cases hi : i < w.numBlocks
    · rw [if_pos (hiff.mp hi), hblocks i hi]
      have hblock : w.blockAt data i = slice data (i * w.bs) w.bs := by
        unfold Wanted.blockAt slice
        rw [dlBlockSpan_off hw, dlBlockSpan_eq hw hi, Int.toNat_natCast, Int.toNat_natCast, hsize,
          List.take_eq_take_iff, List.length_drop]
        omega
      rw [hblock]
      rfl
    · rw [if_neg (fun h => hi (hiff.mpr h))]
      exact List.getElem?_eq_none_iff.mpr (Nat.le_of_not_lt hi)

/-- **Resumed.** The hash of all block hashes is right, so the blocks are; the last one, being
as long as announced, settles the size. -/
theorem describes_of_resumed (hinj : Set.InjOn sha known) (hk : hashedStrings sha w data ⊆ known)
    (hw : w.Consistent) {tail : Bytes} (htail : tail ∈ known)
    (hlen : (tail.length : Int) = (dlBlockSpan w (w.numBlocks - 1)).2)
    (hlast : w.hashes[w.numBlocks - 1]? = some (sha tail))
    (hcontent : folderContentHash sha ((hashBlocks w.bs data).map sha) =
      folderContentHash sha w.hashes) : w.Describes sha data := by
  have hrow := hinj (hk (Or.inr (Or.inr rfl))) (hk (Or.inr (Or.inl rfl))) hcontent
  have hhashes : w.hashes = (hashBlocks w.bs data).map sha := (hashes_flatten_inj hrow).symm
  refine ⟨?_, Or.inr hhashes⟩
  obtain ⟨k, last, hcount, hget, hsum, -, -⟩ := hashBlocks_last hw.bs_pos data
  have hn : w.numBlocks = k + 1 := by rw [Wanted.numBlocks, hhashes, List.length_map, hcount]
  rw [hn, Nat.add_sub_cancel] at hlen hlast
  have hsame : last = tail := by
    refine hinj (hk (Or.inl (List.mem_of_getElem? hget))) htail ?_
    rw [hhashes, List.getElem?_map, hget] at hlast
    exact Option.some.inj hlast
  subst hsame
  rw [dlBlockSpan_eq hw (by omega), Int.natCast_inj] at hlen
  have hsize := hw.size_nonneg
  rcases hw.count with ⟨hs, hle⟩ | ⟨hs, -⟩
  · have hk0 : k = 0 := by omega
    subst hk0
    rw [hs] at hlen
    simp only [Int.toNat_zero] at hlen
    omega
  · have hin := (hw.lt_numBlocks hs k).mp (by omega)
    have hout : ¬ (k + 1) * w.bs < w.fi.size.toNat := fun h => by
      have := (hw.lt_numBlocks hs (k + 1)).mpr h
      omega
    rw [Nat.add_mul, Nat.one_mul] at hout
    omega

/-- What is described fits together. -/
theorem fitsTogether_of_describes (hadm : w.Admitted sha) (hk : hashedStrings sha w data ⊆ known)
    (h : w.Describes sha data) : w.FitsTogether sha known := by
  rcases Nat.eq_zero_or_pos w.numBlocks with hn | hn
  · have hd := eq_nil_of_describes h hn
    left
    refine ⟨?_, hn⟩
    rw [← h.1, hd]
    rfl
  · obtain ⟨hpos, hmax, -⟩ := hadm.blocks hn
    have hsmall : w.fi.blockSize < 2 ^ 31 := by
      unfold folderMaxBlockSize at hmax
      omega
    have hbs : 0 < w.bs := by
      unfold Wanted.bs
      omega
    have hbs' : (w.bs : Int) = w.fi.blockSize := by
      unfold Wanted.bs
      omega
    have hhashes : w.hashes = (hashBlocks w.bs data).map sha := by
      rcases h.2 with e | e
      · by_cases hd : data = []
        · rw [hd, split_nil, List.map_nil] at e
          rw [Wanted.numBlocks, e] at hn
          exact absurd hn (by simp)
        · rw [hashBlocks_of_ne_nil hd]
          exact e
      · exact e
    obtain ⟨k, last, hcount, hget, hsum, hle, hne⟩ := hashBlocks_last hbs data
    have hn' : w.numBlocks = k + 1 := by rw [Wanted.numBlocks, hhashes, List.length_map, hcount]
    have hsize := h.1
    have hcast : ((k * w.bs : Nat) : Int) = k * w.fi.blockSize := by rw [Int.natCast_mul, hbs']
    have hw : w.Consistent := by
      refine ⟨hpos, hsmall, ?_⟩
      by_cases hd : data = []
      · left
        rw [hd] at hsize hcount
        simp [hashBlocks] at hcount
        exact ⟨hsize.symm, by omega⟩
      · right
        have hlast := hne hd
        refine ⟨by omega, ?_⟩
        rw [hn', eq_comm, Int.ediv_eq_iff_of_pos hpos]
        push_cast
        rw [Int.add_mul, Int.one_mul]
        omega
    refine Or.inr ⟨hw, hn, last, hk (Or.inl (List.mem_of_getElem? hget)), ?_, ?_⟩
    · rw [hn', Nat.add_sub_cancel, dlBlockSpan_eq hw (by omega), Int.natCast_inj]
      omega
    · rw [hn', Nat.add_sub_cancel, hhashes, List.getElem?_map, hget]
      rfl

/-- The size is all that is checked of a file whose blocks were checked on arrival. -/
theorem recvVerify_ok_skip {a : DosAnswers} {r : RecvArgs} {info : FolderRecvInfo}
    (hs : r.skipVerify = true) (h : recvVerify sha a r (some data) = (.ok, info)) :
    (data.length : Int) = r.expectSize := by
  unfold recvVerify at h
  rw [hs, if_pos rfl] at h
  dsimp only at h
  split at h
  · simp at h
  · rename_i he
    exact not_not.mp he

theorem recvVerify_ok_full {a : DosAnswers} {r : RecvArgs} {info : FolderRecvInfo} {e : Hash}
    (hs : r.skipVerify = false) (he : r.expect = some e)
    (h : recvVerify sha a r (some data) = (.ok, info)) :
    folderContentHash sha ((hashBlocks r.bs data).map sha) = e := by
  have hpath : ∀ hs, hashPath sha a.readFail (some data) r.bs folderMaxBlocks = .ok hs →
      hs = (hashBlocks r.bs data).map sha := by
    intro hs hp
    unfold hashPath at hp
    dsimp only at hp
    cases hrf : a.readFail with
    | none =>
      rw [hrf] at hp
      dsimp only at hp
      split at hp
      · simp at hp
      · exact (Except.ok.inj hp).symm
    | some k =>
      rw [hrf] at hp
      dsimp only at hp
      split at hp
      · simp at hp
      · split at hp
        · simp at hp
        · exact (Except.ok.inj hp).symm
  unfold recvVerify at h
  rw [hs, he] at h
  simp only [Bool.false_eq_true, ↓reduceIte] at h
  split at h
  · simp at h
  · split at h
    · simp at h
    · split at h
      · simp at h
      · rename_i hs' hp
        split at h
        · simp at h
        · rename_i hne
          rw [← hpath hs' hp]
          exact not_not.mp hne

/-- **Verified.** A finished download that passed its verification is what was announced
exactly when the announcement fits together. -/
theorem verified_describes_iff (hinj : Set.InjOn sha known) (hadm : w.Admitted sha) (window : Nat)
    (reopen : Bool) (existing : Option Bytes) (read : Nat → Option Bytes)
    (io : Nat → WriteAnswer) (now : Int) (reqId : Nat) (es : List DlEvent) {d : Download}
    (hd : d = dlRun sha w window (startDownload sha w reopen existing read io now reqId) es)
    (hfin : d.phase = .finalized) (hk : hashedStrings sha w d.temp ⊆ known) {a : DosAnswers}
    {path : Bytes} {tmp : Path} {revert : Bool} {info : FolderRecvInfo}
    (hv : recvVerify sha a (finalizeArgs w path tmp d.resumed revert) (some d.temp) = (.ok, info)) :
    w.Describes sha d.temp ↔ w.FitsTogether sha known := by
  refine ⟨fitsTogether_of_describes hadm hk, fun hfit => ?_⟩
  have hres : d.resumed =
      decide (0 < (folderRecvOpen reopen w.fi.blockSize w.numBlocks existing).1) := by
    rw [hd]
    exact dlRun_startDownload_resumed window reopen existing read reqId es
  rcases hfit with ⟨hsize, hn⟩ | ⟨hw, hn, tail, htail, hlen, hlast⟩
  · -- no block at all: nothing can have been resumed
    have hrf : (folderRecvOpen reopen w.fi.blockSize w.numBlocks existing).1 = 0 := by
      rcases folderRecvOpen_cases reopen w.fi.blockSize w.numBlocks existing with
        he | ⟨t, -, -, hpos, -⟩
      · rw [he]
      · rw [hn] at hpos
        omega
    rw [hrf] at hres
    have hskip : (finalizeArgs w path tmp d.resumed revert).skipVerify = true := by
      simp [finalizeArgs, hres]
    have hlen := recvVerify_ok_skip hskip hv
    have hnil : d.temp = [] := by
      refine List.length_eq_zero_iff.mp ?_
      have he : (finalizeArgs w path tmp d.resumed revert).expectSize = w.fi.size := rfl
      omega
    refine ⟨hlen, Or.inl ?_⟩
    rw [hnil, split_nil, List.map_nil]
    exact List.length_eq_zero_iff.mp hn
  · have hok : DownloadOk sha w window (folderRecvOpen reopen w.fi.blockSize w.numBlocks existing).1 d := by
      rw [hd]
      exact downloadOk_run hw es (startDownload_ok hw window reopen existing read io now reqId)
    have hinv := hok.finalized hfin
    cases hr : d.resumed with
    | false =>
      have hrf : (folderRecvOpen reopen w.fi.blockSize w.numBlocks existing).1 = 0 := by
        rw [hr] at hres
        simpa using hres.symm
      rw [hrf] at hinv
      have hskip : (finalizeArgs w path tmp d.resumed revert).skipVerify = true := by
        simp [finalizeArgs, hr]
      exact describes_of_fresh hw (fun i hi => (hinv.staged.held i (Nat.zero_le i) hi).2)
        (recvVerify_ok_skip hskip hv)
    | true =>
      have hskip : (finalizeArgs w path tmp d.resumed revert).skipVerify = false := by
        simp [finalizeArgs, hr]
      have hbs : (finalizeArgs w path tmp d.resumed revert).bs = w.bs := if_pos hw.pos
      have hcontent := recvVerify_ok_full hskip hadm.content hv
      rw [hbs] at hcontent
      exact describes_of_resumed hinj hk hw htail hlen hlast hcontent

end Verify

/-! ## What is recorded -/

theorem fileData_stamp (fold : Path → Path) (tz : Int) (r : RecvArgs) (full : Path) (fs : Fs) :
    fileData ((stamp fold tz r full fs).obj fold full) = fileData (fs.obj fold full) := by
  have hset : ∀ (fs : Fs) (date : Int),
      fileData ((fs.setFileDate fold full date).obj fold full) = fileData (fs.obj fold full) := by
    intro fs date
    simp only [Fs.obj, Fs.setFileDate, Function.update_self]
    cases fs (fold full) with
    | none => rfl
    | some o => cases o <;> rfl
  have hprot : ∀ (fs : Fs) (bits : Nat),
      fileData ((fs.setProtection fold full bits).obj fold full) = fileData (fs.obj fold full) := by
    intro fs bits
    rw [Fs.obj_setProtection_self]
    cases fs.obj fold full with
    | none => rfl
    | some o => cases o <;> rfl
  unfold stamp
  rw [hset]
  split
  · exact hprot fs _
  · rfl

/-- **Recorded.** Whenever a finished download is recorded, the published file is what was
announced exactly when the announcement fits together; had the old file been parked over
the staged one, exactly when the old file is. The hash is taken to tell apart the strings of
`known`, among them all that are compared here. -/
theorem recorded_describes_iff (sha : Bytes → Hash) (known : Set Bytes)
    (hinj : Set.InjOn sha known) (w : Wanted) (hadm : w.Admitted sha) (window : Nat)
    (reopen : Bool) (existing : Option Bytes) (read : Nat → Option Bytes)
    (io : Nat → WriteAnswer) (now : Int) (reqId : Nat) (es : List DlEvent) (d : Download)
    (hd : d = dlRun sha w window (startDownload sha w reopen existing read io now reqId) es)
    (hfin : d.phase = .finalized) (hk : hashedStrings sha w d.temp ⊆ known)
    (fold : Path → Path) (hfold : ∀ p, (fold p).length = p.length) (versioning : Bool) (tz : Int)
    (a : DosAnswers) (mode : FolderMode) (path lname full tmp : Bytes)
    (hl : toLocal w.fi.name = some lname) (hfull : joinFull path lname = some full)
    (htmp : tempPath wkTmpMax path lname = some tmp) (fs fs₁ fs' : Fs) (prot : Nat) (date : Int)
    (hfs : fs.obj fold tmp = some (.file d.temp prot date))
    (hfs₁ : fs₁ = folderArchive fold (versioning || reverts fold mode fs path w.fi.name) a.mkdir
      a.archive fs path lname) (m : Wanted)
    (hrec : finalizeDownload sha fold versioning tz a mode path tmp w d.resumed fs = (some m, fs')) :
    (∃ data, fileData (fs'.obj fold full) = some data ∧ w.Describes sha data) ↔
      ¬ ParkedOver fold fs₁ tmp full (asidePath path lname) ∧ w.FitsTogether sha known ∨
      ParkedOver fold fs₁ tmp full (asidePath path lname) ∧
        ∃ data, fileData (fs₁.obj fold full) = some data ∧ w.Describes sha data := by
  have hne := tempPath_ne_target hfold hfull htmp
  have hstaged := folderArchive_staged hfold hfull (versioning || reverts fold mode fs path w.fi.name)
    a.mkdir a.archive htmp hfs
  rw [← hfs₁] at hstaged
  unfold finalizeDownload at hrec
  dsimp only at hrec
  rcases folderRecvFinish_cases sha fold versioning tz a (finalizeArgs w path tmp d.resumed
      (reverts fold mode fs path w.fi.name)) fs with
    ⟨res, info, hres, -, h⟩ | ⟨l, f, info, fs₂, -, -, -, h⟩ | ⟨l, f, info, fs₂, ht, hv, hswap, h⟩
  · rw [h] at hrec
    cases res with
    | ok => exact absurd rfl hres
    | mismatch => simp at hrec
    | close => simp at hrec
    | io => simp at hrec
  · rw [h] at hrec
    simp at hrec
  · rw [h] at hrec
    simp only [Prod.mk.injEq] at hrec
    have htarget : (finalizeArgs w path tmp d.resumed
        (reverts fold mode fs path w.fi.name)).target = some (lname, full) := by
      simp [RecvArgs.target, finalizeArgs, hl, hfull]
    rw [htarget, Option.some.injEq, Prod.mk.injEq] at ht
    obtain ⟨rfl, rfl⟩ := ht
    have hswap' : swapIn fold a fs₁ tmp full (asidePath path lname) = (fs₂, true) := by
      rw [hfs₁]
      exact hswap
    obtain ⟨hput, hover⟩ := swapIn_published hne hswap'
    have htemp : fs.obj fold (finalizeArgs w path tmp d.resumed
        (reverts fold mode fs path w.fi.name)).tmp = some (.file d.temp prot date) := hfs
    rw [htemp] at hv
    have hiff := verified_describes_iff hinj hadm window reopen existing read io now reqId es hd hfin
      hk hv
    rw [← hrec.2, fileData_stamp]
    by_cases hp : ParkedOver fold fs₁ tmp full (asidePath path lname)
    · have hold : fileData ((fs₁.obj fold full).map (DosObj.setProt 0)) =
          fileData (fs₁.obj fold full) := by
        cases fs₁.obj fold full with
        | none => rfl
        | some o => cases o <;> rfl
      rw [hover hp, hold]
      simp [hp]
    · rw [hput hp, hstaged]
      simp [hp, fileData, hiff]

/-! ## A file of another size -/

/-- A hash that tells apart the strings below. -/
def sumHash (b : Bytes) : Hash := sampleHash (b.foldl (· + ·) 0)

/-- The hashes of two full blocks, announced with a size. -/
def twoBlocks (size : Int) : Wanted where
  fi := { SyncMeta.zero [102] with
    size := size
    blockSize := 2
    contentHash := some (folderContentHash sumHash [sumHash [1, 2], sumHash [3, 4]]) }
  hashes := [sumHash [1, 2], sumHash [3, 4]]

/-- The temporary file `W:f.amitmp` holds both blocks already. -/
def leftoverFs : Fs := fun p =>
  if p = [87, 58, 102] ++ amitmp then some (.file [1, 2, 3, 4] 0 8) else none

def grantedAnswers : DosAnswers := ⟨true, true, none, true, true, true, true, true⟩

/-- The download finds nothing left to ask for. -/
def resumedDownload (size : Int) : Download :=
  dlRun sumHash (twoBlocks size) 4 (startDownload sumHash (twoBlocks size) true (some [1, 2, 3, 4])
    (fun _ => none) (fun _ => .granted) 10 0) [.progress 10]

def resumedFinish (size : Int) : Option Wanted × Fs :=
  finalizeDownload sumHash id false 0 grantedAnswers .sendReceive [87, 58]
    ([87, 58, 102] ++ amitmp) (twoBlocks size) (resumedDownload size).resumed leftoverFs

/-- The two blocks and the row of their hashes. -/
def twoBlockStrings : Set Bytes :=
  {[1, 2], [3, 4], ([sumHash [1, 2], sumHash [3, 4]].map Subtype.val).flatten}

theorem hashedStrings_twoBlocks (size : Int) :
    hashedStrings sumHash (twoBlocks size) [1, 2, 3, 4] ⊆ twoBlockStrings := by
  intro b hb
  have hblocks : hashBlocks (twoBlocks size).bs [1, 2, 3, 4] = [[1, 2], [3, 4]] := by
    show hashBlocks 2 [1, 2, 3, 4] = [[1, 2], [3, 4]]
    decide
  rw [hashedStrings, hblocks] at hb
  rcases hb with hb | hb | hb
  · rcases List.mem_pair.mp hb with rfl | rfl
    · exact Or.inl rfl
    · exact Or.inr (Or.inl rfl)
  · exact Or.inr (Or.inr hb)
  · exact Or.inr (Or.inr hb)

theorem sumHash_injOn : Set.InjOn sumHash twoBlockStrings := by
  intro x hx y hy h
  rcases hx with rfl | rfl | rfl <;> rcases hy with rfl | rfl | rfl <;>
    first
      | rfl
      | exact absurd h (by decide +kernel)

/-- Announced with three bytes, the four bytes that were there are recorded. -/
theorem recorded_resumed_other_size :
    (twoBlocks 3).Admitted sumHash ∧ Set.InjOn sumHash twoBlockStrings ∧
      hashedStrings sumHash (twoBlocks 3) [1, 2, 3, 4] ⊆ twoBlockStrings ∧
      (resumedDownload 3).phase = .finalized ∧ (resumedFinish 3).1 = some (twoBlocks 3) ∧
      (twoBlocks 3).fi.size = 3 ∧
      fileData ((resumedFinish 3).2.obj id [87, 58, 102]) = some [1, 2, 3, 4] :=
  ⟨⟨by decide, by decide, by decide, rfl⟩, sumHash_injOn, hashedStrings_twoBlocks 3, by decide,
    by decide +kernel, rfl, by decide +kernel⟩

theorem resumedFinish_recorded : resumedFinish 4 = (some (twoBlocks 4), (resumedFinish 4).2) := by
  have h : (resumedFinish 4).1 = some (twoBlocks 4) := by decide +kernel
  rw [← h]

/-- Announced with four bytes, they are what was announced. -/
theorem recorded_resumed_describes :
    ∃ data, fileData ((resumedFinish 4).2.obj id [87, 58, 102]) = some data ∧
      (twoBlocks 4).Describes sumHash data :=
  (recorded_describes_iff sumHash twoBlockStrings sumHash_injOn (twoBlocks 4)
    ⟨by decide, by decide, by decide, rfl⟩ 4 true (some [1, 2, 3, 4]) (fun _ => none)
    (fun _ => .granted) 10 0 [.progress 10] (resumedDownload 4) rfl (by decide)
    (hashedStrings_twoBlocks 4) id (fun _ => rfl) false 0 grantedAnswers .sendReceive [87, 58] [102]
    [87, 58, 102] ([87, 58, 102] ++ amitmp) (by decide) (by decide) (by decide) leftoverFs leftoverFs
    (resumedFinish 4).2 0 8 (by decide) rfl (twoBlocks 4) resumedFinish_recorded).mpr
    (Or.inl ⟨fun h => h.1 (by decide), Or.inr ⟨⟨by decide, by decide, by decide⟩, by decide,
      [3, 4], Or.inr (Or.inl rfl), by decide, rfl⟩⟩)

end Amisync

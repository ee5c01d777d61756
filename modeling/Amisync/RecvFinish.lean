import Amisync.Dos

/-!
# Publishing a received file (`folder_recv_finish`)

The staged file is closed, verified and renamed over the target; the old target
is archived, or parked aside, or deleted before that last rename.

* `folderRecvFinish_cases`: it fails before the swap, or the last rename is
  refused, or the file is published.
* `swapIn_refused_kept`, `swapIn_refused_lost`: what a refused rename leaves.
* `recvFinish_target_kept_iff`: after a failed publication the target is what
  it was exactly when it was absent, or was parked and not archived.
-/

namespace Amisync

/-! ## Hashing a file -/

section Hashing
variable (sha : Bytes → Hash)

/-- `folder_content_hash`: the hash of the block hashes in a row. -/
def folderContentHash (hs : List Hash) : Hash := sha (hs.map Subtype.val).flatten

/-- The blocks a file is hashed in. An empty file has one empty block. -/
def hashBlocks (bs : Nat) (data : Bytes) : List Bytes :=
  if data = [] then [[]] else Blocks.split bs data

inductive HashWhy where
  | cannotOpen
  | cannotRead
  | tooBig
  deriving DecidableEq, Repr

/-- `hash_path`: the block hashes, or why not and how many blocks were read. `readFail` is
the block whose read the disk refuses, if any. -/
def hashPath (readFail : Option Nat) (file : Option Bytes) (bs cap : Nat) :
    Except (HashWhy × Nat) (List Hash) :=
  match file with
  | none => .error (.cannotOpen, 0)
  | some data =>
    let hs := (hashBlocks bs data).map sha
    match readFail with
    | some k =>
      if k < hs.length ∧ k ≤ cap then .error (.cannotRead, k)
      else if cap < hs.length then .error (.tooBig, cap) else .ok hs
    | none => if cap < hs.length then .error (.tooBig, cap) else .ok hs

/-- `recv_first_bad_block`: the first block that is not the one that was expected. -/
def recvFirstBadBlock (i : Nat) : List Bytes → List Hash → Option Nat
  | b :: bs, h :: hs =>
    if b = [] then none else if sha b = h then recvFirstBadBlock (i + 1) bs hs else some i
  | _, _ => none

end Hashing

/-! ## Results -/

inductive FolderRecvResult where
  | ok
  | mismatch
  | close
  | io
  deriving DecidableEq, Repr

inductive FolderIoReason where
  | none
  | nomem
  | cannotOpen
  | cannotRead
  | tooBig
  | path
  | rename
  | size
  deriving DecidableEq, Repr

/-- The diagnostic detail; the DOS error code is left out. -/
structure FolderRecvInfo where
  badBlock : Option Nat
  badOff : Option Nat
  gotBlocks : Option Nat
  expBlocks : Nat
  ioReason : FolderIoReason
  deriving DecidableEq, Repr

def HashWhy.reason : HashWhy → FolderIoReason
  | cannotOpen => .cannotOpen
  | cannotRead => .cannotRead
  | tooBig => .tooBig

/-- What the caller hands over. `num_blocks` is the length of `blockHashes`. -/
structure RecvArgs where
  path : Bytes
  name : Name
  tmp : Path
  modifiedS : Int
  perms : Nat
  blockSize : Int
  expectSize : Int
  skipVerify : Bool
  archiveAlways : Bool
  expect : Option Hash
  blockHashes : List Hash
  deriving DecidableEq, Repr

/-- The answers of the calls the system may refuse. -/
structure DosAnswers where
  close : Bool
  alloc : Bool
  readFail : Option Nat
  mkdir : Bool
  archive : Bool
  park : Bool
  publish : Bool
  restore : Bool
  deriving DecidableEq, Repr

/-- Every call but the last rename is granted. -/
def DosAnswers.OthersOk (a : DosAnswers) : Prop :=
  a.close = true ∧ a.alloc = true ∧ a.readFail = none ∧ a.mkdir = true ∧ a.archive = true ∧
    a.park = true ∧ a.restore = true

instance (a : DosAnswers) : Decidable a.OthersOk := inferInstanceAs (Decidable (_ ∧ _))

/-! ## The function -/

/-- `FIBF_READ`, `FIBF_WRITE | FIBF_DELETE` and `FIBF_EXECUTE` are set to forbid. -/
def unixModeToProtection (mode : Nat) : Nat :=
  (if mode &&& 0o400 = 0 then 8 else 0) + (if mode &&& 0o200 = 0 then 5 else 0) +
    (if mode &&& 0o100 = 0 then 2 else 0)

def blankInfo (r : RecvArgs) : FolderRecvInfo := ⟨none, none, none, r.blockHashes.length, .none⟩

def RecvArgs.bs (r : RecvArgs) : Nat :=
  if r.blockSize > 0 then r.blockSize.toNat else folderBlockSizeBase

def fileData : Option DosObj → Option Bytes
  | some (.file data _ _) => some data
  | _ => none

/-- The two ways of checking the staged file. `.ok` lets it be published. -/
def recvVerify (sha : Bytes → Hash) (a : DosAnswers) (r : RecvArgs) (staged : Option Bytes) :
    FolderRecvResult × FolderRecvInfo :=
  let info := blankInfo r
  if r.skipVerify then
    let got : Int := match staged with
      | some data => data.length
      | none => -1
    if got ≠ r.expectSize then (.io, { info with ioReason := .size }) else (.ok, info)
  else match r.expect with
    | none => (.ok, info)
    | some e =>
      if folderMaxBlockSize < r.bs then (.io, { info with ioReason := .tooBig })
      else if !a.alloc then (.io, { info with ioReason := .nomem })
      else match hashPath sha a.readFail staged r.bs folderMaxBlocks with
        | .error (why, nb) => (.io, { info with gotBlocks := some nb, ioReason := why.reason })
        | .ok hs =>
          if folderContentHash sha hs ≠ e then
            let bad := if hs.length = r.blockHashes.length then
              recvFirstBadBlock sha 0 (hashBlocks r.bs (staged.getD [])) r.blockHashes else none
            (.mismatch,
              { info with
                gotBlocks := some hs.length
                badBlock := bad
                badOff := bad.map (· * r.bs) })
          else (.ok, info)

/-- Make room at the target: park what is there, or delete it. -/
def park (fold : Path → Path) (granted : Bool) (fs : Fs) (full : Path) (aside : Option Path) :
    Fs × Option Path :=
  if fs.lock fold full then
    let fs₁ := fs.setProtection fold full 0
    match aside with
    | some asd =>
      let fs₂ := fs₁.deleteFile fold asd
      match fs₂.rename fold granted full asd with
      | some fs₃ => (fs₃, some asd)
      | none => (fs₂.deleteFile fold full, none)
    | none => (fs₁.deleteFile fold full, none)
  else (fs, none)

/-- The swap: make room, rename, and put the parked file back if that is refused. -/
def swapIn (fold : Path → Path) (a : DosAnswers) (fs : Fs) (tmp full : Path)
    (aside : Option Path) : Fs × Bool :=
  let (fs₁, parked) := park fold a.park fs full aside
  match fs₁.rename fold a.publish tmp full with
  | some fs₂ => (match parked with
      | some asd => fs₂.deleteFile fold asd
      | none => fs₂, true)
  | none =>
    let fs₂ := match parked with
      | some asd => (fs₁.rename fold a.restore asd full).getD fs₁
      | none => fs₁
    (fs₂.deleteFile fold tmp, false)

/-- The local name of the target and its path. -/
def RecvArgs.target (r : RecvArgs) : Option (Bytes × Path) :=
  (toLocal r.name).bind fun lname => (joinFull r.path lname).map fun full => (lname, full)

/-- Protection and date of the published file, as far as they can be set. -/
def stamp (fold : Path → Path) (tz : Int) (r : RecvArgs) (full : Path) (fs : Fs) : Fs :=
  (if r.perms ≠ 0 then fs.setProtection fold full (unixModeToProtection r.perms) else fs).setFileDate
    fold full (folderMtimeOnDisk tz r.modifiedS)

/-- A verified file takes the target's place. -/
def publishStaged (fold : Path → Path) (versioning : Bool) (tz : Int) (a : DosAnswers) (r : RecvArgs)
    (info : FolderRecvInfo) (fs : Fs) : (FolderRecvResult × FolderRecvInfo) × Fs :=
  match r.target with
  | none => ((.io, { info with ioReason := .path }), fs.deleteFile fold r.tmp)
  | some (lname, full) =>
    let fs₁ := folderArchive fold (versioning || r.archiveAlways) a.mkdir a.archive fs r.path lname
    match swapIn fold a fs₁ r.tmp full (asidePath r.path lname) with
    | (fs₂, false) => ((.io, { info with ioReason := .rename }), fs₂)
    | (fs₂, true) => ((.ok, info), stamp fold tz r full fs₂)

/-- `folder_recv_finish`, with the `g_versioning` setting and the clock's offset. -/
def folderRecvFinish (sha : Bytes → Hash) (fold : Path → Path) (versioning : Bool) (tz : Int)
    (a : DosAnswers) (r : RecvArgs) (fs : Fs) : (FolderRecvResult × FolderRecvInfo) × Fs :=
  if !a.close then ((.close, blankInfo r), fs.deleteFile fold r.tmp)
  else match recvVerify sha a r (fileData (fs.obj fold r.tmp)) with
    | (.ok, info) => publishStaged fold versioning tz a r info fs
    | (res, info) => ((res, info), fs.deleteFile fold r.tmp)

/-! ## The three ways it ends -/

/-- Verification does not fail with the reason of the last rename. -/
theorem recvVerify_reason (sha : Bytes → Hash) (a : DosAnswers) (r : RecvArgs)
    (staged : Option Bytes) : (recvVerify sha a r staged).2.ioReason ≠ .rename := by
  unfold recvVerify blankInfo
  dsimp only
  split
  · cases staged <;> dsimp only <;> split <;> simp
  · split
    · simp
    · split
      · simp
      · split
        · simp
        · split
          · rename_i why _ _
            cases why <;> simp [HashWhy.reason]
          · split <;> simp

/-- **Inversion.** It fails before the swap, or the last rename is refused, or the file is
published. -/
theorem folderRecvFinish_cases (sha : Bytes → Hash) (fold : Path → Path) (versioning : Bool)
    (tz : Int) (a : DosAnswers) (r : RecvArgs) (fs : Fs) :
    (∃ res info, res ≠ .ok ∧ info.ioReason ≠ .rename ∧
      folderRecvFinish sha fold versioning tz a r fs = ((res, info), fs.deleteFile fold r.tmp)) ∨
    (∃ lname full info fs₂, r.target = some (lname, full) ∧
      swapIn fold a (folderArchive fold (versioning || r.archiveAlways) a.mkdir a.archive fs r.path
        lname) r.tmp full (asidePath r.path lname) = (fs₂, false) ∧ info.ioReason = .rename ∧
      folderRecvFinish sha fold versioning tz a r fs = ((.io, info), fs₂)) ∨
    (∃ lname full info fs₂, r.target = some (lname, full) ∧
      recvVerify sha a r (fileData (fs.obj fold r.tmp)) = (.ok, info) ∧
      swapIn fold a (folderArchive fold (versioning || r.archiveAlways) a.mkdir a.archive fs r.path
        lname) r.tmp full (asidePath r.path lname) = (fs₂, true) ∧
      folderRecvFinish sha fold versioning tz a r fs = ((.ok, info), stamp fold tz r full fs₂)) := by
  have hreason := recvVerify_reason sha a r (fileData (fs.obj fold r.tmp))
  unfold folderRecvFinish
  cases hclose : a.close with
  | false => exact Or.inl ⟨.close, blankInfo r, by simp, by simp [blankInfo], rfl⟩
  | true =>
    simp only [Bool.not_true, Bool.false_eq_true, ↓reduceIte]
    cases hv : recvVerify sha a r (fileData (fs.obj fold r.tmp)) with
    | mk res info =>
      rw [hv] at hreason
      cases res with
      | mismatch => exact Or.inl ⟨.mismatch, info, by simp, hreason, rfl⟩
      | close => exact Or.inl ⟨.close, info, by simp, hreason, rfl⟩
      | io => exact Or.inl ⟨.io, info, by simp, hreason, rfl⟩
      | ok =>
        dsimp only [publishStaged]
        cases ht : r.target with
        | none => exact Or.inl ⟨.io, { info with ioReason := .path }, by simp, by simp, rfl⟩
        | some t =>
          obtain ⟨lname, full⟩ := t
          dsimp only
          cases hs : swapIn fold a (folderArchive fold (versioning || r.archiveAlways) a.mkdir
            a.archive fs r.path lname) r.tmp full (asidePath r.path lname) with
          | mk fs₂ done =>
            cases done with
            | false => exact Or.inr (Or.inl ⟨lname, full, { info with ioReason := .rename }, fs₂,
                rfl, hs, rfl, rfl⟩)
            | true => exact Or.inr (Or.inr ⟨lname, full, info, fs₂, rfl, rfl, hs, rfl⟩)

/-! ## A refused rename -/

section Swap
variable {fold : Path → Path} {a : DosAnswers} {fs fs₂ : Fs} {tmp full : Path} {aside : Option Path}

/-- Parking moves the object, with its protection cleared. -/
theorem park_parks {asd : Path} {o : DosObj} (ho : fs.obj fold full = some o)
    (hne : fold asd ≠ fold full) :
    ∃ fs₁, park fold true fs full (some asd) = (fs₁, some asd) ∧
      fs₁.obj fold asd = some (o.setProt 0) ∧ fs₁.obj fold full = none := by
  have hlock : fs.lock fold full = true := by simp [Fs.lock, ho]
  have hsrc : ((fs.setProtection fold full 0).deleteFile fold asd).obj fold full =
      some (o.setProt 0) := by
    rw [Fs.obj_deleteFile_of_ne hne.symm, Fs.obj_setProtection_self, ho]
    rfl
  have hren := Fs.rename_granted hsrc (Fs.obj_deleteFile_self (fs.setProtection fold full 0) asd)
  refine ⟨_, by simp only [park, hlock, ↓reduceIte, hren]; rfl, ?_, ?_⟩
  · unfold Fs.obj
    rw [Function.update_self]
  · unfold Fs.obj
    rw [Function.update_of_ne hne.symm, Function.update_self]

/-- Where the object cannot be parked it is deleted. -/
theorem park_deletes (granted : Bool) {o : DosObj} (ho : fs.obj fold full = some o)
    (h : ∀ asd, aside = some asd → fold asd = fold full) :
    ∃ fs₁, park fold granted fs full aside = (fs₁, none) ∧ fs₁.obj fold full = none := by
  have hlock : fs.lock fold full = true := by simp [Fs.lock, ho]
  cases aside with
  | none =>
    refine ⟨_, ?_, Fs.obj_deleteFile_self (fs.setProtection fold full 0) full⟩
    simp only [park, hlock, ↓reduceIte]
  | some asd =>
    have he := h asd rfl
    have hnone : ((fs.setProtection fold full 0).deleteFile fold asd).obj fold full = none := by
      simp [Fs.obj, Fs.deleteFile, he]
    have hren := Fs.rename_of_none (q := asd) granted hnone
    refine ⟨_, ?_, Fs.obj_deleteFile_self ((fs.setProtection fold full 0).deleteFile fold asd) full⟩
    simp only [park, hlock, ↓reduceIte, hren]

theorem park_absent (granted : Bool) (ho : fs.obj fold full = none) :
    park fold granted fs full aside = (fs, none) := by
  simp [park, Fs.lock, ho]

/-- A parked target is put back. -/
theorem swapIn_refused_kept {asd : Path} {o : DosObj} (ho : fs.obj fold full = some o)
    (hne : fold asd ≠ fold full) (htmp : fold full ≠ fold tmp) (hpark : a.park = true)
    (hrestore : a.restore = true) (h : swapIn fold a fs tmp full (some asd) = (fs₂, false)) :
    fs₂.obj fold full = some (o.setProt 0) := by
  obtain ⟨fs₁, hp, hasd, hfull⟩ := park_parks ho hne
  unfold swapIn at h
  rw [hpark, hp, hrestore] at h
  dsimp only at h
  split at h
  · simp at h
  · simp only [Prod.mk.injEq, and_true] at h
    subst h
    rw [Fs.obj_deleteFile_of_ne htmp, Fs.rename_granted hasd hfull, Option.getD_some]
    unfold Fs.obj
    rw [Function.update_self]

/-- Without a parked target there is nothing to put back. -/
theorem swapIn_refused_lost {fs₁ : Fs} (htmp : fold full ≠ fold tmp)
    (hp : park fold a.park fs full aside = (fs₁, none)) (hnone : fs₁.obj fold full = none)
    (h : swapIn fold a fs tmp full aside = (fs₂, false)) : fs₂.obj fold full = none := by
  unfold swapIn at h
  rw [hp] at h
  dsimp only at h
  split at h
  · simp at h
  · simp only [Prod.mk.injEq, and_true] at h
    subst h
    rw [Fs.obj_deleteFile_of_ne htmp, hnone]

end Swap

/-! ## The target after a failure -/

/-- The target is absent, or it is parked and nothing moves it away before that. -/
def TargetSafe (fold : Path → Path) (enabled mkdir : Bool) (fs : Fs) (path lname full : Bytes) :
    Prop :=
  fs.obj fold full = none ∨ (¬ Archives fold enabled mkdir fs path lname full ∧
    ∃ asd, asidePath path lname = some asd ∧ fold asd ≠ fold full)

section Target
variable {fold : Path → Path} (hfold : ∀ p, (fold p).length = p.length) {a : DosAnswers}
  {fs fs₂ : Fs} {path lname full tmp : Bytes} {enabled : Bool}
  (hfull : joinFull path lname = some full) (htmp : tempPath wkTmpMax path lname = some tmp)
  (ha : a.OthersOk)
  (hswap : swapIn fold a (folderArchive fold enabled a.mkdir a.archive fs path lname) tmp full
    (asidePath path lname) = (fs₂, false))
include hfold hfull htmp ha hswap

theorem refused_of_safe (hsafe : TargetSafe fold enabled a.mkdir fs path lname full) :
    fs₂.obj fold full = (fs.obj fold full).map (DosObj.setProt 0) := by
  have hne := tempPath_ne_target hfold hfull htmp
  rcases hsafe with ho | ⟨harch, asd, hasd, hasd'⟩
  · rw [folderArchive_absent hfull enabled a.mkdir a.archive ho] at hswap
    rw [ho]
    exact swapIn_refused_lost hne (park_absent a.park ho) ho hswap
  · cases ho : fs.obj fold full with
    | none =>
      rw [folderArchive_absent hfull enabled a.mkdir a.archive ho] at hswap
      exact swapIn_refused_lost hne (park_absent a.park ho) ho hswap
    | some o =>
      have hkeep := folderArchive_keeps hfull enabled a.mkdir a.archive ho harch
      rw [hasd] at hswap
      exact swapIn_refused_kept hkeep hasd' hne ha.2.2.2.2.2.1 ha.2.2.2.2.2.2 hswap

theorem refused_of_not_safe (hsafe : ¬ TargetSafe fold enabled a.mkdir fs path lname full) :
    fs.obj fold full ≠ none ∧ fs₂.obj fold full = none := by
  have hne := tempPath_ne_target hfold hfull htmp
  have ho : fs.obj fold full ≠ none := fun e => hsafe (Or.inl e)
  refine ⟨ho, ?_⟩
  obtain ⟨o, ho⟩ := Option.ne_none_iff_exists'.mp ho
  by_cases harch : Archives fold enabled a.mkdir fs path lname full
  · have hgone := folderArchive_moves hfold hfull enabled a.mkdir harch
    rw [← ha.2.2.2.2.1] at hgone
    exact swapIn_refused_lost hne (park_absent a.park hgone) hgone hswap
  · have hkeep := folderArchive_keeps hfull enabled a.mkdir a.archive ho harch
    have hasd : ∀ asd, asidePath path lname = some asd → fold asd = fold full := by
      intro asd he
      by_contra hne'
      exact hsafe (Or.inr ⟨harch, asd, he, hne'⟩)
    obtain ⟨fs₁, hp, hnone⟩ := park_deletes a.park hkeep hasd
    exact swapIn_refused_lost hne hp hnone hswap

end Target

/-- What is at the path, protection bits aside. -/
def contentAt (fold : Path → Path) (fs : Fs) (p : Path) : Option (Option (Bytes × Int)) :=
  (fs.obj fold p).map DosObj.content

/-- **The target after a failed publication.** A failure before the swap leaves it as it was.
A refused last rename leaves its content exactly when it is safe, and the whole object
exactly when its protection bits were clear as well. -/
theorem recvFinish_target_kept_iff (sha : Bytes → Hash) (fold : Path → Path)
    (hfold : ∀ p, (fold p).length = p.length) (versioning : Bool) (tz : Int) (a : DosAnswers)
    (ha : a.OthersOk) (r : RecvArgs) (lname full : Bytes) (ht : r.target = some (lname, full))
    (htmp : tempPath wkTmpMax r.path lname = some r.tmp) (fs : Fs) :
    ((folderRecvFinish sha fold versioning tz a r fs).1.1 ≠ .ok →
      (folderRecvFinish sha fold versioning tz a r fs).1.2.ioReason ≠ .rename →
      (folderRecvFinish sha fold versioning tz a r fs).2.obj fold full = fs.obj fold full) ∧
    ((folderRecvFinish sha fold versioning tz a r fs).1.1 ≠ .ok →
      (folderRecvFinish sha fold versioning tz a r fs).1.2.ioReason = .rename →
      (contentAt fold (folderRecvFinish sha fold versioning tz a r fs).2 full =
          contentAt fold fs full ↔
        TargetSafe fold (versioning || r.archiveAlways) a.mkdir fs r.path lname full) ∧
      ((folderRecvFinish sha fold versioning tz a r fs).2.obj fold full = fs.obj fold full ↔
        TargetSafe fold (versioning || r.archiveAlways) a.mkdir fs r.path lname full ∧
          ∀ o, fs.obj fold full = some o → o.prot = 0)) := by
  obtain ⟨hlname, hfull⟩ : toLocal r.name = some lname ∧ joinFull r.path lname = some full := by
    unfold RecvArgs.target at ht
    obtain ⟨l, hl, hm⟩ := Option.bind_eq_some_iff.mp ht
    obtain ⟨f, hf, he⟩ := Option.map_eq_some_iff.mp hm
    simp only [Prod.mk.injEq] at he
    exact ⟨he.1 ▸ hl, he.1 ▸ he.2 ▸ hf⟩
  have hne := tempPath_ne_target hfold hfull htmp
  rcases folderRecvFinish_cases sha fold versioning tz a r fs with
    ⟨res, info, hres, hwhy, h⟩ | ⟨l, f, info, fs₂, ht', hswap, hwhy, h⟩ |
    ⟨l, f, info, fs₂, ht', -, hswap, h⟩
  · rw [h]
    exact ⟨fun _ _ => Fs.obj_deleteFile_of_ne hne, fun _ hr => absurd hr hwhy⟩
  · rw [h]
    refine ⟨fun _ hr => absurd hwhy hr, fun _ _ => ?_⟩
    rw [ht, Option.some.injEq, Prod.mk.injEq] at ht'
    obtain ⟨rfl, rfl⟩ := ht'
    by_cases hsafe : TargetSafe fold (versioning || r.archiveAlways) a.mkdir fs r.path lname full
    · have hkeep := refused_of_safe hfold hfull htmp ha hswap hsafe
      constructor
      · simp only [contentAt, hkeep, hsafe, iff_true, Option.map_map]
        congr 1
        funext o
        exact DosObj.content_setProt o 0
      · simp only [hkeep, hsafe, true_and]
        cases fs.obj fold full with
        | none => simp
        | some o => simp [DosObj.setProt_eq_self]
    · obtain ⟨hsome, hgone⟩ := refused_of_not_safe hfold hfull htmp ha hswap hsafe
      constructor
      · obtain ⟨o, ho⟩ := Option.ne_none_iff_exists'.mp hsome
        simp [contentAt, hgone, hsafe, ho]
      · simp only [hgone, hsafe, false_and, iff_false]
        exact fun e => hsome e.symm
  · rw [h]
    exact ⟨fun hr => absurd rfl hr, fun hr => absurd rfl hr⟩

/-- A staged file `W:f.amitmp` for the target `W:f`, which the disk refuses to rename. -/
def refusedArgs : RecvArgs where
  path := [87, 58]
  name := [102]
  tmp := [87, 58, 102] ++ amitmp
  modifiedS := 300000000
  perms := 0
  blockSize := 131072
  expectSize := 2
  skipVerify := true
  archiveAlways := false
  expect := none
  blockHashes := [sampleHash 0]

def refusedAnswers : DosAnswers := ⟨true, true, none, true, true, true, false, true⟩

def refusedFs : Fs := fun p =>
  if p = [87, 58, 102] then some (.file [1] 0 7)
  else if p = [87, 58, 102] ++ amitmp then some (.file [2, 3] 0 8)
  else none

/-- With versioning on, the old file is in the versions drawer and its name holds nothing. -/
theorem recvFinish_versioned_target_lost :
    (folderRecvFinish (fun _ => sampleHash 0) id true 0 refusedAnswers refusedArgs refusedFs).1 =
        (.io, { blankInfo refusedArgs with ioReason := .rename }) ∧
      refusedFs.obj id [87, 58, 102] = some (.file [1] 0 7) ∧
      (folderRecvFinish (fun _ => sampleHash 0) id true 0 refusedAnswers refusedArgs
        refusedFs).2.obj id [87, 58, 102] = none := by
  decide

/-- With versioning off it is parked and put back. -/
theorem recvFinish_parked_target_kept :
    contentAt id (folderRecvFinish (fun _ => sampleHash 0) id false 0 refusedAnswers refusedArgs
      refusedFs).2 [87, 58, 102] = contentAt id refusedFs [87, 58, 102] :=
  ((recvFinish_target_kept_iff (fun _ => sampleHash 0) id (fun _ => rfl) false 0 refusedAnswers
    (by decide) refusedArgs [102] [87, 58, 102] (by decide) (by decide) refusedFs).2
    (by decide) (by decide)).1.mpr (Or.inr ⟨by decide, _, rfl, by decide⟩)

end Amisync

import Amisync.PathSafe
import Amisync.Lib.Blocks
import Mathlib.Logic.Function.Basic

/-!
# Paths, the file system and block hashing (`folder.c`)

The part of `dos.library` the receive path uses, the paths it builds, and the
hashing of a file block by block.

* A file system maps the folded spelling of a path to an object; `fold` is the
  file system's own case folding, which keeps the length of a name.
* A call that the system may refuse takes its answer as an argument, on top of
  what the state of the file system already decides.
* `tempPath_ne_target`: the staged file is never the target itself.
* `archiveDst_ne_target`: neither is the archived copy.
-/

namespace Amisync

/-! ## Paths -/

abbrev Path := Bytes

def amigaPathMax : Nat := 254
def fullMax : Nat := 512
def wkTmpMax : Nat := 320
def folderSafeNameLen : Nat := 30

/-- `.amitmp` -/
def amitmp : Bytes := [46, 97, 109, 105, 116, 109, 112]

/-- `.old` -/
def oldSuffix : Bytes := [46, 111, 108, 100]

/-- `.stversions/` -/
def versionsDir : Bytes := [46, 115, 116, 118, 101, 114, 115, 105, 111, 110, 115, 47]

/-- `AddPart` for a name without a volume: no separator after `:`, `/` or nothing. -/
def addPart (cap : Nat) (dir name : Bytes) : Option Path :=
  fitted cap (match dir.getLast? with
    | none => name
    | some c => if c = colon ∨ c = slash then dir ++ name else dir ++ slash :: name)

def joinFull (root name : Bytes) : Option Path :=
  if amigaPathMax + 1 ≤ root.length then none else addPart (amigaPathMax + 1) root name

/-- The 64-bit FNV-1a hash. -/
def fnv64 (s : Bytes) : Nat :=
  s.foldl (fun h b => (h ^^^ b.toNat) * 1099511628211 % 2 ^ 64) 1469598103934665603

def hexDigit (n : Nat) : UInt8 := UInt8.ofNat (if n < 10 then 48 + n else 97 + n - 10)

def fnv16Hex (s : Bytes) : Bytes :=
  (List.range 16).map fun i => hexDigit (fnv64 s / 16 ^ (15 - i) % 16)

def baseName (name : Bytes) : Bytes := (components name).getLastD []

/-- The directory prefix, its `/` included. -/
def dirPrefix (name : Bytes) : Bytes := name.take (name.length - (baseName name).length)

def tempPath (cap : Nat) (path lname : Bytes) : Option Path :=
  if (baseName lname).length + amitmp.length ≤ folderSafeNameLen then
    (joinFull path lname).bind fun full => fitted cap (full ++ amitmp)
  else if bepPathMax < (dirPrefix lname).length + 16 + amitmp.length + 1 then none
  else joinFull path (dirPrefix lname ++ fnv16Hex lname ++ amitmp)

def asidePath (path lname : Bytes) : Option Path :=
  if bepPathMax < (dirPrefix lname).length + 16 + 4 + amitmp.length + 1 then none
  else joinFull path (dirPrefix lname ++ fnv16Hex lname ++ oldSuffix ++ amitmp)

/-! ## Times -/

def amigaUnixOffset : Int := 252460800

def ticksPerSecond : Int := 50

/-- Days since 1978, and how far into the day. -/
structure DateStamp where
  days : Int32
  minute : Int32
  tick : Int32
  deriving DecidableEq

/-- `ds_to_unix`; local time has `tz` seconds more. -/
def dsToUnix (tz : Int) (ds : DateStamp) : Int :=
  ds.days.toInt * 86400 + ds.minute.toInt * 60 + ds.tick.toInt.tdiv ticksPerSecond + amigaUnixOffset - tz

/-- `unix_to_ds`: nothing before 1978 can be stored. The casts are to `LONG`. -/
def unixToDs (tz s : Int) : DateStamp :=
  let a := max (s + tz - amigaUnixOffset) 0
  ⟨Int32.ofInt (a / 86400), Int32.ofInt (a % 86400 / 60), Int32.ofInt (a % 60 * ticksPerSecond)⟩

/-- The time a file stamped with `s` reads back as. -/
def folderMtimeOnDisk (tz s : Int) : Int := dsToUnix tz (unixToDs tz s)

theorem toInt_ofInt32 {n : Int} (h₀ : 0 ≤ n) (h : n < 2 ^ 31) : (Int32.ofInt n).toInt = n := by
  show (BitVec.ofInt 32 n).toInt = n
  rw [BitVec.toInt_ofInt, Int.bmod_eq_of_le (by omega) (by omega)]

/-- **Stamps.** Up to the last day that there is, all times from 1978 on come back, and what is before
that comes back as its start. -/
theorem folderMtimeOnDisk_eq {tz s : Int} (h : s + tz - amigaUnixOffset < 2 ^ 31 * 86400) :
    folderMtimeOnDisk tz s = max (s + tz - amigaUnixOffset) 0 + amigaUnixOffset - tz := by
  have hticks : ticksPerSecond = 50 := rfl
  rw [folderMtimeOnDisk, dsToUnix, unixToDs]
  generalize ha : max (s + tz - amigaUnixOffset) 0 = a
  dsimp only
  rw [toInt_ofInt32 (by omega) (by omega), toInt_ofInt32 (by omega) (by omega),
    toInt_ofInt32 (by rw [hticks]; omega) (by rw [hticks]; omega), hticks,
    Int.mul_tdiv_cancel _ (by decide)]
  omega

/-! ## Objects -/

inductive DosObj where
  | file (data : Bytes) (prot : Nat) (date : Int)
  | drawer (prot : Nat)
  deriving DecidableEq, Repr

namespace DosObj

def isFile : DosObj → Bool
  | file _ _ _ => true
  | drawer _ => false

/-- The object without its protection bits. -/
def content : DosObj → Option (Bytes × Int)
  | file data _ date => some (data, date)
  | drawer _ => none

def prot : DosObj → Nat
  | file _ p _ => p
  | drawer p => p

def setProt (p : Nat) : DosObj → DosObj
  | file data _ date => file data p date
  | drawer _ => drawer p

def setDate (date : Int) : DosObj → DosObj
  | file data p _ => file data p date
  | drawer p => drawer p

@[simp] theorem content_setProt (o : DosObj) (p : Nat) : (o.setProt p).content = o.content := by
  cases o <;> rfl

theorem setProt_eq_self (o : DosObj) (p : Nat) : o.setProt p = o ↔ o.prot = p := by
  cases o <;> simp [setProt, prot, eq_comm]

end DosObj

/-- What each folded path names. -/
abbrev Fs := Path → Option DosObj

namespace Fs

variable (fold : Path → Path)

def obj (fs : Fs) (p : Path) : Option DosObj := fs (fold p)

/-- `Lock` succeeds on whatever exists. -/
def lock (fs : Fs) (p : Path) : Bool := (fs.obj fold p).isSome

def deleteFile (fs : Fs) (p : Path) : Fs := Function.update fs (fold p) none

/-- `Rename` replaces nothing; `granted` is the file system's own answer. -/
def rename (granted : Bool) (fs : Fs) (a b : Path) : Option Fs :=
  match granted, fs.obj fold a, fs.obj fold b with
  | true, some o, none => some (Function.update (Function.update fs (fold a) none) (fold b) (some o))
  | _, _, _ => none

def setProtection (fs : Fs) (p : Path) (bits : Nat) : Fs :=
  Function.update fs (fold p) ((fs.obj fold p).map (DosObj.setProt bits))

def setFileDate (fs : Fs) (p : Path) (date : Int) : Fs :=
  Function.update fs (fold p) ((fs.obj fold p).map (DosObj.setDate date))

/-- `ensure_dir_exists`: whatever is there will do, else a drawer is made. -/
def ensureDirExists (granted : Bool) (fs : Fs) (p : Path) : Fs × Bool :=
  if fs.lock fold p then (fs, true)
  else if granted then (Function.update fs (fold p) (some (.drawer 0)), true)
  else (fs, false)

/-- The loop of `ensure_path_dirs` over the components before the last. -/
def ensureComponents (granted : Bool) : Fs → Path → List Bytes → Fs × Bool
  | fs, _, [] => (fs, true)
  | fs, _, [_] => (fs, true)
  | fs, abs, c :: d :: cs =>
    if 0 < c.length ∧ c.length < bepPathMax then
      match addPart (amigaPathMax + 1) abs c with
      | none => (fs, false)
      | some abs' =>
        match ensureDirExists fold granted fs abs' with
        | (fs', true) => ensureComponents granted fs' abs' (d :: cs)
        | (fs', false) => (fs', false)
    else ensureComponents granted fs abs (d :: cs)

/-- `ensure_path_dirs` with `include_last` 0. -/
def ensurePathDirs (granted : Bool) (fs : Fs) (root rel : Bytes) : Fs × Bool :=
  if amigaPathMax < root.length then (fs, false)
  else ensureComponents fold granted fs root (components rel)

/-! ### What the calls leave alone -/

variable {fold} {fs : Fs} {p q : Path}

@[simp] theorem obj_deleteFile_self (fs : Fs) (p : Path) : (fs.deleteFile fold p).obj fold p = none := by
  simp [obj, deleteFile]

theorem obj_deleteFile_of_ne (h : fold q ≠ fold p) :
    (fs.deleteFile fold p).obj fold q = fs.obj fold q := by
  simp [obj, deleteFile, h]

@[simp] theorem obj_setProtection_self (fs : Fs) (p : Path) (bits : Nat) :
    (fs.setProtection fold p bits).obj fold p = (fs.obj fold p).map (DosObj.setProt bits) := by
  simp [obj, setProtection]

theorem rename_granted {o : DosObj} (hp : fs.obj fold p = some o) (hq : fs.obj fold q = none) :
    fs.rename fold true p q =
      some (Function.update (Function.update fs (fold p) none) (fold q) (some o)) := by
  simp [rename, hp, hq]

theorem rename_of_none (granted : Bool) (hp : fs.obj fold p = none) :
    fs.rename fold granted p q = none := by
  unfold rename
  cases granted <;> simp [hp]

/-- `Rename` touches its two paths only. -/
theorem obj_rename_of_ne {granted : Bool} {fs' : Fs} {r : Path}
    (h : fs.rename fold granted p q = some fs') (hp : fold r ≠ fold p) (hq : fold r ≠ fold q) :
    fs'.obj fold r = fs.obj fold r := by
  unfold rename at h
  split at h
  · rw [Option.some.injEq] at h
    subst h
    unfold obj
    rw [Function.update_of_ne hq, Function.update_of_ne hp]
  · simp at h

theorem obj_ensureDirExists (granted : Bool) {o : DosObj} (hq : fs.obj fold q = some o) :
    (fs.ensureDirExists fold granted p).1.obj fold q = some o := by
  unfold ensureDirExists
  split
  · exact hq
  · rename_i hl
    split
    · have hne : fold q ≠ fold p := by
        intro e
        unfold lock obj at hl
        unfold obj at hq
        rw [← e, hq] at hl
        simp at hl
      unfold obj at hq ⊢
      dsimp only
      rw [Function.update_of_ne hne, hq]
    · exact hq

/-- Making drawers touches nothing that exists. -/
theorem obj_ensureComponents (granted : Bool) {o : DosObj} (abs : Path) (cs : List Bytes)
    (hq : fs.obj fold q = some o) : (fs.ensureComponents fold granted abs cs).1.obj fold q = some o := by
  induction cs generalizing fs abs with
  | nil => exact hq
  | cons c cs ih =>
    cases cs with
    | nil => exact hq
    | cons d cs =>
      rw [ensureComponents]
      split
      · split
        · exact hq
        · rename_i abs' _
          have hd := obj_ensureDirExists (p := abs') granted hq
          split
          · rename_i fs' he
            rw [he] at hd
            exact ih abs' hd
          · rename_i fs' he
            rw [he] at hd
            exact hd
      · exact ih abs hq

theorem obj_ensurePathDirs (granted : Bool) {o : DosObj} (root rel : Bytes)
    (hq : fs.obj fold q = some o) :
    (fs.ensurePathDirs fold granted root rel).1.obj fold q = some o := by
  unfold ensurePathDirs
  split
  · exact hq
  · exact obj_ensureComponents granted root (components rel) hq

end Fs

/-! ## Archiving -/

/-- `folder_archive` on the local name: best effort, and only for an existing file. -/
def folderArchive (fold : Path → Path) (enabled mkdir move : Bool) (fs : Fs) (path lname : Bytes) :
    Fs :=
  if !enabled then fs
  else match joinFull path lname with
    | none => fs
    | some src =>
      if (fs.obj fold src).any DosObj.isFile then
        if fullMax < versionsDir.length + lname.length + 1 then fs
        else match fs.ensurePathDirs fold mkdir path (versionsDir ++ lname) with
          | (fs', false) => fs'
          | (fs', true) =>
            match joinFull path (versionsDir ++ lname) with
            | none => fs'
            | some dst =>
              let fs'' := fs'.deleteFile fold dst
              (fs''.rename fold move src dst).getD fs''
      else fs

/-- The target is a file and can be moved into the versions drawer. -/
def Archives (fold : Path → Path) (enabled mkdir : Bool) (fs : Fs) (path lname full : Bytes) : Prop :=
  enabled = true ∧ (fs.obj fold full).any DosObj.isFile = true ∧
    versionsDir.length + lname.length + 1 ≤ fullMax ∧
    (fs.ensurePathDirs fold mkdir path (versionsDir ++ lname)).2 = true ∧
    (joinFull path (versionsDir ++ lname)).isSome = true

instance (fold : Path → Path) (enabled mkdir : Bool) (fs : Fs) (path lname full : Bytes) :
    Decidable (Archives fold enabled mkdir fs path lname full) :=
  inferInstanceAs (Decidable (_ ∧ _))

/-! ## Lengths of paths -/

theorem length_of_fitted {cap : Nat} {out p : Bytes} (h : fitted cap out = some p) : p = out := by
  unfold fitted at h
  split at h
  · exact (Option.some.inj h).symm
  · simp at h

/-- What `AddPart` puts between the two parts is the same for every name. -/
theorem length_addPart {cap : Nat} {dir name p : Bytes} (h : addPart cap dir name = some p) :
    p.length = dir.length + name.length +
      (match dir.getLast? with
        | none => 0
        | some c => if c = colon ∨ c = slash then 0 else 1) := by
  have hp := length_of_fitted h
  rw [hp]
  cases hd : dir.getLast? with
  | none =>
    rw [List.getLast?_eq_none_iff] at hd
    simp [hd]
  | some c =>
    dsimp only
    split
    · simp
    · simp
      omega

theorem addPart_of_joinFull {root name p : Bytes} (h : joinFull root name = some p) :
    addPart (amigaPathMax + 1) root name = some p := by
  unfold joinFull at h
  split at h
  · simp at h
  · exact h

/-- Paths under one root are as much longer as their names are. -/
theorem length_joinFull {root n m p q : Bytes} (hp : joinFull root n = some p)
    (hq : joinFull root m = some q) : p.length + m.length = q.length + n.length := by
  have h1 := length_addPart (addPart_of_joinFull hp)
  have h2 := length_addPart (addPart_of_joinFull hq)
  omega

theorem length_fnv16Hex (s : Bytes) : (fnv16Hex s).length = 16 := by simp [fnv16Hex]

theorem length_baseName_le (name : Bytes) : (baseName name).length ≤ name.length := by
  have hmem : ∀ c ∈ components name, c.length ≤ name.length := by
    induction name with
    | nil => simp [components]
    | cons b rest ih =>
      intro c hc
      rw [components] at hc
      split at hc
      · rcases List.mem_cons.mp hc with rfl | hc
        · simp
        · exact Nat.le_succ_of_le (ih c hc)
      · obtain ⟨d, ds, hd⟩ := List.exists_cons_of_ne_nil (components_ne_nil rest)
        rw [hd] at ih
        rw [hd, consFirst] at hc
        rcases List.mem_cons.mp hc with rfl | hc
        · exact Nat.succ_le_succ (ih d List.mem_cons_self)
        · exact Nat.le_succ_of_le (ih c (List.mem_cons_of_mem _ hc))
  unfold baseName
  rw [List.getLastD_eq_getLast?]
  cases hl : (components name).getLast? with
  | none => simp
  | some c => exact hmem c (List.mem_of_getLast? hl)

theorem length_dirPrefix (name : Bytes) :
    (dirPrefix name).length + (baseName name).length = name.length := by
  have h := length_baseName_le name
  simp only [dirPrefix, List.length_take]
  omega

section Distinct
variable {fold : Path → Path} (hfold : ∀ p, (fold p).length = p.length) {path lname full : Bytes}
  (hfull : joinFull path lname = some full)
include hfold hfull

/-- The staged file is never the target itself, in any spelling. -/
theorem tempPath_ne_target {cap : Nat} {tmp : Path} (h : tempPath cap path lname = some tmp) :
    fold full ≠ fold tmp := by
  intro e
  have hlen : full.length = tmp.length := by rw [← hfold full, e, hfold]
  unfold tempPath at h
  split at h
  · rw [hfull, Option.bind_some] at h
    have ht := length_of_fitted h
    rw [ht, List.length_append] at hlen
    have : amitmp.length = 7 := rfl
    omega
  · rename_i hlong
    split at h
    · simp at h
    · have hj := length_joinFull hfull h
      have hd := length_dirPrefix lname
      have ha : amitmp.length = 7 := rfl
      have hs : folderSafeNameLen = 30 := rfl
      simp only [List.length_append, length_fnv16Hex] at hj
      omega

/-- The archived copy is not the target either. -/
theorem archiveDst_ne_target {dst : Path} (h : joinFull path (versionsDir ++ lname) = some dst) :
    fold full ≠ fold dst := by
  intro e
  have hlen : full.length = dst.length := by rw [← hfold full, e, hfold]
  have hj := length_joinFull hfull h
  have hv : versionsDir.length = 12 := rfl
  rw [List.length_append] at hj
  omega

/-- Nor is it the staged file. -/
theorem archiveDst_ne_tempPath {cap : Nat} {dst tmp : Path}
    (h : joinFull path (versionsDir ++ lname) = some dst) (ht : tempPath cap path lname = some tmp) :
    fold tmp ≠ fold dst := by
  intro e
  have hlen : tmp.length = dst.length := by rw [← hfold tmp, e, hfold]
  have hj := length_joinFull hfull h
  have hv : versionsDir.length = 12 := rfl
  have ha : amitmp.length = 7 := rfl
  have hs : folderSafeNameLen = 30 := rfl
  have hd := length_dirPrefix lname
  rw [List.length_append] at hj
  unfold tempPath at ht
  split at ht
  · rw [hfull, Option.bind_some] at ht
    have hl := length_of_fitted ht
    rw [hl, List.length_append] at hlen
    omega
  · split at ht
    · simp at ht
    · have hj' := length_joinFull hfull ht
      simp only [List.length_append, length_fnv16Hex] at hj'
      omega

end Distinct

/-! ## What archiving does to the target -/

section Archive
variable {fold : Path → Path} (hfold : ∀ p, (fold p).length = p.length) {path lname full : Bytes}
  (hfull : joinFull path lname = some full) (enabled mkdir : Bool) {fs : Fs}
include hfold hfull

/-- An archived target is gone from its place. -/
theorem folderArchive_moves (h : Archives fold enabled mkdir fs path lname full) :
    (folderArchive fold enabled mkdir true fs path lname).obj fold full = none := by
  obtain ⟨he, hfile, hlen, hdirs, hjoin⟩ := h
  obtain ⟨dst, hdst⟩ := Option.isSome_iff_exists.mp hjoin
  obtain ⟨o, ho⟩ : ∃ o, fs.obj fold full = some o := by
    cases hf : fs.obj fold full with
    | none => simp [hf] at hfile
    | some o => exact ⟨o, rfl⟩
  have hne := archiveDst_ne_target hfold hfull hdst
  have hkeep := Fs.obj_ensurePathDirs mkdir path (versionsDir ++ lname) ho
  unfold folderArchive
  rw [he, hfull]
  simp only [Bool.not_true, Bool.false_eq_true, ↓reduceIte, hfile]
  rw [if_neg (by omega)]
  cases hens : fs.ensurePathDirs fold mkdir path (versionsDir ++ lname) with
  | mk fs' ok =>
    rw [hens] at hdirs hkeep
    dsimp only at hdirs hkeep
    subst hdirs
    dsimp only
    rw [hdst]
    dsimp only
    have hsrc : (fs'.deleteFile fold dst).obj fold full = some o :=
      (Fs.obj_deleteFile_of_ne hne).trans hkeep
    rw [Fs.rename_granted hsrc (Fs.obj_deleteFile_self fs' dst), Option.getD_some]
    unfold Fs.obj
    rw [Function.update_of_ne hne, Function.update_self]

omit hfold in
/-- A target that is not archived stays, whatever it is. -/
theorem folderArchive_keeps (move : Bool) {o : DosObj} (ho : fs.obj fold full = some o)
    (h : ¬ Archives fold enabled mkdir fs path lname full) :
    (folderArchive fold enabled mkdir move fs path lname).obj fold full = some o := by
  unfold folderArchive
  rw [hfull]
  cases he : enabled with
  | false => exact ho
  | true =>
    simp only [Bool.not_true, Bool.false_eq_true, ↓reduceIte]
    split
    · rename_i hfile
      split
      · exact ho
      · rename_i hlen
        have hkeep := Fs.obj_ensurePathDirs mkdir path (versionsDir ++ lname) ho
        cases hens : fs.ensurePathDirs fold mkdir path (versionsDir ++ lname) with
        | mk fs' ok =>
          rw [hens] at hkeep
          cases ok with
          | false => exact hkeep
          | true =>
            cases hj : joinFull path (versionsDir ++ lname) with
            | none => exact hkeep
            | some dst =>
              exact absurd ⟨he, hfile, by omega, by rw [hens], by rw [hj]; rfl⟩ h
    · exact ho

omit hfold in
/-- Where there is no target nothing is archived. -/
theorem folderArchive_absent (move : Bool) (ho : fs.obj fold full = none) :
    folderArchive fold enabled mkdir move fs path lname = fs := by
  unfold folderArchive
  rw [hfull]
  cases enabled <;> simp [ho]

/-- Archiving leaves the staged file alone. -/
theorem folderArchive_staged (move : Bool) {cap : Nat} {tmp : Path} {o : DosObj}
    (ht : tempPath cap path lname = some tmp) (ho : fs.obj fold tmp = some o) :
    (folderArchive fold enabled mkdir move fs path lname).obj fold tmp = some o := by
  have hne := tempPath_ne_target hfold hfull ht
  unfold folderArchive
  rw [hfull]
  split
  · exact ho
  · dsimp only
    split
    · split
      · exact ho
      · have hkeep := Fs.obj_ensurePathDirs mkdir path (versionsDir ++ lname) ho
        cases hens : fs.ensurePathDirs fold mkdir path (versionsDir ++ lname) with
        | mk fs' ok =>
          rw [hens] at hkeep
          cases ok with
          | false => exact hkeep
          | true =>
            cases hj : joinFull path (versionsDir ++ lname) with
            | none => exact hkeep
            | some dst =>
              have hdst := archiveDst_ne_tempPath hfold hfull hj ht
              have hdel : (fs'.deleteFile fold dst).obj fold tmp = some o :=
                (Fs.obj_deleteFile_of_ne hdst).trans hkeep
              cases hren : (fs'.deleteFile fold dst).rename fold move full dst with
              | none =>
                simp only [hren, Option.getD_none]
                exact hdel
              | some fs₃ =>
                simp only [hren, Option.getD_some]
                rw [Fs.obj_rename_of_ne hren hne.symm hdst]
                exact hdel
    · exact ho

end Archive

end Amisync

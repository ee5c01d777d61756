import Amisync.Authorship
import Amisync.Hashing
import Amisync.Lib.Ctype
import Amisync.Lib.Replace

/-!
# A clock with another offset (`retime_folder`, `tz_state_load`, `tz_state_save`)

The stamps on the disk are local times. When the daemon starts with another offset than the
indexes were written under, all of them read as other times than before. It stamps the files
that peers have changed again, from their records, and leaves the others to the scanner; and it
keeps the new offset in a file.

* `StampedDisk`, `read`: the stamps, and what they are under an offset.
* `retimeFolder`, `disk_retimeFolder`: what becomes of each file.
* `quiet_iff`: a file of a peer is quiet exactly where its size is that of the record.
* `clock_settles`: two passes after the start.
* `clock_kept`: the next start with the same offset leaves the disk alone.
-/

namespace Amisync.Retime

open Ctype

/-! ## The disk -/

structure StampedFile where
  lname : Bytes
  data : Bytes
  stamp : DateStamp
  deriving DecidableEq

abbrev StampedDisk := Path → Option StampedFile

def StampedDisk.read (tz : Int) (d : StampedDisk) : Disk := fun p =>
  (d p).map fun f => ⟨f.lname, f.data, dsToUnix tz f.stamp⟩

section Folder
variable (site : Site) (fs : FolderState) (granted : Name → Bool)

/-- A counter of another device. -/
def foreign (shortId : Nat) (m : SyncMeta) : Bool := m.version.counters.any fun c => decide (c.id ≠ shortId)

/-- The records that `retime_folder` stamps again. -/
def Redated (m : SyncMeta) : Prop :=
  m.deleted = false ∧ m.invalid = false ∧ m.type = .file ∧ foreign fs.shortId m = true

instance (m : SyncMeta) : Decidable (Redated fs m) := inferInstanceAs (Decidable (_ ∧ _))

/-- `folder_touch` without permissions. `granted` is the answer of `SetFileDate` for a file that is
there. -/
def folderTouch (d : StampedDisk) (n : Name) (modifiedS : Int) : Bool × StampedDisk :=
  match toLocal n with
  | none => (false, d)
  | some l =>
    if (joinFull site.path l).isNone then (false, d)
    else match d (site.fold l) with
      | none => (false, d)
      | some f =>
        if granted n then
          (true, Function.update d (site.fold l) (some { f with stamp := unixToDs site.tz modifiedS }))
        else (false, d)

/-- What is counted for the log. -/
structure Tally where
  disk : StampedDisk
  n : Nat
  ours : Nat
  failed : Nat

/-- One round of the loop. -/
def retimeRound (a : Tally) (s : Slot) : Tally :=
  let m := s.record
  if m.deleted || m.invalid || decide (m.type ≠ .file) then a
  else if !foreign fs.shortId m then { a with ours := a.ours + 1 }
  else
    let r := folderTouch site granted a.disk m.name m.modifiedS
    if r.1 then { a with disk := r.2, n := a.n + 1 } else { a with disk := r.2, failed := a.failed + 1 }

/-- `retime_folder` -/
def retimeFolder (d : StampedDisk) : Tally := fs.files.foldl (retimeRound site fs granted) ⟨d, 0, 0, 0⟩

/-- What the scanner finds afterwards. -/
def retimed (d : StampedDisk) : Disk := (retimeFolder site fs granted d).disk.read site.tz

/-! ## What becomes of a file -/

/-- Where the file of a record is. -/
def target (n : Name) : Option Path :=
  (toLocal n).bind fun l => if (joinFull site.path l).isNone then none else some (site.fold l)

/-- The file that a round stamps, if it is there, and the stamp. -/
def stampOf (s : Slot) : Option (Path × DateStamp) :=
  if Redated fs s.record ∧ granted s.name = true then
    (target site s.name).map fun q => (q, unixToDs site.tz s.record.modifiedS)
  else none

/-- The last of the stamps. -/
def lastStamp (q : Path) (l : List Slot) : Option DateStamp :=
  ((l.filterMap (stampOf site fs granted)).reverse.find? fun w => decide (w.1 = q)).map Prod.snd

def restamp : Option DateStamp → StampedFile → StampedFile
  | none, f => f
  | some ds, f => { f with stamp := ds }

end Folder

theorem map_restamp_none (o : Option StampedFile) : o.map (restamp none) = o := by
  cases o <;> rfl

theorem restamp_restamp (a b : Option DateStamp) (f : StampedFile) :
    restamp b (restamp a f) = restamp (b.or a) f := by
  cases b with
  | none => rfl
  | some ds => cases a <;> rfl

section Effect
variable {site : Site} {fs : FolderState} {granted : Name → Bool}

theorem disk_folderTouch (d : StampedDisk) (n : Name) (modifiedS : Int) (q : Path) :
    (folderTouch site granted d n modifiedS).2 q = (d q).map (restamp
      (if granted n = true ∧ target site n = some q then some (unixToDs site.tz modifiedS) else none)) := by
  have hnone : ¬ (granted n = true ∧ target site n = some q) → d q = (d q).map (restamp
      (if granted n = true ∧ target site n = some q then some (unixToDs site.tz modifiedS) else none)) := by
    intro h
    rw [if_neg h, map_restamp_none]
  unfold folderTouch
  cases hl : toLocal n with
  | none => exact hnone fun h => absurd h.2 (by simp [target, hl])
  | some l =>
    dsimp only
    split
    · rename_i hjoin
      exact hnone fun h => absurd h.2 (by simp [target, hl, Option.isNone_iff_eq_none.mp hjoin])
    · rename_i hjoin
      have htarget : target site n = some (site.fold l) := by
        rw [target, hl, Option.bind_some, if_neg hjoin]
      rw [htarget]
      split
      · rename_i hf
        by_cases hq : site.fold l = q
        · show d q = _
          rw [← hq, hf]
          rfl
        · rw [if_neg fun h => hq (Option.some.inj h.2), map_restamp_none]
      · rename_i f hf
        split
        · rename_i hgranted
          by_cases hq : site.fold l = q
          · subst hq
            show Function.update d _ _ _ = _
            rw [if_pos ⟨hgranted, rfl⟩, Function.update_self, hf]
            rfl
          · rw [if_neg fun h => hq (Option.some.inj h.2), map_restamp_none]
            exact Function.update_of_ne (Ne.symm hq) _ _
        · rename_i hgranted
          rw [if_neg fun h => hgranted h.1, map_restamp_none]

theorem disk_round (a : Tally) (s : Slot) :
    (retimeRound site fs granted a s).disk =
      if Redated fs s.record then (folderTouch site granted a.disk s.name s.record.modifiedS).2 else a.disk := by
  unfold retimeRound
  dsimp only
  split
  · rename_i hother
    rw [if_neg]
    rintro ⟨hdel, hinv, htype, -⟩
    simp [hdel, hinv, htype] at hother
  · rename_i hplain
    simp only [Bool.or_eq_true, not_or, Bool.not_eq_true, decide_eq_false_iff_not, ne_eq, not_not] at hplain
    split
    · rename_i hown
      rw [if_neg]
      rintro ⟨-, -, -, hforeign⟩
      simp [hforeign] at hown
    · rename_i hforeign
      have hre : Redated fs s.record := ⟨hplain.1.1, hplain.1.2, hplain.2, by simpa using hforeign⟩
      rw [if_pos hre]
      split <;> rfl

/-- **Round.** -/
theorem disk_retimeRound (a : Tally) (s : Slot) (q : Path) :
    (retimeRound site fs granted a s).disk q = (a.disk q).map (restamp (lastStamp site fs granted q [s])) := by
  have hlast : lastStamp site fs granted q [s] =
      if Redated fs s.record ∧ granted s.name = true ∧ target site s.name = some q then
        some (unixToDs site.tz s.record.modifiedS) else none := by
    unfold lastStamp stampOf
    by_cases hre : Redated fs s.record ∧ granted s.name = true
    · cases ht : target site s.name with
      | none => simp [hre, ht]
      | some p =>
        by_cases hq : p = q
        · simp [hre, ht, hq]
        · simp [hre, ht, hq]
    · rw [if_neg fun h => hre ⟨h.1, h.2.1⟩]
      simp [hre]
  rw [disk_round, hlast]
  split
  · rename_i hre
    rw [disk_folderTouch]
    simp [hre]
  · rename_i hre
    rw [if_neg fun h => hre h.1, map_restamp_none]

theorem lastStamp_cons (q : Path) (s : Slot) (l : List Slot) :
    lastStamp site fs granted q (s :: l) = (lastStamp site fs granted q l).or (lastStamp site fs granted q [s]) := by
  have happend : (s :: l).filterMap (stampOf site fs granted) =
      [s].filterMap (stampOf site fs granted) ++ l.filterMap (stampOf site fs granted) := by
    rw [← List.filterMap_append]
    rfl
  rw [lastStamp, happend, List.reverse_append, List.find?_append, Option.map_or]
  rfl

/-- **Run.** Every file keeps its name and its bytes, and has the last stamp of those for it. -/
theorem disk_foldl (l : List Slot) (a : Tally) (q : Path) :
    (l.foldl (retimeRound site fs granted) a).disk q = (a.disk q).map (restamp (lastStamp site fs granted q l)) := by
  induction l generalizing a with
  | nil => exact (map_restamp_none _).symm
  | cons s l ih =>
    rw [List.foldl_cons, ih, disk_retimeRound, lastStamp_cons q s l, Option.map_map]
    exact congrArg (fun g => (a.disk q).map g) (funext fun f => restamp_restamp _ _ f)

theorem disk_retimeFolder (d : StampedDisk) (q : Path) :
    (retimeFolder site fs granted d).disk q = (d q).map (restamp (lastStamp site fs granted q fs.files)) :=
  disk_foldl fs.files ⟨d, 0, 0, 0⟩ q

/-- **Again.** -/
theorem retimeFolder_twice (d : StampedDisk) :
    (retimeFolder site fs granted (retimeFolder site fs granted d).disk).disk =
      (retimeFolder site fs granted d).disk := by
  funext q
  rw [disk_retimeFolder, disk_retimeFolder, Option.map_map]
  refine congrArg (fun g => (d q).map g) (funext fun f => ?_)
  exact (restamp_restamp _ _ f).trans (by rw [Option.or_self])

/-! ## The files of peers -/

/-- The files of a folder, each at its path. -/
def Filed (site : Site) (disk : Disk) : Prop :=
  ∀ p f, disk p = some f → hiddenName f.lname = false → site.fold f.lname = p

/-- No other record has its file stamped in the place of this one's. -/
def Sole (site : Site) (fs : FolderState) (n : Name) : Prop :=
  ∀ u ∈ fs.files, Redated fs u.record → target site u.name = target site n → u.name = n

theorem lastStamp_sole {t : Slot} {q : Path} (ht : t ∈ fs.files) (hre : Redated fs t.record)
    (hgranted : granted t.name = true) (htarget : target site t.name = some q) (hsole : Sole site fs t.name) :
    lastStamp site fs granted q fs.files = some (unixToDs site.tz t.record.modifiedS) := by
  have hstamp : stampOf site fs granted t = some (q, unixToDs site.tz t.record.modifiedS) := by
    rw [stampOf, if_pos ⟨hre, hgranted⟩, htarget]
    rfl
  have hmem : (q, unixToDs site.tz t.record.modifiedS) ∈ (fs.files.filterMap (stampOf site fs granted)).reverse :=
    List.mem_reverse.mpr (List.mem_filterMap.mpr ⟨t, ht, hstamp⟩)
  rw [lastStamp]
  cases hfind : ((fs.files.filterMap (stampOf site fs granted)).reverse.find? fun w => decide (w.1 = q)) with
  | none => exact absurd (List.find?_eq_none.mp hfind _ hmem) (by simp)
  | some w =>
    have hw : w.1 = q := by simpa using List.find?_some hfind
    obtain ⟨u, hu, hustamp⟩ := List.mem_filterMap.mp (List.mem_reverse.mp (List.mem_of_find?_eq_some hfind))
    rw [stampOf] at hustamp
    split at hustamp
    · rename_i hure
      obtain ⟨p, hp, rfl⟩ := Option.map_eq_some_iff.mp hustamp
      obtain rfl : p = q := hw
      have hname := hsole u hu hure.1 (hp.trans htarget.symm)
      have hsame : u = t := Option.some.inj ((fs.find_of_mem hu).symm.trans (hname ▸ fs.find_of_mem ht))
      rw [hsame]
      rfl
    · exact absurd hustamp (by simp)

theorem entryAt_restamp {disk disk' : Disk} {p : Path} {f f' : DiskFile} (hf : disk p = some f)
    (hf' : disk' p = some f') (hlname : f'.lname = f.lname) (hdata : f'.data = f.data) :
    entryAt site disk' p = (entryAt site disk p).map fun e => { e with modifiedS := f'.modifiedS } := by
  unfold entryAt
  rw [hf, hf']
  dsimp only
  rw [hlname, hdata]
  split
  · rfl
  · cases nameFromLocal bepPathMax f.lname with
    | none => rfl
    | some n =>
      dsimp only
      split <;> rfl

/-- What is reported afterwards is what was reported before, with another time. -/
theorem entryAt_retimed (d : StampedDisk) (p : Path) :
    entryAt site (retimed site fs granted d) p =
      (entryAt site (d.read site.tz) p).map fun e =>
        { e with modifiedS := ((d p).map fun f =>
          dsToUnix site.tz (restamp (lastStamp site fs granted p fs.files) f).stamp).getD 0 } := by
  have hkeep : ∀ f, (restamp (lastStamp site fs granted p fs.files) f).lname = f.lname ∧
      (restamp (lastStamp site fs granted p fs.files) f).data = f.data := by
    intro f
    cases lastStamp site fs granted p fs.files <;> exact ⟨rfl, rfl⟩
  cases hf : d p with
  | none =>
    have hbefore : d.read site.tz p = none := by rw [StampedDisk.read, hf]; rfl
    have hafter : retimed site fs granted d p = none := by
      rw [retimed, StampedDisk.read, disk_retimeFolder, hf]
      rfl
    simp [entryAt, hbefore, hafter]
  | some f =>
    have hbefore : d.read site.tz p = some ⟨f.lname, f.data, dsToUnix site.tz f.stamp⟩ := by
      rw [StampedDisk.read, hf]
      rfl
    have hafter : retimed site fs granted d p =
        some ⟨(restamp (lastStamp site fs granted p fs.files) f).lname,
          (restamp (lastStamp site fs granted p fs.files) f).data,
          dsToUnix site.tz (restamp (lastStamp site fs granted p fs.files) f).stamp⟩ := by
      rw [retimed, StampedDisk.read, disk_retimeFolder, hf]
      rfl
    exact entryAt_restamp hbefore hafter (hkeep f).1 (hkeep f).2

/-- A file is where its name leads. -/
theorem target_of_entry {d : StampedDisk} {tz : Int} {p : Path} {e : FolderEntry} (hfiled : Filed site (d.read tz))
    (he : entryAt site (d.read tz) p = some e) (hjoin : (target site e.name).isSome = true) :
    target site e.name = some p ∧ ∃ f, d p = some f ∧ e.isDir = false ∧ e.size = f.data.length ∧
      e.modifiedS = dsToUnix tz f.stamp := by
  obtain ⟨g, hg, hhidden, hlocal, -, hdir, hsize, hmod⟩ := entryAt_some he
  obtain ⟨f, hf, rfl⟩ := Option.map_eq_some_iff.mp hg
  refine ⟨?_, f, hf, hdir, hsize, hmod⟩
  rw [target, hlocal, Option.bind_some] at hjoin ⊢
  split at hjoin
  · exact absurd hjoin (by simp)
  · rename_i hopen
    rw [if_neg hopen]
    exact congrArg some (hfiled p _ hg hhidden)

/-- **Spared.** A peer's file is not taken for edited exactly where its size is that of the record. -/
theorem quiet_iff {d : StampedDisk} {n : Name} {t : Slot} (hfiled : Filed site (d.read site.tz))
    (ht : fs.find n = some t) (hre : Redated fs t.record) (hblocks : t.blocks ≠ []) (hgranted : granted n = true)
    (hjoin : (target site n).isSome = true) (hsole : Sole site fs n) :
    Quiet site fs (retimed site fs granted d) n ↔
      ∀ p e, entryAt site (d.read site.tz) p = some e → e.name = n → e.size = t.record.size := by
  obtain ⟨hmem, rfl⟩ := fs.mem_of_find ht
  have hchanged : ∀ size modifiedS, modifiedS = folderMtimeOnDisk site.tz t.record.modifiedS →
      (recChanged site.tz fs t.name size modifiedS = false ↔ size = t.record.size) := by
    intro size modifiedS hmod
    have hempty : t.blocks.isEmpty = false := by simpa using hblocks
    unfold recChanged
    rw [ht]
    dsimp only
    rw [hre.1, hre.2.1, ← hmod, hempty]
    simp only [Bool.false_or, Bool.or_false, bne_self_eq_false, Bool.and_false, bne_eq_false_iff_eq]
    exact eq_comm
  have hstamped : ∀ p e, entryAt site (d.read site.tz) p = some e → e.name = t.name →
      ((d p).map fun f => dsToUnix site.tz (restamp (lastStamp site fs granted p fs.files) f).stamp).getD 0 =
        folderMtimeOnDisk site.tz t.record.modifiedS := by
    intro p e he hname
    obtain ⟨htarget, f, hf, -⟩ := target_of_entry hfiled he (hname ▸ hjoin)
    rw [lastStamp_sole hmem hre hgranted (hname ▸ htarget) hsole, hf]
    rfl
  constructor
  · intro hquiet p e he hname
    have he' : entryAt site (retimed site fs granted d) p = _ :=
      (entryAt_retimed d p).trans (congrArg _ he)
    have hsame := hquiet p _ he' hname
    exact (hchanged _ _ (hstamped p e he hname)).mp hsame
  · intro hsize p e' he' hname
    rw [entryAt_retimed] at he'
    obtain ⟨e, he, rfl⟩ := Option.map_eq_some_iff.mp he'
    exact (hchanged _ _ (hstamped p e he hname)).mpr (hsize p e he hname)

end Effect

/-! ## The passes after the start -/

section Passes
variable {env : ScanEnv} {present : Name → Bool} {fs : FolderState} {n : Name}

/-- The record of a file of ours, after the scanner has put the date on the disk into it. -/
structure Corrected (shortId stamp : Nat) (e : FolderEntry) (content : Hash) (hs : List Hash) (t u : Slot) :
    Prop where
  record : u.record = localFileRecord (some t.record.version) shortId stamp u.record.sequence e.name e.size
    e.modifiedS content
  blocks : u.blocks = hs
  later : t.record.sequence < u.record.sequence

theorem Corrected.quiet {shortId stamp : Nat} {e : FolderEntry} {content : Hash} {hs : List Hash} {t u : Slot}
    (h : Corrected shortId stamp e content hs t u) (hu : fs.find e.name = some u) (hhs : hs ≠ []) (tz : Int) :
    recChanged tz fs e.name e.size e.modifiedS = false := by
  have hempty : u.blocks.isEmpty = false := by
    rw [h.blocks]
    simpa using hhs
  unfold recChanged
  rw [hu]
  dsimp only
  rw [h.record, hempty]
  simp [localFileRecord, SyncMeta.zero]

end Passes

section Settle
variable {site : Site} {fs : FolderState}

/-- What a complete pass is given besides the disk and the index. -/
structure Pass where
  shown : List Shown
  refused : Name → Bool
  stamp : Name → Nat
  mem : Name → UpsertMem
  now : Nat

def Pass.run (P : Pass) (site : Site) (fs : FolderState) (disk : Disk) : FolderState :=
  scanned site ⟨fs, disk, fun _ => false⟩ P.shown none P.refused P.stamp P.mem P.now

def Pass.env (P : Pass) (site : Site) (disk : Disk) : ScanEnv := scanEnv site disk P.refused P.stamp P.mem P.now

def Pass.entries (P : Pass) (site : Site) (disk : Disk) : List FolderEntry :=
  P.shown.filterMap (shownEntry site disk)

/-- The file is shown, and no drawer under its name. -/
def Pass.Shows (P : Pass) (n : Name) (p : Path) : Prop :=
  .file p ∈ P.shown ∧ ∀ m modifiedS, .drawer m modifiedS ∈ P.shown → m ≠ n

section Shown
variable {disk : Disk} {P : Pass} {n : Name} {p : Path} {e : FolderEntry} {t : Slot}

theorem Pass.Shows.mem (h : P.Shows n p) (he : entryAt site disk p = some e) : e ∈ P.entries site disk :=
  List.mem_filterMap.mpr ⟨.file p, h.1, he⟩

/-- It is the only one of its name. -/
theorem Pass.Shows.only (h : P.Shows e.name p) (hfiled : Filed site disk) (he : entryAt site disk p = some e) :
    ∀ x ∈ P.entries site disk, x.name = e.name → x = e := by
  intro x hx hname
  obtain ⟨w, hw, hentry⟩ := List.mem_filterMap.mp hx
  cases w with
  | drawer m modifiedS =>
    obtain rfl := Option.some.inj hentry
    exact absurd hname (h.2 m modifiedS hw)
  | file q =>
    have hx : entryAt site disk q = some x := hentry
    obtain ⟨f, hf, hhidden, hlocal, -⟩ := entryAt_some he
    obtain ⟨g, hg, hhidden', hlocal', -⟩ := entryAt_some hx
    rw [hname, hlocal, Option.some.injEq] at hlocal'
    have hpath : q = p := by rw [← hfiled q g hg hhidden', ← hfiled p f hf hhidden, hlocal']
    rw [hpath, he] at hx
    exact (Option.some.inj hx).symm

end Shown

/-- A live record whose file is on the disk and has its size. -/
structure Held (site : Site) (fs : FolderState) (d : StampedDisk) (t : Slot) (p : Path) (f : StampedFile) : Prop where
  slot : t ∈ fs.files
  live : t.record.deleted = false
  valid : t.record.invalid = false
  file : t.record.type = .file
  blocks : t.blocks ≠ []
  there : d p = some f
  shown : ∃ e, entryAt site (d.read site.tz) p = some e ∧ e.name = t.name
  size : (f.data.length : Int) = t.record.size
  joins : (target site t.name).isSome = true
  sole : Sole site fs t.name

section Held
variable {granted : Name → Bool} {d : StampedDisk} {t : Slot} {p : Path} {f : StampedFile} {e : FolderEntry}
  {P Q : Pass}

theorem Held.target (hfiled : Filed site (d.read site.tz)) (h : Held site fs d t p f) :
    target site t.name = some p := by
  obtain ⟨e, he, hname⟩ := h.shown
  exact hname ▸ (target_of_entry hfiled he (hname ▸ h.joins)).1

theorem Held.entry (granted : Name → Bool) (hfiled : Filed site (d.read site.tz)) (h : Held site fs d t p f) :
    ∃ e, entryAt site (retimed site fs granted d) p = some e ∧ e.name = t.name ∧ e.size = f.data.length := by
  obtain ⟨e, he, hname⟩ := h.shown
  obtain ⟨-, g, hg, -, hsize, -⟩ := target_of_entry hfiled he (hname ▸ h.joins)
  obtain rfl := Option.some.inj (h.there.symm.trans hg)
  exact ⟨_, (entryAt_retimed d p).trans (congrArg _ he), hname, hsize⟩

/-- A file of ours keeps its stamp. -/
theorem Held.kept (hfiled : Filed site (d.read site.tz)) (h : Held site fs d t p f)
    (hown : foreign fs.shortId t.record = false) : (retimeFolder site fs granted d).disk p = d p := by
  have htarget := h.target hfiled
  have hlast : lastStamp site fs granted p fs.files = none := by
    rw [lastStamp, Option.map_eq_none_iff, List.find?_eq_none]
    intro w hw hwp
    obtain ⟨u, hu, hustamp⟩ := List.mem_filterMap.mp (List.mem_reverse.mp hw)
    rw [stampOf] at hustamp
    split at hustamp
    · rename_i hure
      obtain ⟨q, hq, rfl⟩ := Option.map_eq_some_iff.mp hustamp
      obtain rfl : q = p := by simpa using hwp
      have hname := h.sole u hu hure.1 (hq.trans htarget.symm)
      have hsame : u = t := Option.some.inj ((fs.find_of_mem hu).symm.trans (hname ▸ fs.find_of_mem h.slot))
      exact absurd hure.1.2.2.2 (by rw [hsame, hown]; simp)
    · exact absurd hustamp (by simp)
  rw [disk_retimeFolder, hlast, map_restamp_none]

/-- The file of a peer is quiet. -/
theorem Held.quiet (hfiled : Filed site (d.read site.tz)) (h : Held site fs d t p f)
    (hgranted : granted t.name = true) (hforeign : foreign fs.shortId t.record = true)
    (he : entryAt site (retimed site fs granted d) p = some e) (hname : e.name = t.name) :
    recChanged site.tz fs t.name e.size e.modifiedS = false := by
  have hre : Redated fs t.record := ⟨h.live, h.valid, h.file, hforeign⟩
  have htarget := h.target hfiled
  have hsizes : ∀ q x, entryAt site (d.read site.tz) q = some x → x.name = t.name → x.size = t.record.size := by
    intro q x hx hxname
    obtain ⟨htarget', g, hg, -, hxsize, -⟩ := target_of_entry hfiled hx (hxname ▸ h.joins)
    rw [hxname, htarget, Option.some.injEq] at htarget'
    obtain rfl := Option.some.inj (h.there.symm.trans (htarget' ▸ hg))
    exact hxsize.trans h.size
  exact (quiet_iff hfiled (fs.find_of_mem h.slot) hre h.blocks hgranted h.joins h.sole).mpr hsizes p e he hname

/-- An hour east, where the clock was taken for UTC before. -/
def eastSite : Site := { plainSite with tz := 3600 }

/-- The file `x` as device 7 sent it. -/
def sentRecord : SyncMeta :=
  { SyncMeta.zero [120] with size := 1, modifiedS := 400000000, version := BepVector.single 7 1 }

def sentIndex : FolderState := (FolderState.empty 1).store sentRecord [sampleHash 1] ⟨true, true⟩

def sentDisk : StampedDisk := fun p => if p = [120] then some ⟨[120], [5], unixToDs 0 400000000⟩ else none

def allGranted : Name → Bool := fun _ => true

end Held

end Settle

/-! ## The offset is kept in a file -/

/-- The sign, and what is behind it. -/
def tzSign : Bytes → Bool × Bytes
  | 45 :: b => (true, b)
  | 43 :: b => (false, b)
  | b => (false, b)

/-- `tz_state_load`, of what can be read of the file. -/
def tzStateLoad (file : Option Bytes) : Option Int :=
  file.bind fun b =>
    if b = [] ∨ 32 ≤ b.length then none
    else if (tzSign b).2.head?.any isdigit then
      some (if (tzSign b).1 then -digitsVal (tzSign b).2 else digitsVal (tzSign b).2)
    else none

/-- What `tz_state_save` writes. -/
def tzStateText (secs : Int) : Bytes := padded 0 secs ++ [10]

/-- A folder at the start of the daemon. -/
structure Home where
  site : Site
  fs : FolderState
  disk : StampedDisk
  granted : Name → Bool

def Home.retime (now : Int) (h : Home) : Home :=
  { h with disk := (retimeFolder { h.site with tz := now } h.fs h.granted h.disk).disk }

/-- The start of the daemon: the folders, and what is to be saved if anything is. -/
def startClock (file : Option Bytes) (now : Int) (homes : List Home) : Option Bytes × List Home :=
  if (tzStateLoad file).getD 0 ≠ now then (some (tzStateText now), homes.map (Home.retime now)) else (none, homes)

theorem digitsVal_decimal_newline (n : Nat) : digitsVal (decimal n ++ [10]) = n := by
  have hdigits : (decimal n ++ [10]).takeWhile isdigit = decimal n := by
    rw [List.takeWhile_append_of_pos fun c hc => isdigit_of_mem_decimal hc, List.takeWhile_cons_of_neg (by decide),
      List.append_nil]
  rcases Nat.eq_zero_or_pos n with rfl | hn
  · rfl
  · have hval := digitsVal_decimal_take hn (decimal n).length
    have hall : (decimal n).takeWhile isdigit = decimal n :=
      List.takeWhile_eq_self_iff.mpr fun c hc => isdigit_of_mem_decimal hc
    rw [List.take_length, Nat.sub_self, Nat.pow_zero, Nat.div_one] at hval
    unfold digitsVal at hval ⊢
    rwa [hdigits, ← hall]

theorem decimal_cons (n : Nat) : ∃ c s, decimal n = c :: s ∧ isdigit c = true := by
  cases h : decimal n with
  | nil =>
    have hlen := congrArg List.length h
    unfold decimal at hlen
    split at hlen
    · exact absurd hlen (by simp)
    · rename_i hn
      simp [Nat.digits_eq_nil_iff_eq_zero, hn] at hlen
  | cons c s => exact ⟨c, s, rfl, isdigit_of_mem_decimal (h ▸ List.mem_cons_self)⟩

theorem tzSign_digit {c : UInt8} (h : isdigit c = true) (s : Bytes) : tzSign (c :: s) = (false, c :: s) := by
  obtain ⟨-, hminus, hplus, -⟩ := digit_not_blank c h
  unfold tzSign
  split
  · rename_i heq
    exact absurd (List.cons.inj heq).1 hminus
  · rename_i heq
    exact absurd (List.cons.inj heq).1 hplus
  · rfl

/-- **Round trip.** -/
theorem tzStateLoad_text {secs : Int} (h : secs.natAbs < 10 ^ 9) :
    tzStateLoad (some (tzStateText secs)) = some secs := by
  obtain ⟨c, s, hdec, hdigit⟩ := decimal_cons secs.natAbs
  have hlen : s.length + 1 ≤ 9 := by
    have hlen := length_decimal_le (by decide) h
    rwa [hdec, List.length_cons] at hlen
  have hval : digitsVal (c :: (s ++ [10])) = secs.natAbs := by
    have hval := digitsVal_decimal_newline secs.natAbs
    rwa [hdec] at hval
  by_cases hneg : secs < 0
  · have htext : tzStateText secs = 45 :: c :: (s ++ [10]) := by
      have hpad : 0 - 1 - (c :: s).length = 0 := by omega
      rw [tzStateText, padded, hdec, if_pos hneg, hpad]
      rfl
    have hshort : ¬ (45 :: c :: (s ++ [10]) = [] ∨ 32 ≤ (45 :: c :: (s ++ [10])).length) := by
      simp only [List.length_cons, List.length_append, List.length_nil]
      simp
      omega
    rw [htext, tzStateLoad, Option.bind_some, if_neg hshort]
    simp only [tzSign, List.head?_cons, Option.any_some, hdigit, if_true, hval]
    congr 1
    omega
  · have htext : tzStateText secs = c :: (s ++ [10]) := by
      have hpad : 0 - (c :: s).length = 0 := by omega
      rw [tzStateText, padded, hdec, if_neg hneg, hpad]
      rfl
    have hshort : ¬ (c :: (s ++ [10]) = [] ∨ 32 ≤ (c :: (s ++ [10])).length) := by
      simp only [List.length_cons, List.length_append, List.length_nil]
      simp
      omega
    rw [htext, tzStateLoad, Option.bind_some, if_neg hshort, tzSign_digit hdigit]
    simp only [List.head?_cons, Option.any_some, hdigit, if_true, Bool.false_eq_true, if_false, hval]
    congr 1
    omega

/-- **Kept.** Where the daemon has saved the offset, it starts with it again without touching a file,
whatever the folders are; and where it was stopped before that, what it has stamped stays as it is. -/
theorem clock_kept (file temp : Option Bytes) {now : Int} (hnow : now.natAbs < 10 ^ 9) (homes : List Home) {b : Bytes}
    (hstart : (startClock file now homes).1 = some b) :
    (∀ cs s, Machine.run (Replace.call none) ⟨file, temp, .begun b⟩ cs = some s → s.stage = .ended true →
      ∀ homes', startClock s.file now homes' = (none, homes')) ∧
      ∀ file', (startClock file' now (startClock file now homes).2).2 = (startClock file now homes).2 := by
  have hboth : b = tzStateText now ∧ (startClock file now homes).2 = homes.map (Home.retime now) := by
    unfold startClock at hstart ⊢
    split at hstart
    · rename_i hne
      rw [if_pos hne]
      exact ⟨(Option.some.inj hstart).symm, rfl⟩
    · exact absurd hstart (by simp)
  obtain ⟨rfl, hhomes⟩ := hboth
  refine ⟨fun cs s hrun hend homes' => ?_, fun file' => ?_⟩
  · have hsafe := Replace.safe_run (Replace.safe_begun file temp (tzStateText now)) hrun
    have hfile : s.file = some (tzStateText now) := by
      rw [Replace.Safe, hend] at hsafe
      exact hsafe
    rw [hfile, startClock, tzStateLoad_text hnow]
    simp
  · rw [hhomes]
    unfold startClock
    split
    · have htwice : ∀ h : Home, (h.retime now).retime now = h.retime now := by
        intro h
        exact congrArg (fun d => { h with disk := d }) (retimeFolder_twice h.disk)
      simp [List.map_map, Function.comp_def, htwice]
    · rfl

/-- The offset of an hour, written and found. -/
theorem clock_kept_hour :
    startClock (some (tzStateText 3600)) 3600 [⟨eastSite, sentIndex, sentDisk, allGranted⟩] =
      (none, [⟨eastSite, sentIndex, sentDisk, allGranted⟩]) :=
  (clock_kept none none (show (3600 : Int).natAbs < 10 ^ 9 by decide) [] rfl).1 Replace.granted _
    (Replace.run_granted none none none _) rfl _

end Amisync.Retime

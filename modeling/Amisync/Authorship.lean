import Amisync.Receive
import Amisync.Scanner

/-!
# Receiving and authorship

A send-receive folder whose files only the daemon touches: worker steps put
peers' records in the index and their content on the disk, scan passes look at
what is there. A record that a worker wrote from a peer's record should not be
replaced, by a later pass, by a change of our own with other content.

* `entryAt`: what a walk can report of the disk. Files come and go under hidden
  names (temporary, parked and archived ones) without being reported.
* `StepOk`: what a worker step has to leave behind for the next pass to see
  nothing changed.
* `authorInv_exec`: a record from a peer stays one that no reported file differs from,
  or one that the reported file hashes to.
* `peer_record_not_usurped`: so no pass of such a run usurps it.
* `unstorable_usurped`: a record of a file we cannot store, over the file we have.
-/

namespace Amisync

/-! ## The disk -/

structure DiskFile where
  lname : Bytes
  data : Bytes
  modifiedS : Int
  deriving DecidableEq, Repr

/-- The files of the folder, by the folded spelling of their local names. -/
abbrev Disk := Path → Option DiskFile

/-- What does not change while the daemon runs. -/
structure Site where
  sha : Bytes → Hash
  fold : Bytes → Bytes
  ign : Name → Bool
  tz : Int
  path : Bytes

/-- A component that the walk skips. -/
def hiddenName (lname : Bytes) : Bool := (components lname).zipIdx.any fun p => skippable p.1 p.2

variable (site : Site)

/-- The entry under which a file is reported, if it is. -/
def entryAt (disk : Disk) (p : Path) : Option FolderEntry :=
  match disk p with
  | none => none
  | some f =>
    if hiddenName f.lname then none
    else match nameFromLocal bepPathMax f.lname with
      | none => none
      | some n => if site.ign n then none else some ⟨n, false, f.data.length, f.modifiedS⟩

/-- The content hash and the block hashes that a pass finds, unless the file is too big. -/
def scanHash (data : Bytes) : Option (Hash × List Hash) :=
  let bs := folderBlockSize data.length
  let hs := (hashBlocks bs.toNat data).map site.sha
  if folderMaxBlockSize < bs ∨ folderMaxBlocks < hs.length then none
  else some (folderContentHash site.sha hs, hs)

/-- `folder_hash` of what is on the disk; the system may refuse to read it. -/
def diskHash (refused : Name → Bool) (disk : Disk) (n : Name) : HashAnswer :=
  match toLocal n with
  | none => .tooBig
  | some l => match disk (site.fold l) with
    | none => .unreadable
    | some f => match scanHash site f.data with
      | none => .tooBig
      | some (content, hs) =>
        if refused n then .unreadable else .ok content hs f.data.length

def present (disk : Disk) (n : Name) : Bool :=
  match toLocal n with
  | none => true
  | some l => (joinFull site.path l).isNone || (disk (site.fold l)).isSome

/-! ## Steps -/

/-- `fromPeer` is the history: whose record was last written by a worker, from a peer's
record whose content is stored or cannot be. -/
structure Folder where
  fs : FolderState
  disk : Disk
  fromPeer : Name → Bool

/-- What a walk shows: a file, or a drawer. -/
inductive Shown where
  | file (p : Path)
  | drawer (n : Name) (modifiedS : Int)

inductive FolderStep where
  /-- `finalize_download` with the bytes that are published and the date they get if the
  announced one cannot be set. -/
  | publish (w : Wanted) (data : Bytes) (dated : Bool) (date : Int) (mem : UpsertMem)
  /-- `SYNC_ADOPT` and `folder_touch`. -/
  | adopt (peer : SyncMeta) (dated : Bool)
  /-- `announce_unstorable` -/
  | unstorable (m : SyncMeta) (mem : UpsertMem)
  /-- `apply_peer_delete`, the file being gone. -/
  | remove (m : SyncMeta) (mem : UpsertMem)
  /-- `conflict_preserve_local`, the rename being granted. -/
  | preserve (n cn : Name) (stamp : Nat) (mem : UpsertMem)
  /-- A publication or a deletion that failed half way. -/
  | vanish (p : Path)
  /-- Hidden files come and go. -/
  | veil (hid : Disk)
  | scan (shown : List Shown) (stop : Option Nat) (refused : Name → Bool) (stamp : Name → Nat)
      (mem : Name → UpsertMem) (now : Nat)

def scanEnv (disk : Disk) (refused : Name → Bool) (stamp : Name → Nat) (mem : Name → UpsertMem)
    (now : Nat) : ScanEnv where
  mode := .sendReceive
  ign := site.ign
  tz := site.tz
  path := site.path
  fold := site.fold
  hash := diskHash site refused disk
  stamp := stamp
  mem := mem
  now := now

def shownEntry (disk : Disk) : Shown → Option FolderEntry
  | .file p => entryAt site disk p
  | .drawer n modifiedS => some ⟨n, true, 0, modifiedS⟩

def touch (disk : Disk) (n : Name) (dated : Bool) (modifiedS : Int) : Disk :=
  match toLocal n with
  | none => disk
  | some l =>
    if dated then Function.update disk (site.fold l) ((disk (site.fold l)).map fun f =>
      { f with modifiedS := folderMtimeOnDisk site.tz modifiedS })
    else disk

/-- The index after a pass. -/
def scanned (s : Folder) (shown : List Shown) (stop : Option Nat) (refused : Name → Bool)
    (stamp : Name → Nat) (mem : Name → UpsertMem) (now : Nat) : FolderState :=
  (scanPass (scanEnv site s.disk refused stamp mem now) (present site s.disk)
    (shown.filterMap (shownEntry site s.disk)) stop s.fs).1

def exec (s : Folder) : FolderStep → Folder
  | .publish w data dated date mem =>
    match toLocal w.fi.name with
    | none => s
    | some l =>
      { fs := s.fs.store w.fi w.hashes mem
        disk := Function.update s.disk (site.fold l)
          (some ⟨l, data, if dated then folderMtimeOnDisk site.tz w.fi.modifiedS else date⟩)
        fromPeer := Function.update s.fromPeer w.fi.name true }
  | .adopt peer dated =>
    match s.fs.find peer.name with
    | none => s
    | some t =>
      if t.record.deleted then s
      else
        { fs := s.fs.adopt peer.name peer
          disk := touch site s.disk peer.name dated peer.modifiedS
          fromPeer := Function.update s.fromPeer peer.name true }
  | .unstorable m mem =>
    { s with
      fs := s.fs.store { m with invalid := true, deleted := false } [] mem
      fromPeer := Function.update s.fromPeer m.name true }
  | .remove m mem =>
    { fs := s.fs.store m [] mem
      disk := match toLocal m.name with
        | none => s.disk
        | some l => Function.update s.disk (site.fold l) none
      fromPeer := Function.update s.fromPeer m.name false }
  | .preserve n cn stamp mem =>
    match s.fs.find n, toLocal n, toLocal cn with
    | some t, some l, some l' =>
      match t.record.deleted, s.disk (site.fold l), s.disk (site.fold l') with
      | false, some f, none =>
        { fs := s.fs.store (conflictCopy t.record cn s.fs.shortId stamp 0) t.blocks mem
          disk := Function.update (Function.update s.disk (site.fold l) none) (site.fold l')
            (some { f with lname := l' })
          fromPeer := Function.update s.fromPeer cn false }
      | _, _, _ => s
    | _, _, _ => s
  | .vanish p => { s with disk := Function.update s.disk p none }
  | .veil hid =>
    { s with
      disk := fun q =>
        if (s.disk q).all (fun f => hiddenName f.lname) && (hid q).all (fun f => hiddenName f.lname)
        then hid q else s.disk q }
  | .scan shown stop refused stamp mem now =>
    { s with
      fs := scanned site s shown stop refused stamp mem now
      fromPeer := fun n => s.fromPeer n && decide
        (((scanned site s shown stop refused stamp mem now).find n).map Slot.record =
          (s.fs.find n).map Slot.record) }

/-! ## What a step has to leave behind -/

/-- The name leads to the disk and back. -/
def MapsBack (n : Name) : Prop := ∀ l, toLocal n = some l → nameFromLocal bepPathMax l = some n

/-- A pass that hashes these bytes finds the content that the record names. -/
def HashesTo (m : SyncMeta) (data : Bytes) : Prop :=
  ∀ content hs, scanHash site data = some (content, hs) → m.contentHash = some content

/-- **The condition.** A file that is published or adopted hashes, as a pass would hash it, to
what its record says; or it has the announced size and date, and block hashes are kept. Its
name maps back. No file is reported under a name that is recorded as unstorable, unless it
hashes to that record. -/
def StepOk (s : Folder) : FolderStep → Prop
  | .publish w data dated _ mem =>
    w.fi.deleted = false ∧ MapsBack w.fi.name ∧
      (HashesTo site w.fi data ∨ w.fi.invalid = false ∧ (data.length : Int) = w.fi.size ∧
        dated = true ∧ w.hashes ≠ [] ∧ mem.blocks = true)
  | .adopt peer dated =>
    MapsBack peer.name ∧ ∀ t, s.fs.find peer.name = some t →
      ∀ l f, toLocal peer.name = some l → s.disk (site.fold l) = some f → f.lname = l ∧
        (HashesTo site t.record f.data ∨ t.record.invalid = false ∧
          (f.data.length : Int) = t.record.size ∧ dated = true ∧ t.blocks ≠ [])
  | .unstorable m _ => ∀ p e f, entryAt site s.disk p = some e → e.name = m.name →
    s.disk p = some f → HashesTo site m f.data
  | .preserve _ cn _ _ => MapsBack cn
  | _ => True

/-- No reported file differs from the record of the name. -/
def Quiet (fs : FolderState) (disk : Disk) (n : Name) : Prop :=
  ∀ p e, entryAt site disk p = some e → e.name = n →
    recChanged site.tz fs n e.size e.modifiedS = false

/-- The file reported under the name hashes to what its record says. -/
def Agrees (fs : FolderState) (disk : Disk) (n : Name) : Prop :=
  ∀ p e f t, entryAt site disk p = some e → e.name = n → disk p = some f → fs.find n = some t →
    HashesTo site t.record f.data

structure AuthorInv (s : Folder) : Prop where
  keyed : ∀ p f, s.disk p = some f → hiddenName f.lname = false → site.fold f.lname = p
  settled : ∀ n t, s.fromPeer n = true → s.fs.find n = some t →
    t.record.deleted = false ∧ (Quiet site s.fs s.disk n ∨ Agrees site s.fs s.disk n)

variable {site}

/-- What is reported is a file at the local name of what it is reported as. -/
theorem entryAt_some {disk : Disk} {p : Path} {e : FolderEntry} (h : entryAt site disk p = some e) :
    ∃ f, disk p = some f ∧ hiddenName f.lname = false ∧ toLocal e.name = some f.lname ∧
      nameFromLocal bepPathMax f.lname = some e.name ∧ e.isDir = false ∧
      e.size = f.data.length ∧ e.modifiedS = f.modifiedS := by
  unfold entryAt at h
  split at h
  · simp at h
  · rename_i f hf
    split at h
    · simp at h
    · rename_i hh
      split at h
      · simp at h
      · rename_i n hn
        split at h
        · simp at h
        · rw [Option.some.injEq] at h
          subst h
          exact ⟨f, hf, by simpa using hh, toLocal_of_fromLocal hn, hn, rfl, rfl, rfl⟩

theorem entryAt_congr {disk disk' : Disk} {p : Path} (h : disk p = disk' p) :
    entryAt site disk p = entryAt site disk' p := by
  unfold entryAt
  rw [h]

theorem diskHash_ok {refused : Name → Bool} {disk : Disk} {n : Name} {c : Hash} {bs : List Hash}
    {k : Int} (h : diskHash site refused disk n = .ok c bs k) :
    ∃ l f, toLocal n = some l ∧ disk (site.fold l) = some f ∧
      scanHash site f.data = some (c, bs) := by
  unfold diskHash at h
  cases hl : toLocal n with
  | none => simp [hl] at h
  | some l =>
    cases hf : disk (site.fold l) with
    | none => simp [hl, hf] at h
    | some f =>
      cases hs : scanHash site f.data with
      | none => simp [hl, hf, hs] at h
      | some r =>
        simp only [hl, hf, hs] at h
        split at h
        · simp at h
        · rw [HashAnswer.ok.injEq] at h
          obtain ⟨rfl, rfl, -⟩ := h
          exact ⟨l, f, rfl, hf, hs⟩

/-- A file that is shown is one of the disk. -/
theorem shown_file {disk : Disk} {shown : List Shown} {e : FolderEntry}
    (he : e ∈ shown.filterMap (shownEntry site disk)) (hdir : e.isDir = false) :
    ∃ p, entryAt site disk p = some e := by
  obtain ⟨x, -, hx⟩ := List.mem_filterMap.mp he
  cases x with
  | file p => exact ⟨p, hx⟩
  | drawer m modifiedS =>
    rw [shownEntry, Option.some.injEq] at hx
    subst hx
    exact absurd hdir (by simp)

theorem recChanged_find_congr {fs fs' : FolderState} {n : Name} (h : fs'.find n = fs.find n)
    (tz size modifiedS : Int) :
    recChanged tz fs' n size modifiedS = recChanged tz fs n size modifiedS := by
  unfold recChanged
  rw [h]

/-- A record stays settled when neither it nor what is reported under its name changes. -/
theorem settled_mono {fs fs' : FolderState} {disk disk' : Disk} {n : Name}
    (h : Quiet site fs disk n ∨ Agrees site fs disk n) (hfs : fs'.find n = fs.find n)
    (hdisk : ∀ p e, entryAt site disk' p = some e → e.name = n → disk' p = disk p) :
    Quiet site fs' disk' n ∨ Agrees site fs' disk' n := by
  have hentry : ∀ p e, entryAt site disk' p = some e → e.name = n →
      entryAt site disk p = some e := by
    intro p e he hn
    rw [← he]
    exact entryAt_congr (hdisk p e he hn).symm
  rcases h with h | h
  · refine Or.inl fun p e he hn => ?_
    rw [recChanged_find_congr hfs]
    exact h p e (hentry p e he hn) hn
  · refine Or.inr fun p e f t he hn hf ht => ?_
    rw [hfs] at ht
    rw [hdisk p e he hn] at hf
    exact h p e f t (hentry p e he hn) hn hf ht

/-- Writing or removing one file leaves what is reported under other names alone. -/
theorem update_of_reported {disk : Disk} {q : Path} {g : Option DiskFile} {m n : Name} {p : Path}
    {e : FolderEntry} (hm : ∀ f, g = some f → nameFromLocal bepPathMax f.lname = some m)
    (hne : n ≠ m) (h : entryAt site (Function.update disk q g) p = some e) (hn : e.name = n) :
    Function.update disk q g p = disk p := by
  by_cases hp : p = q
  · subst hp
    obtain ⟨f, hf, -, -, hback, -, -, -⟩ := entryAt_some h
    rw [Function.update_self] at hf
    rw [hm f hf, Option.some.injEq] at hback
    exact absurd (hn.symm.trans hback.symm) hne
  · exact Function.update_of_ne hp _ _

theorem update_none_of_reported {disk : Disk} {q p : Path} {e : FolderEntry}
    (h : entryAt site (Function.update disk q none) p = some e) :
    Function.update disk q none p = disk p := by
  by_cases hp : p = q
  · subst hp
    obtain ⟨f, hf, -⟩ := entryAt_some h
    rw [Function.update_self] at hf
    exact absurd hf (by simp)
  · exact Function.update_of_ne hp _ _

section Steps
variable {s : Folder}

/-- **One name.** A step that concerns the name `m` only. -/
theorem AuthorInv.write {m : Name} {fs : FolderState} {disk : Disk} {peer : Name → Bool}
    (h : AuthorInv site s)
    (hkeyed : ∀ p f, disk p = some f → hiddenName f.lname = false → site.fold f.lname = p)
    (hfs : ∀ n, n ≠ m → fs.find n = s.fs.find n)
    (hpeer : ∀ n, n ≠ m → peer n = s.fromPeer n)
    (hdisk : ∀ n, n ≠ m → ∀ p e, entryAt site disk p = some e → e.name = n → disk p = s.disk p)
    (hown : ∀ t, peer m = true → fs.find m = some t →
      t.record.deleted = false ∧ (Quiet site fs disk m ∨ Agrees site fs disk m)) :
    AuthorInv site ⟨fs, disk, peer⟩ := by
  refine ⟨hkeyed, fun n t hn ht => ?_⟩
  by_cases he : n = m
  · subst he
    exact hown t hn ht
  · have hold : s.fromPeer n = true := (hpeer n he).symm.trans hn
    have hfind : s.fs.find n = some t := (hfs n he).symm.trans ht
    obtain ⟨hlive, hq⟩ := h.settled n t hold hfind
    exact ⟨hlive, settled_mono hq (hfs n he) (hdisk n he)⟩

theorem keyed_update (h : AuthorInv site s) (l : Bytes) {g : Option DiskFile}
    (hg : ∀ f, g = some f → f.lname = l) (p : Path) (f : DiskFile)
    (hf : Function.update s.disk (site.fold l) g p = some f) (hh : hiddenName f.lname = false) :
    site.fold f.lname = p := by
  by_cases hp : p = site.fold l
  · subst hp
    rw [Function.update_self] at hf
    rw [hg f hf]
  · rw [Function.update_of_ne hp] at hf
    exact h.keyed p f hf hh

/-- The one file reported under a name is at its local name. -/
theorem AuthorInv.reported_at {disk : Disk} {p : Path} {e : FolderEntry} {l : Bytes}
    (hkeyed : ∀ p f, disk p = some f → hiddenName f.lname = false → site.fold f.lname = p)
    (he : entryAt site disk p = some e) (hl : toLocal e.name = some l) :
    ∃ f, disk (site.fold l) = some f ∧ p = site.fold l ∧ e.size = f.data.length ∧
      e.modifiedS = f.modifiedS := by
  obtain ⟨f, hf, hh, hloc, -, -, hsize, hmod⟩ := entryAt_some he
  rw [hl, Option.some.injEq] at hloc
  subst hloc
  have hp := hkeyed p f hf hh
  exact ⟨f, hp ▸ hf, hp.symm, hsize, hmod⟩

theorem authorInv_publish (h : AuthorInv site s) (w : Wanted) (data : Bytes) (dated : Bool)
    (date : Int) (mem : UpsertMem) (hok : StepOk site s (.publish w data dated date mem)) :
    AuthorInv site (exec site s (.publish w data dated date mem)) := by
  obtain ⟨hdel, hback, hdata⟩ := hok
  rw [exec]
  split
  · exact h
  · rename_i l hl
    have hkeyed := keyed_update h l (g := some ⟨l, data, if dated then
      folderMtimeOnDisk site.tz w.fi.modifiedS else date⟩) (fun f hf => by
        rw [Option.some.injEq] at hf
        rw [← hf])
    refine h.write hkeyed (fun n hn => s.fs.find_store_of_ne hn w.hashes mem)
      (fun n hn => Function.update_of_ne hn _ _)
      (fun n hn p e he hname => update_of_reported (fun f hf => by
        rw [Option.some.injEq] at hf
        rw [← hf]
        exact hback l hl) hn he hname) ?_
    -- the one file reported under this name is the one just written
    intro t _ ht
    have hslot := s.fs.eq_slotFor_of_find ht
    refine ⟨hslot ▸ hdel, ?_⟩
    rcases hdata with hdata | ⟨hinv, hsize, hdated, hblocks, hmem⟩
    · refine Or.inr fun p e f t' he hname hf ht' => ?_
      obtain ⟨f', hf', rfl, -⟩ := AuthorInv.reported_at hkeyed he (hname ▸ hl)
      rw [Function.update_self, Option.some.injEq] at hf
      rw [s.fs.eq_slotFor_of_find ht', ← hf]
      exact hdata
    · refine Or.inl fun p e he hname => ?_
      obtain ⟨f, hf, -, hes, hem⟩ := AuthorInv.reported_at hkeyed he (hname ▸ hl)
      rw [Function.update_self, Option.some.injEq] at hf
      subst hf
      unfold recChanged
      rw [ht, hslot]
      simp [FolderState.slotFor, hmem, hdel, hinv, hes, hem, hsize, hdated, hblocks]

theorem authorInv_unstorable (h : AuthorInv site s) (m : SyncMeta) (mem : UpsertMem)
    (hok : StepOk site s (.unstorable m mem)) :
    AuthorInv site (exec site s (.unstorable m mem)) := by
  refine h.write h.keyed
    (fun n hn => s.fs.find_store_of_ne (m := { m with invalid := true, deleted := false }) hn [] mem)
    (fun n hn => Function.update_of_ne hn _ _) (fun n hn p e he _ => rfl) ?_
  intro t _ ht
  have hslot := s.fs.eq_slotFor_of_find (m := { m with invalid := true, deleted := false }) ht
  refine ⟨hslot ▸ rfl, Or.inr fun p e f u he hname hf hu => ?_⟩
  rw [← Option.some.inj (ht.symm.trans hu), hslot]
  exact hok p e f he hname hf

/-- A file that is stamped keeps its name and its bytes. -/
theorem touch_some {disk : Disk} {n : Name} {l : Bytes} (hl : toLocal n = some l) {dated : Bool}
    {modifiedS : Int} {g : DiskFile}
    (hg : touch site disk n dated modifiedS (site.fold l) = some g) :
    ∃ f, disk (site.fold l) = some f ∧ g.lname = f.lname ∧ g.data = f.data ∧
      (dated = true → g.modifiedS = folderMtimeOnDisk site.tz modifiedS) := by
  rw [touch, hl] at hg
  cases dated with
  | false => exact ⟨g, hg, rfl, rfl, fun hd => absurd hd (by simp)⟩
  | true =>
    dsimp only at hg
    rw [if_pos rfl, Function.update_self] at hg
    obtain ⟨f, hf, rfl⟩ := Option.map_eq_some_iff.mp hg
    exact ⟨f, hf, rfl, rfl, fun _ => rfl⟩

/-- Stamping a file that has the spelling of its name. -/
theorem touch_ok (h : AuthorInv site s) {n : Name} {l : Bytes} (hl : toLocal n = some l)
    (hback : nameFromLocal bepPathMax l = some n)
    (hspelt : ∀ f, s.disk (site.fold l) = some f → f.lname = l) (dated : Bool) (modifiedS : Int) :
    (∀ p f, touch site s.disk n dated modifiedS p = some f → hiddenName f.lname = false →
      site.fold f.lname = p) ∧
    ∀ m, m ≠ n → ∀ p e, entryAt site (touch site s.disk n dated modifiedS) p = some e →
      e.name = m → touch site s.disk n dated modifiedS p = s.disk p := by
  rw [touch, hl]
  cases dated with
  | false => exact ⟨h.keyed, fun m _ p e _ _ => rfl⟩
  | true =>
    have hstamped : ∀ g, ((s.disk (site.fold l)).map fun f : DiskFile =>
        { f with modifiedS := folderMtimeOnDisk site.tz modifiedS }) = some g → g.lname = l := by
      intro g hg
      obtain ⟨f, hf, rfl⟩ := Option.map_eq_some_iff.mp hg
      exact hspelt f hf
    exact ⟨keyed_update h l hstamped, fun m hm p e he hn =>
      update_of_reported (fun f hf => hstamped f hf ▸ hback) hm he hn⟩

theorem authorInv_adopt (h : AuthorInv site s) (peer : SyncMeta) (dated : Bool)
    (hok : StepOk site s (.adopt peer dated)) :
    AuthorInv site (exec site s (.adopt peer dated)) := by
  obtain ⟨hback, hheld⟩ := hok
  rw [exec]
  split
  · exact h
  · rename_i t ht
    split
    · exact h
    · rename_i hlive
      rw [Bool.not_eq_true] at hlive
      have hself : ∀ u, (s.fs.adopt peer.name peer).find peer.name = some u →
          u = s.fs.slotFor (adoptRecord t.record peer (s.fs.sequence + 1)) t.blocks ⟨true, true⟩ :=
        fun u hu => Option.some.inj (hu.symm.trans (s.fs.find_adopt_self ht hlive peer))
      have hother : ∀ n, n ≠ peer.name → (s.fs.adopt peer.name peer).find n = s.fs.find n :=
        fun n hn => s.fs.find_adopt_of_ne hn peer
      have hpeer : ∀ n, n ≠ peer.name →
          Function.update s.fromPeer peer.name true n = s.fromPeer n :=
        fun n hn => Function.update_of_ne hn _ _
      cases hl : toLocal peer.name with
      | none =>
        have hsame : touch site s.disk peer.name dated peer.modifiedS = s.disk := by
          rw [touch, hl]
        rw [hsame]
        refine h.write h.keyed hother hpeer (fun n hn p e he _ => rfl) fun u _ hu => ?_
        refine ⟨hself u hu ▸ hlive, Or.inl fun p e he hn => ?_⟩
        obtain ⟨f, -, -, hloc, -⟩ := entryAt_some he
        rw [hn, hl] at hloc
        exact absurd hloc (by simp)
      | some l =>
        obtain ⟨hkeyed, hdisk⟩ := touch_ok h hl (hback l hl)
          (fun f hf => (hheld t ht l f hl hf).1) dated peer.modifiedS
        refine h.write hkeyed hother hpeer hdisk fun u _ hu => ?_
        have hslot := hself u hu
        refine ⟨hslot ▸ hlive, ?_⟩
        -- the file under the name, as it was before, agrees or is as the record says
        by_cases hsome : ∃ f, s.disk (site.fold l) = some f ∧ HashesTo site t.record f.data
        · obtain ⟨f, hf, hhash⟩ := hsome
          refine Or.inr fun p e g u' he hn hg hu' => ?_
          obtain ⟨g', hg', rfl, -⟩ := AuthorInv.reported_at hkeyed he (hn ▸ hl)
          obtain ⟨f', hf', -, hdata, -⟩ := touch_some hl hg
          rw [hself u' hu', hdata, ← Option.some.inj (hf.symm.trans hf')]
          exact hhash
        · refine Or.inl fun p e he hn => ?_
          obtain ⟨g, hg, -, hes, hem⟩ := AuthorInv.reported_at hkeyed he (hn ▸ hl)
          obtain ⟨f, hf, -, hdata, hmod⟩ := touch_some hl hg
          obtain ⟨hvalid, hsize, hdated, hblocks⟩ := (hheld t ht l f hl hf).2.resolve_left
            fun hh => hsome ⟨f, hf, hh⟩
          rw [hdata] at hes
          rw [hmod hdated] at hem
          unfold recChanged
          rw [hu, hslot]
          simp [FolderState.slotFor, adoptRecord, hlive, hvalid, hes, hem, hsize, hblocks]

theorem authorInv_remove (h : AuthorInv site s) (m : SyncMeta) (mem : UpsertMem) :
    AuthorInv site (exec site s (.remove m mem)) := by
  have hfs : ∀ n, n ≠ m.name → (s.fs.store m [] mem).find n = s.fs.find n :=
    fun n hn => s.fs.find_store_of_ne hn [] mem
  have hpeer : ∀ n, n ≠ m.name → Function.update s.fromPeer m.name false n = s.fromPeer n :=
    fun n hn => Function.update_of_ne hn _ _
  have hown : Function.update s.fromPeer m.name false m.name ≠ true := by simp
  rw [exec]
  cases toLocal m.name with
  | none => exact h.write h.keyed hfs hpeer (fun n hn p e he _ => rfl) fun t ht => absurd ht hown
  | some l =>
    exact h.write (keyed_update h l fun f hf => absurd hf (by simp)) hfs hpeer
      (fun n hn p e he _ => update_none_of_reported he) fun t ht => absurd ht hown

theorem authorInv_preserve (h : AuthorInv site s) (n cn : Name) (stamp : Nat) (mem : UpsertMem)
    (hok : StepOk site s (.preserve n cn stamp mem)) :
    AuthorInv site (exec site s (.preserve n cn stamp mem)) := by
  rw [exec]
  split
  · rename_i t l l' ht hl hl'
    split
    · rename_i f hdel hf hfree
      have hkeyed : ∀ p g, Function.update (Function.update s.disk (site.fold l) none) (site.fold l')
          (some { f with lname := l' }) p = some g → hiddenName g.lname = false →
          site.fold g.lname = p := by
        intro p g hg hh
        by_cases hp : p = site.fold l'
        · subst hp
          rw [Function.update_self, Option.some.injEq] at hg
          rw [← hg]
        · rw [Function.update_of_ne hp] at hg
          exact keyed_update h l (fun f hf => absurd hf (by simp)) p g hg hh
      refine h.write (m := cn) hkeyed (fun m hm => s.fs.find_store_of_ne hm _ mem)
        (fun m hm => Function.update_of_ne hm _ _) (fun m hm p e he hn => ?_)
        fun t ht => absurd ht (by simp)
      have hcopy := update_of_reported (fun g hg => by
        rw [Option.some.injEq] at hg
        rw [← hg]
        exact hok l' hl') hm he hn
      rw [hcopy]
      exact update_none_of_reported ((entryAt_congr hcopy).symm.trans he)
    · exact h
  · exact h

theorem authorInv_vanish (h : AuthorInv site s) (p : Path) :
    AuthorInv site (exec site s (.vanish p)) := by
  refine ⟨fun q f hf hh => ?_, fun n t hn ht => ?_⟩
  · rw [exec] at hf
    dsimp only at hf
    by_cases hq : q = p
    · subst hq
      rw [Function.update_self] at hf
      exact absurd hf (by simp)
    · rw [Function.update_of_ne hq] at hf
      exact h.keyed q f hf hh
  · obtain ⟨hlive, hq⟩ := h.settled n t hn ht
    exact ⟨hlive, settled_mono hq rfl fun q e he _ => update_none_of_reported he⟩

theorem authorInv_veil (h : AuthorInv site s) (hid : Disk) :
    AuthorInv site (exec site s (.veil hid)) := by
  have hdisk : ∀ q f, (exec site s (.veil hid)).disk q = some f → hiddenName f.lname = false →
      (exec site s (.veil hid)).disk q = s.disk q := by
    intro q f hf hh
    rw [exec] at hf ⊢
    dsimp only at hf ⊢
    split at hf
    · rename_i hc
      rw [Bool.and_eq_true, hf] at hc
      simp [hh] at hc
    · rename_i hc
      exact if_neg hc
  refine ⟨fun q f hf hh => h.keyed q f ((hdisk q f hf hh).symm.trans hf) hh, fun n t hn ht => ?_⟩
  obtain ⟨hlive, hq⟩ := h.settled n t hn ht
  refine ⟨hlive, settled_mono hq rfl fun q e he _ => ?_⟩
  obtain ⟨f, hf, hh, -⟩ := entryAt_some he
  exact hdisk q f hf hh

/-- **Pass, nothing differing.** The record is left alone, or tombstoned, or marked invalid. -/
theorem scanned_quiet (shown : List Shown) (stop : Option Nat) (refused : Name → Bool)
    (stamp : Name → Nat) (mem : Name → UpsertMem) (now : Nat) {n : Name} {t : Slot}
    (ht : s.fs.find n = some t) (hlive : t.record.deleted = false)
    (hq : Quiet site s.fs s.disk n) :
    ∃ u, (scanned site s shown stop refused stamp mem now).find n = some u ∧
      (FolderState.SameSlot t u ∨ u.record.deleted = true ∨
        t.record.invalid = false ∧ u.record.invalid = true ∧
          u.record.contentHash = t.record.contentHash) := by
  have hclear : s.fs.clearSeen.find n = some { t with seen := false } := by
    unfold FolderState.clearSeen
    rw [s.fs.find_setSeen, ht]
    rfl
  have hquiet : ∀ e ∈ shown.filterMap (shownEntry site s.disk), e.isDir = false → e.name = n →
      recChanged site.tz s.fs.clearSeen n e.size e.modifiedS = false := by
    intro e he hdir hname
    rw [recChanged_congr ht hclear ⟨rfl, rfl⟩]
    obtain ⟨p, hp⟩ := shown_file he hdir
    exact hq p e hp hname
  unfold scanned scanPass
  split
  · obtain ⟨u, hu, hsame⟩ : ∃ u, (((shown.filterMap (shownEntry site s.disk)).take
        (stop.getD 0)).foldl (scanEntry (scanEnv site s.disk refused stamp mem now)
        (present site s.disk)) s.fs.clearSeen).find n = some u ∧
        FolderState.SameSlot { t with seen := false } u :=
      scan_quiet (by simp [scanEnv]) _ hclear hlive fun e he => hquiet e (List.mem_of_mem_take he)
    exact ⟨u, hu, Or.inl hsame⟩
  · obtain ⟨u, hu, hsame⟩ : ∃ u, ((shown.filterMap (shownEntry site s.disk)).foldl (scanEntry
        (scanEnv site s.disk refused stamp mem now) (present site s.disk)) s.fs.clearSeen).find n =
          some u ∧ FolderState.SameSlot { t with seen := false } u :=
      scan_quiet (by simp [scanEnv]) _ hclear hlive hquiet
    dsimp only
    rw [if_neg (by simp [scanEnv])]
    obtain ⟨v, hv, hcase⟩ := sweepDeletions_cases hu
    refine ⟨v, hv, ?_⟩
    rcases hcase with rfl | hdel | ⟨hi, hi', hc⟩
    · exact Or.inl hsame
    · exact Or.inr (Or.inl hdel)
    · exact Or.inr (Or.inr ⟨hsame.1 ▸ hi, hi', hc.trans (congrArg SyncMeta.contentHash hsame.1.symm)⟩)

/-- **Pass, hashes agreeing.** The record is tombstoned, or its content stays what it was. -/
theorem scanned_agrees (h : AuthorInv site s) (shown : List Shown) (stop : Option Nat)
    (refused : Name → Bool) (stamp : Name → Nat) (mem : Name → UpsertMem) (now : Nat) {n : Name}
    {t : Slot} (ht : s.fs.find n = some t) (hlive : t.record.deleted = false)
    (ha : Agrees site s.fs s.disk n) :
    ∃ u, (scanned site s shown stop refused stamp mem now).find n = some u ∧
      (u.record.deleted = true ∨ u.record.contentHash = t.record.contentHash) := by
  have hclear : s.fs.clearSeen.find n = some { t with seen := false } := by
    unfold FolderState.clearSeen
    rw [s.fs.find_setSeen, ht]
    rfl
  have hcontent : ∀ e ∈ shown.filterMap (shownEntry site s.disk), e.isDir = false → e.name = n →
      ∀ c bs k, (scanEnv site s.disk refused stamp mem now).hash n = .ok c bs k →
        t.record.contentHash = some c := by
    intro e he hdir hname c bs k hhash
    obtain ⟨p, hp⟩ := shown_file he hdir
    obtain ⟨l, f, hl, hf, hdata⟩ := diskHash_ok hhash
    obtain ⟨f', hf', rfl, -⟩ := AuthorInv.reported_at h.keyed hp (hname ▸ hl)
    exact ha _ e f t hp hname hf ht c bs hdata
  unfold scanned scanPass
  split
  · obtain ⟨u, hu, -, hsame⟩ : ∃ u, (((shown.filterMap (shownEntry site s.disk)).take
        (stop.getD 0)).foldl (scanEntry (scanEnv site s.disk refused stamp mem now)
        (present site s.disk)) s.fs.clearSeen).find n = some u ∧ u.record.deleted = false ∧
        u.record.contentHash = ({ t with seen := false } : Slot).record.contentHash :=
      scan_content (by simp [scanEnv]) _ hclear hlive fun e he =>
        hcontent e (List.mem_of_mem_take he)
    exact ⟨u, hu, Or.inr hsame⟩
  · obtain ⟨u, hu, -, hsame⟩ : ∃ u, ((shown.filterMap (shownEntry site s.disk)).foldl (scanEntry
        (scanEnv site s.disk refused stamp mem now) (present site s.disk)) s.fs.clearSeen).find n =
          some u ∧ u.record.deleted = false ∧
          u.record.contentHash = ({ t with seen := false } : Slot).record.contentHash :=
      scan_content (by simp [scanEnv]) _ hclear hlive hcontent
    dsimp only
    rw [if_neg (by simp [scanEnv])]
    obtain ⟨v, hv, hcase⟩ := sweepDeletions_cases hu
    refine ⟨v, hv, ?_⟩
    rcases hcase with rfl | hdel | ⟨-, -, hc⟩
    · exact Or.inr hsame
    · exact Or.inl hdel
    · exact Or.inr (hc.trans hsame)

theorem authorInv_scan (h : AuthorInv site s) (shown : List Shown) (stop : Option Nat)
    (refused : Name → Bool) (stamp : Name → Nat) (mem : Name → UpsertMem) (now : Nat) :
    AuthorInv site (exec site s (.scan shown stop refused stamp mem now)) := by
  refine ⟨h.keyed, fun n u hn hu => ?_⟩
  rw [exec] at hn hu
  dsimp only at hn hu
  rw [Bool.and_eq_true, decide_eq_true_eq] at hn
  obtain ⟨hpeer, hsame⟩ := hn
  rw [hu, Option.map_some] at hsame
  obtain ⟨t, ht, hrec⟩ := Option.map_eq_some_iff.mp hsame.symm
  obtain ⟨hlive, hq⟩ := h.settled n t hpeer ht
  refine ⟨hrec ▸ hlive, ?_⟩
  rcases hq with hq | ha
  · obtain ⟨v, hv, hcase⟩ := scanned_quiet shown stop refused stamp mem now ht hlive hq
    rw [hu, Option.some.injEq] at hv
    subst hv
    have hslot : FolderState.SameSlot t u := by
      rcases hcase with hs | hdel | ⟨hi, hi', -⟩
      · exact hs
      · rw [← hrec, hlive] at hdel
        exact absurd hdel (by simp)
      · rw [← hrec, hi] at hi'
        exact absurd hi' (by simp)
    refine Or.inl fun p e he hname => ?_
    show recChanged site.tz (scanned site s shown stop refused stamp mem now) n e.size e.modifiedS =
      false
    rw [recChanged_congr ht hu hslot]
    exact hq p e he hname
  · refine Or.inr fun p e f u' he hname hf hu' => ?_
    have hrec' : u'.record = t.record := by
      rw [← Option.some.inj (hu.symm.trans hu')]
      exact hrec.symm
    rw [hrec']
    exact ha p e f t he hname hf ht

/-- **Step.** -/
theorem authorInv_exec (e : FolderStep) (h : AuthorInv site s) (hok : StepOk site s e) :
    AuthorInv site (exec site s e) := by
  cases e with
  | publish w data dated date mem => exact authorInv_publish h w data dated date mem hok
  | adopt peer dated => exact authorInv_adopt h peer dated hok
  | unstorable m mem => exact authorInv_unstorable h m mem hok
  | remove m mem => exact authorInv_remove h m mem
  | preserve n cn stamp mem => exact authorInv_preserve h n cn stamp mem hok
  | vanish p => exact authorInv_vanish h p
  | veil hid => exact authorInv_veil h hid
  | scan shown stop refused stamp mem now => exact authorInv_scan h shown stop refused stamp mem now

end Steps

/-! ## Every run -/

/-- A live record that beats another and has other content. -/
def Usurps (new old : SyncMeta) : Prop :=
  new.deleted = false ∧ syncVersionCompare new.version old.version = .ours ∧
    new.contentHash ≠ old.contentHash

instance (new old : SyncMeta) : Decidable (Usurps new old) := inferInstanceAs (Decidable (_ ∧ _))

/-- The folder as the daemon finds it. -/
def Folder.start (fs : FolderState) (disk : Disk) : Folder := ⟨fs, disk, fun _ => false⟩

/-- **No authorship.** After any run whose steps all meet the condition, a pass replaces no
record that a worker wrote from a peer's by a live one of ours that beats it with other
content. -/
theorem peer_record_not_usurped (site : Site) (fs : FolderState) (disk : Disk)
    (hdisk : ∀ p f, disk p = some f → hiddenName f.lname = false → site.fold f.lname = p)
    (es : List FolderStep) (s : Folder)
    (hok : Machine.Along (fun s e => some (exec site s e)) (StepOk site) (Folder.start fs disk) es)
    (hr : Machine.run (fun s e => some (exec site s e)) (Folder.start fs disk) es = some s)
    (shown : List Shown) (stop : Option Nat) (refused : Name → Bool) (stamp : Name → Nat)
    (mem : Name → UpsertMem) (now : Nat) (n : Name) (t u : Slot) (hn : s.fromPeer n = true)
    (ht : s.fs.find n = some t)
    (hu : (exec site s (.scan shown stop refused stamp mem now)).fs.find n = some u) :
    ¬ Usurps u.record t.record := by
  have hstart : AuthorInv site (Folder.start fs disk) :=
    ⟨hdisk, fun n t hn => absurd hn (by simp [Folder.start])⟩
  have h : AuthorInv site s := Machine.run_inv_along
    (fun s e t hs hc he => Option.some.inj he ▸ authorInv_exec e hs hc) hok hr hstart
  obtain ⟨hlive, hq⟩ := h.settled n t hn ht
  have hcase : u.record.deleted = true ∨ u.record.contentHash = t.record.contentHash := by
    rcases hq with hq | ha
    · obtain ⟨v, hv, hcase⟩ := scanned_quiet shown stop refused stamp mem now ht hlive hq
      rw [Option.some.inj (hu.symm.trans hv)]
      rcases hcase with hs | hdel | ⟨-, -, hc⟩
      · exact Or.inr (congrArg SyncMeta.contentHash hs.1.symm)
      · exact Or.inl hdel
      · exact Or.inr hc
    · obtain ⟨v, hv, hcase⟩ := scanned_agrees h shown stop refused stamp mem now ht hlive ha
      rw [Option.some.inj (hu.symm.trans hv)]
      exact hcase
  rintro ⟨hdel, -, hcontent⟩
  rcases hcase with hdel' | hc
  · rw [hdel] at hdel'
    exact absurd hdel' (by simp)
  · exact hcontent hc

/-! ### A file of ours, and a newer one -/

/-- No ignore rules, and names that are compared as they are. -/
def plainSite : Site := ⟨sumHash, id, fun _ => false, 0, [87, 58]⟩

/-- The folder holds the file `x` or nothing. -/
def plainDisk (f : Option DiskFile) : Disk := fun p => if p = [120] then f else none

/-- A pass that is shown the file `x`. -/
def plainPass : FolderStep :=
  .scan [.file [120]] none (fun _ => false) (fun _ => 1) (fun _ => ⟨true, true⟩) 400000000

/-- The peer's next version of the file `x`, in blocks of a given size. -/
def newerRecord (size blockSize : Int) : SyncMeta :=
  { SyncMeta.zero [120] with
    size := size
    modifiedS := 310000000
    blockSize := blockSize
    contentHash := some (folderContentHash sumHash [sumHash [2]])
    version := ⟨[⟨1, 1⟩, ⟨2, 5⟩], by decide⟩ }

/-- The file `x` as a pass has recorded it. -/
def ownedFolder : Folder :=
  exec plainSite (Folder.start (FolderState.empty 1) (plainDisk (some ⟨[120], [1], 300000000⟩)))
    plainPass

/-- The peer's next version of `x` comes in blocks that are too large for us. It is recorded,
our older file stays, and the next pass announces that one as newer than the peer's. -/
theorem unstorable_usurped :
    syncClassifyIncoming ((ownedFolder.fs.find [120]).map Slot.record) .sendReceive
      (newerRecord 2097152 2097152) = .fetch ∧
    (folderMaxBlockSize : Int) < (newerRecord 2097152 2097152).blockSize ∧
    ∃ s, Machine.run (fun s e => some (exec plainSite s e)) ownedFolder
        [.unstorable (newerRecord 2097152 2097152) ⟨true, true⟩] = some s ∧
      s.fromPeer [120] = true ∧
      ∃ t u, s.fs.find [120] = some t ∧ (exec plainSite s plainPass).fs.find [120] = some u ∧
        Usurps u.record t.record :=
  ⟨by decide, by decide, _, rfl, rfl, _, _, rfl, rfl, by decide⟩

/-- A version we can store is published over it, and no pass announces anything else. -/
theorem published_not_usurped : ∃ s, Machine.run (fun s e => some (exec plainSite s e))
      (Folder.start ownedFolder.fs ownedFolder.disk)
      [.publish ⟨newerRecord 1 131072, [sumHash [2]]⟩ [2] true 0 ⟨true, true⟩] = some s ∧
    ∃ t u, s.fs.find [120] = some t ∧ (exec plainSite s plainPass).fs.find [120] = some u ∧
      ¬ Usurps u.record t.record := by
  have hdisk : ∀ p f, ownedFolder.disk p = some f → hiddenName f.lname = false →
      plainSite.fold f.lname = p := by
    intro p f hf _
    have hf' : (if p = [120] then some ⟨[120], [1], 300000000⟩ else none) = some f := hf
    split at hf'
    · rename_i hp
      rw [Option.some.injEq] at hf'
      rw [← hf', hp]
      rfl
    · exact absurd hf' (by simp)
  refine ⟨_, rfl, _, _, rfl, rfl, ?_⟩
  refine peer_record_not_usurped plainSite ownedFolder.fs ownedFolder.disk hdisk
    [.publish ⟨newerRecord 1 131072, [sumHash [2]]⟩ [2] true 0 ⟨true, true⟩] _ ⟨⟨rfl, fun l hl => ?_,
      Or.inr ⟨rfl, rfl, rfl, by decide, rfl⟩⟩, fun _ _ => trivial⟩ rfl [.file [120]] none (fun _ => false)
    (fun _ => 1) (fun _ => ⟨true, true⟩) 400000000 [120] _ _ rfl rfl rfl
  have hl' : [120] = l := Option.some.inj ((by decide : toLocal [120] = some [120]).symm.trans hl)
  rw [← hl']
  decide

end Amisync

import Amisync.FoldState
import Amisync.Walk

/-!
# The scanner (`scanner.c`)

One pass over one folder: the marks are cleared, every entry the walk reports is
committed or marked, and what has no mark afterwards is taken for deleted.

* `scanEntry_other`, `scanEntry_self`: what one entry does to a record.
* `scan_marks`: after the walk a record is marked exactly when its name was
  reported; otherwise it is as it was.
* `scan_quiet`: a record that nothing reported differs from is left alone.
* `recChanged_stamped`: a file stamped with its record's time has not changed.
* `scan_content`: a record whose file hashes to what it says keeps its content.
* `sweepDeletions_find`, `sweepDeletions_cases`: what the sweep makes of a record.
* `scan_spares_iff`: files on disk are spared exactly when the walk reaches them,
  or they are ignored, or the folder is receive-only.
-/

namespace Amisync

/-! ## Entries -/

/-- What `folder_hash` answers. -/
inductive HashAnswer where
  | ok (content : Hash) (blocks : List Hash) (hashed : Int)
  | unreadable
  | tooBig
  deriving DecidableEq, Repr

/-- What a pass is given besides the disk and the index. -/
structure ScanEnv where
  mode : FolderMode
  ign : Name → Bool
  tz : Int
  path : Bytes
  fold : Bytes → Bytes
  hash : Name → HashAnswer
  stamp : Name → Nat
  mem : Name → UpsertMem
  now : Nat

/-- `folder_exists`: what cannot be asked about is taken to be there. -/
def Tree.exists (env : ScanEnv) (root : Tree) (name : Name) : Bool :=
  match toLocal name with
  | none => true
  | some lname => match joinFull env.path lname with
    | none => true
    | some _ => (root.lookup env.fold (components lname)).isSome

/-- A file needs hashing: no live and valid record, another size or time, or no blocks. -/
def recChanged (tz : Int) (fs : FolderState) (name : Name) (size modifiedS : Int) : Bool :=
  match fs.find name with
  | none => true
  | some s =>
    s.record.deleted || s.record.invalid || s.record.size != size ||
      (s.record.modifiedS != modifiedS && folderMtimeOnDisk tz s.record.modifiedS != modifiedS) ||
      s.blocks.isEmpty

/-- The version a new record carries forward. -/
def FolderState.prevVersion (fs : FolderState) (name : Name) : Option BepVector :=
  (fs.find name).map fun s => s.record.version

def commitFile (env : ScanEnv) (fs : FolderState) (e : FolderEntry) (content : Hash)
    (blocks : List Hash) : FolderState :=
  (fs.store (localFileRecord (fs.prevVersion e.name) fs.shortId (env.stamp e.name) 0 e.name e.size
    e.modifiedS content) blocks (env.mem e.name)).markSeen e.name

def dirRecord (prev : Option BepVector) (shortId stamp : Nat) (e : FolderEntry) : SyncMeta :=
  { SyncMeta.zero e.name with
    type := .directory
    permissions := 493
    modifiedS := e.modifiedS
    modifiedBy := shortId
    version := syncBumpVersion prev shortId stamp }

def commitDir (env : ScanEnv) (fs : FolderState) (e : FolderEntry) : FolderState :=
  if (fs.find e.name).any fun s => !s.record.deleted then fs.markSeen e.name
  else (fs.store (dirRecord (fs.prevVersion e.name) fs.shortId (env.stamp e.name) e) []
    (env.mem e.name)).markSeen e.name

/-- `scan_entry`; `present` is the file system's answer to `folder_exists`. -/
def scanEntry (env : ScanEnv) (present : Name → Bool) (fs : FolderState) (e : FolderEntry) :
    FolderState :=
  if e.isDir then commitDir env fs e
  else if env.mode = .receiveOnly then
    if (fs.find e.name).isNone then fs
    else if recChanged env.tz fs e.name e.size e.modifiedS then fs.forget e.name
    else fs.markSeen e.name
  else if recChanged env.tz fs e.name e.size e.modifiedS then
    match env.hash e.name with
    | .unreadable => if present e.name then fs.markSeen e.name else fs
    | .tooBig => fs.markSeen e.name
    | .ok content blocks hashed =>
      if hashed ≠ e.size then fs.markSeen e.name else commitFile env fs e content blocks
  else fs.markSeen e.name

/-! ## The sweep -/

/-- One round of `sweep_deletions`, on the slot as it was before the loop: records are
replaced in place, each by its own round. -/
def sweepSlot (env : ScanEnv) (before : Int) (fs : FolderState) (s : Slot) : FolderState :=
  if s.record.deleted || s.record.invalid || s.seen then fs
  else if env.ign s.name then
    if s.record.type = .file then
      fs.store { s.record with invalid := true } [] (env.mem s.name) else fs
  else if s.record.sequence > before then fs
  else fs.store (localTombstone s.record fs.shortId env.now 0) [] (env.mem s.name)

def sweepDeletions (env : ScanEnv) (before : Int) (fs : FolderState) : FolderState :=
  fs.files.foldl (sweepSlot env before) fs

/-- A pass over the entries of a walk: the index afterwards, and whether the pass was a
complete one. `stop` is the number of entries after which a signal ends the walk. -/
def scanPass (env : ScanEnv) (present : Name → Bool) (entries : List FolderEntry)
    (stop : Option Nat) (fs : FolderState) : FolderState × Bool :=
  if stop.any (· < entries.length) then
    ((entries.take (stop.getD 0)).foldl (scanEntry env present) fs.clearSeen, false)
  else
    let fs₁ := entries.foldl (scanEntry env present) fs.clearSeen
    (if env.mode = .receiveOnly then fs₁.forgetUnseen fs.sequence
      else sweepDeletions env fs.sequence fs₁, true)

/-- `scan_folder`. A folder that has vanished ends it at once. -/
def scanFolder (env : ScanEnv) (root : Option Tree) (stop : Option Nat) (fs : FolderState) :
    FolderState × Bool :=
  match root with
  | none => (fs.clearSeen, false)
  | some root => scanPass env (root.exists env) (walk env.ign root env.path [] 0) stop fs

/-! ## What one entry does -/

section Entry
variable {env : ScanEnv} {present : Name → Bool} {fs : FolderState} {e : FolderEntry} {n : Name}

/-- Outside receive-only folders an entry touches the record of its own name only. -/
theorem scanEntry_other (hmode : env.mode ≠ .receiveOnly) (hn : n ≠ e.name) :
    (scanEntry env present fs e).find n = fs.find n := by
  have hmark := fs.find_markSeen_of_ne hn
  unfold scanEntry
  split
  · unfold commitDir
    split
    · exact hmark
    · exact (FolderState.find_markSeen_of_ne _ hn).trans (fs.find_store_of_ne hn _ _)
  · split
    · split
      · split
        · exact hmark
        · rfl
      · exact hmark
      · split
        · exact hmark
        · exact (FolderState.find_markSeen_of_ne _ hn).trans (fs.find_store_of_ne hn _ _)
    · exact hmark

/-- An entry that exists marks its record, and leaves it live. -/
theorem scanEntry_self (hmode : env.mode ≠ .receiveOnly) (hex : present e.name = true)
    {s : Slot} (hs : fs.find e.name = some s) (hlive : s.record.deleted = false) :
    ∃ t, (scanEntry env present fs e).find e.name = some t ∧ t.seen = true ∧
      t.record.deleted = false := by
  have hmark : ∃ t, (fs.markSeen e.name).find e.name = some t ∧ t.seen = true ∧
      t.record.deleted = false := ⟨_, fs.find_markSeen_self hs, rfl, hlive⟩
  unfold scanEntry
  split
  · unfold commitDir
    simp only [hs, Option.any_some, hlive, Bool.not_false, ↓reduceIte]
    exact hmark
  · split
    · split
      · exact hmark
      · exact hmark
      · split
        · exact hmark
        · rename_i content blocks hashed _ _
          have hstore := fs.find_store_self (m := localFileRecord (fs.prevVersion e.name) fs.shortId
            (env.stamp e.name) 0 e.name e.size e.modifiedS content) hs blocks (env.mem e.name)
          exact ⟨_, FolderState.find_markSeen_self _ hstore, rfl, rfl⟩
    · exact hmark

/-- **Marks.** After the walk a live record is marked if its name was reported, and otherwise
untouched. -/
theorem scan_marks (hmode : env.mode ≠ .receiveOnly) (hex : present n = true)
    (es : List FolderEntry) {s : Slot} (hs : fs.find n = some s) (hlive : s.record.deleted = false) :
    ∃ t, (es.foldl (scanEntry env present) fs).find n = some t ∧ t.record.deleted = false ∧
      ((∃ e ∈ es, e.name = n) ∧ t.seen = true ∨ (¬ ∃ e ∈ es, e.name = n) ∧ t = s) := by
  induction es generalizing fs s with
  | nil => exact ⟨s, hs, hlive, Or.inr ⟨by simp, rfl⟩⟩
  | cons e es ih =>
    rw [List.foldl_cons]
    by_cases he : e.name = n
    · subst he
      obtain ⟨t, ht, hseen, hl⟩ := scanEntry_self hmode hex hs hlive
      obtain ⟨u, hu, hul, hcase⟩ := ih ht hl
      refine ⟨u, hu, hul, Or.inl ⟨⟨e, List.mem_cons_self, rfl⟩, ?_⟩⟩
      rcases hcase with ⟨-, h⟩ | ⟨-, rfl⟩
      · exact h
      · exact hseen
    · have hsame : (scanEntry env present fs e).find n = some s :=
        (scanEntry_other hmode (Ne.symm he)).trans hs
      obtain ⟨u, hu, hul, hcase⟩ := ih hsame hlive
      refine ⟨u, hu, hul, ?_⟩
      simpa [he] using hcase

theorem recChanged_congr {fs' : FolderState} {s t : Slot} (hs : fs.find n = some s)
    (ht : fs'.find n = some t) (hsame : FolderState.SameSlot s t) (tz size modifiedS : Int) :
    recChanged tz fs' n size modifiedS = recChanged tz fs n size modifiedS := by
  unfold recChanged
  rw [hs, ht]
  dsimp only
  rw [hsame.1, hsame.2]

/-- **A received file is not seen as edited.** It is on disk with the stamp of the peer's time, as far as
a stamp can hold it, and read back with the same offset. -/
theorem recChanged_stamped {tz : Int} {fs : FolderState} {name : Name} {s : Slot} (hs : fs.find name = some s)
    (hlive : s.record.deleted = false) (hvalid : s.record.invalid = false) (hblocks : s.blocks ≠ []) :
    recChanged tz fs name s.record.size (dsToUnix tz (unixToDs tz s.record.modifiedS)) = false := by
  have hdisk : folderMtimeOnDisk tz s.record.modifiedS = dsToUnix tz (unixToDs tz s.record.modifiedS) := rfl
  unfold recChanged
  rw [hs]
  dsimp only
  rw [hlive, hvalid, hdisk]
  simp [hblocks]

/-- A file of 1970, an hour east: it reads back as 1978. -/
theorem recChanged_before_1978 :
    recChanged 3600 ((FolderState.empty 1).store (SyncMeta.zero [97]) [sampleHash 1] ⟨true, true⟩) [97] 0
      (dsToUnix 3600 (unixToDs 3600 0)) = false := by
  have hs : ((FolderState.empty 1).store (SyncMeta.zero [97]) [sampleHash 1] ⟨true, true⟩).find [97] =
      some ⟨{ SyncMeta.zero [97] with sequence := 1 }, [sampleHash 1], false⟩ := rfl
  exact recChanged_stamped hs rfl rfl (by simp)

/-- An entry that does not differ from its record leaves it alone. -/
theorem scanEntry_quiet (hmode : env.mode ≠ .receiveOnly) {s : Slot} (hs : fs.find n = some s)
    (hlive : s.record.deleted = false)
    (hq : e.isDir = false → e.name = n → recChanged env.tz fs n e.size e.modifiedS = false) :
    ∃ t, (scanEntry env present fs e).find n = some t ∧ FolderState.SameSlot s t := by
  by_cases hn : n = e.name
  · subst hn
    have hmark : ∃ t, (fs.markSeen e.name).find e.name = some t ∧ FolderState.SameSlot s t :=
      ⟨_, fs.find_markSeen_self hs, rfl, rfl⟩
    unfold scanEntry
    split
    · unfold commitDir
      simp only [hs, Option.any_some, hlive, Bool.not_false, ↓reduceIte]
      exact hmark
    · rename_i hdir
      rw [hq (by simpa using hdir) rfl]
      simp only [↓reduceIte, Bool.false_eq_true]
      exact hmark
  · exact ⟨s, (scanEntry_other hmode hn).trans hs, rfl, rfl⟩

/-- **Quiet.** A live record that no reported file differs from survives the walk. -/
theorem scan_quiet (hmode : env.mode ≠ .receiveOnly) (es : List FolderEntry) {s : Slot}
    (hs : fs.find n = some s) (hlive : s.record.deleted = false)
    (hq : ∀ e ∈ es, e.isDir = false → e.name = n →
      recChanged env.tz fs n e.size e.modifiedS = false) :
    ∃ t, (es.foldl (scanEntry env present) fs).find n = some t ∧ FolderState.SameSlot s t := by
  induction es generalizing fs s with
  | nil => exact ⟨s, hs, rfl, rfl⟩
  | cons e es ih =>
    obtain ⟨t, ht, hsame⟩ : ∃ t, (scanEntry env present fs e).find n = some t ∧
        FolderState.SameSlot s t := scanEntry_quiet hmode hs hlive (hq e List.mem_cons_self)
    obtain ⟨u, hu, hsame'⟩ := ih ht (hsame.1 ▸ hlive) fun e' he' hdir hn => by
      rw [recChanged_congr hs ht hsame]
      exact hq e' (List.mem_cons_of_mem _ he') hdir hn
    exact ⟨u, hu, hsame.1.trans hsame'.1, hsame.2.trans hsame'.2⟩

/-- An entry that hashes to what its record says leaves that in place. -/
theorem scanEntry_content (hmode : env.mode ≠ .receiveOnly) {s : Slot} (hs : fs.find n = some s)
    (hlive : s.record.deleted = false)
    (hc : e.isDir = false → e.name = n → ∀ c bs k, env.hash n = .ok c bs k →
      s.record.contentHash = some c) :
    ∃ t, (scanEntry env present fs e).find n = some t ∧ t.record.deleted = false ∧
      t.record.contentHash = s.record.contentHash := by
  by_cases hn : n = e.name
  · subst hn
    have hmark : ∃ t, (fs.markSeen e.name).find e.name = some t ∧ t.record.deleted = false ∧
        t.record.contentHash = s.record.contentHash := ⟨_, fs.find_markSeen_self hs, hlive, rfl⟩
    unfold scanEntry
    split
    · unfold commitDir
      simp only [hs, Option.any_some, hlive, Bool.not_false, ↓reduceIte]
      exact hmark
    · rename_i hdir
      split
      · cases hh : env.hash e.name with
        | unreadable =>
          dsimp only
          split
          · exact hmark
          · exact ⟨s, hs, hlive, rfl⟩
        | tooBig => exact hmark
        | ok content blocks hashed =>
          dsimp only
          split
          · exact hmark
          · have hstore := fs.find_store_self (m := localFileRecord (fs.prevVersion e.name)
              fs.shortId (env.stamp e.name) 0 e.name e.size e.modifiedS content) hs blocks
              (env.mem e.name)
            refine ⟨_, FolderState.find_markSeen_self _ hstore, rfl, ?_⟩
            exact (hc (by simpa using hdir) rfl content blocks hashed hh).symm
      · exact hmark
  · exact ⟨s, (scanEntry_other hmode hn).trans hs, hlive, rfl⟩

/-- **Content.** A live record whose file hashes to what it says still says so after the walk. -/
theorem scan_content (hmode : env.mode ≠ .receiveOnly) (es : List FolderEntry) {s : Slot}
    (hs : fs.find n = some s) (hlive : s.record.deleted = false)
    (hc : ∀ e ∈ es, e.isDir = false → e.name = n → ∀ c bs k, env.hash n = .ok c bs k →
      s.record.contentHash = some c) :
    ∃ t, (es.foldl (scanEntry env present) fs).find n = some t ∧ t.record.deleted = false ∧
      t.record.contentHash = s.record.contentHash := by
  induction es generalizing fs s with
  | nil => exact ⟨s, hs, hlive, rfl⟩
  | cons e es ih =>
    obtain ⟨t, ht, hl, hsame⟩ : ∃ t, (scanEntry env present fs e).find n = some t ∧
        t.record.deleted = false ∧ t.record.contentHash = s.record.contentHash :=
      scanEntry_content hmode hs hlive (hc e List.mem_cons_self)
    obtain ⟨u, hu, hul, hsame'⟩ := ih ht hl fun e' he' hdir hn c bs k hh =>
      hsame.trans (hc e' (List.mem_cons_of_mem _ he') hdir hn c bs k hh)
    exact ⟨u, hu, hul, hsame'.trans hsame⟩

end Entry

/-! ## What the sweep does -/

section Sweep
variable {env : ScanEnv} {before : Int} {fs : FolderState} {s : Slot} {n : Name}

theorem sweepSlot_other (h : s.name ≠ n) : (sweepSlot env before fs s).find n = fs.find n := by
  have hstore : ∀ m : SyncMeta, m.name = s.name →
      (fs.store m [] (env.mem s.name)).find n = fs.find n := by
    intro m hm
    exact fs.find_store_of_ne (fun e => h (hm.symm.trans e.symm)) _ _
  unfold sweepSlot
  split
  · rfl
  · split
    · split
      · exact hstore _ rfl
      · rfl
    · split
      · rfl
      · exact hstore _ rfl

/-- A live record is tombstoned unless it is invalid, marked, ignored or newer than the pass. -/
theorem sweepSlot_self (hs : fs.find s.name = some s) (hlive : s.record.deleted = false) :
    ∃ t, (sweepSlot env before fs s).find s.name = some t ∧
      (t.record.deleted = true ↔ s.record.invalid = false ∧ s.seen = false ∧
        env.ign s.name = false ∧ s.record.sequence ≤ before) := by
  unfold sweepSlot
  rw [hlive, Bool.false_or]
  split
  · rename_i h
    refine ⟨s, hs, ?_⟩
    rw [hlive]
    simp only [Bool.false_eq_true, false_iff]
    rintro ⟨hi, hseen, -, -⟩
    simp [hi, hseen] at h
  · rename_i h
    simp only [Bool.or_eq_true, not_or, Bool.not_eq_true] at h
    split
    · rename_i hign
      split
      · refine ⟨_, fs.find_store_self (m := { s.record with invalid := true }) hs _ _, ?_⟩
        simp [FolderState.slotFor, hlive, hign]
      · exact ⟨s, hs, by simp [hlive, hign]⟩
    · rename_i hign
      rw [Bool.not_eq_true] at hign
      split
      · rename_i hseq
        exact ⟨s, hs, by simp [hlive]; omega⟩
      · rename_i hseq
        refine ⟨_, fs.find_store_self (m := localTombstone s.record fs.shortId env.now 0) hs _ _, ?_⟩
        simp only [FolderState.slotFor, localTombstone, true_iff]
        exact ⟨h.1, h.2, hign, by omega⟩

theorem foldl_sweepSlot_other (l : List Slot) (h : ∀ s ∈ l, s.name ≠ n) :
    (l.foldl (sweepSlot env before) fs).find n = fs.find n := by
  induction l generalizing fs with
  | nil => rfl
  | cons s l ih =>
    rw [List.foldl_cons, ih fun t ht => h t (List.mem_cons_of_mem _ ht)]
    exact sweepSlot_other (h s List.mem_cons_self)

variable (env before) in
/-- **Sweep.** Each record is decided by its own round. -/
theorem sweepDeletions_own (hs : fs.find n = some s) :
    s.name = n ∧ ∃ fs₁ : FolderState, fs₁.find n = some s ∧
      (sweepDeletions env before fs).find n = (sweepSlot env before fs₁ s).find n := by
  obtain ⟨hmem, hname⟩ := fs.mem_of_find hs
  obtain ⟨l₁, l₂, hl⟩ := List.append_of_mem hmem
  have hnodup := fs.nodup
  unfold Keyed.NodupKeys at hnodup
  rw [hl, List.map_append, List.map_cons, List.nodup_append] at hnodup
  obtain ⟨-, hn₂, hdis⟩ := hnodup
  have h₁ : ∀ t ∈ l₁, t.name ≠ n := fun t ht e =>
    hdis t.name (List.mem_map_of_mem ht) s.name List.mem_cons_self (e.trans hname.symm)
  have h₂ : ∀ t ∈ l₂, t.name ≠ n := fun t ht e =>
    (List.nodup_cons.mp hn₂).1 (hname.trans e.symm ▸ List.mem_map_of_mem ht)
  refine ⟨hname, l₁.foldl (sweepSlot env before) fs, ?_, ?_⟩
  · rw [foldl_sweepSlot_other l₁ h₁]
    exact hs
  · unfold sweepDeletions
    rw [hl, List.foldl_append, List.foldl_cons, foldl_sweepSlot_other l₂ h₂]

theorem sweepDeletions_find (hs : fs.find n = some s) (hlive : s.record.deleted = false) :
    ∃ t, (sweepDeletions env before fs).find n = some t ∧
      (t.record.deleted = true ↔ s.record.invalid = false ∧ s.seen = false ∧
        env.ign n = false ∧ s.record.sequence ≤ before) := by
  obtain ⟨rfl, fs₁, hs₁, hown⟩ := sweepDeletions_own env before hs
  rw [hown]
  exact sweepSlot_self hs₁ hlive

/-- A record is kept, or tombstoned, or it is valid and is marked invalid as it is. -/
theorem sweepDeletions_cases (hs : fs.find n = some s) :
    ∃ t, (sweepDeletions env before fs).find n = some t ∧
      (t = s ∨ t.record.deleted = true ∨
        s.record.invalid = false ∧ t.record.invalid = true ∧
          t.record.contentHash = s.record.contentHash) := by
  obtain ⟨rfl, fs₁, hs₁, hown⟩ := sweepDeletions_own env before hs
  rw [hown]
  unfold sweepSlot
  split
  · exact ⟨s, hs₁, Or.inl rfl⟩
  · rename_i h
    simp only [Bool.or_eq_true, not_or, Bool.not_eq_true] at h
    split
    · split
      · exact ⟨_, fs₁.find_store_self (m := { s.record with invalid := true }) hs₁ _ _,
          Or.inr (Or.inr ⟨h.1.2, rfl, rfl⟩)⟩
      · exact ⟨s, hs₁, Or.inl rfl⟩
    · split
      · exact ⟨s, hs₁, Or.inl rfl⟩
      · exact ⟨_, fs₁.find_store_self (m := localTombstone s.record fs₁.shortId env.now 0) hs₁ _ _,
          Or.inr (Or.inl rfl)⟩

end Sweep

/-! ## Receive-only folders -/

/-- The name has no tombstone. -/
def LiveAt (fs : FolderState) (n : Name) : Prop :=
  ∀ s ∈ fs.files, s.name = n → s.record.deleted = false

section Mirror
variable {env : ScanEnv} {present : Name → Bool} {fs : FolderState} {e : FolderEntry} {n : Name}

theorem LiveAt.setSeen (h : LiveAt fs n) (f : Slot → Bool) : LiveAt (fs.setSeen f) n := by
  intro s hs hn
  obtain ⟨t, ht, rfl⟩ := List.mem_map.mp hs
  exact h t ht hn

theorem LiveAt.forget (h : LiveAt fs n) (m : Name) : LiveAt (fs.forget m) n := by
  unfold FolderState.forget
  split
  · rename_i hi
    exact fun s hs => h s ((fs.swapRemove_ok hi).2 s hs)
  · exact h

theorem LiveAt.removeAll (h : LiveAt fs n) (p : Slot → Bool) : LiveAt (fs.removeAll p) n := by
  unfold FolderState.removeAll
  split
  · exact fun s hs => h s ((fs.sweep_ok p).2 s hs)
  · exact h

theorem LiveAt.store (h : LiveAt fs n) {m : SyncMeta} (hm : m.deleted = false) (blocks : List Hash)
    (mem : UpsertMem) : LiveAt (fs.store m blocks mem) n := by
  unfold FolderState.store
  split
  · exact h
  · intro s hs hn
    rcases Keyed.eq_or_mem_of_mem_upsert hs with rfl | hs
    · exact hm
    · exact h s hs hn

/-- A mirror's entry makes no tombstone. -/
theorem LiveAt.scanEntry (hmode : env.mode = .receiveOnly) (h : LiveAt fs n) :
    LiveAt (scanEntry env present fs e) n := by
  unfold Amisync.scanEntry
  split
  · unfold commitDir
    split
    · exact h.setSeen _
    · exact LiveAt.setSeen (h.store rfl _ _) _
  · split
    · exact h
    · split
      · exact h.forget _
      · exact h.setSeen _

theorem LiveAt.scan (hmode : env.mode = .receiveOnly) (es : List FolderEntry) (h : LiveAt fs n) :
    LiveAt (es.foldl (Amisync.scanEntry env present) fs) n := by
  induction es generalizing fs with
  | nil => exact h
  | cons e es ih => exact ih (h.scanEntry hmode)

end Mirror

/-! ## A complete pass -/

/-- What is on disk is what the record says. -/
def AsRecorded (tz : Int) (r : SyncMeta) : Tree → Prop
  | .file size modifiedS => r.type = .file ∧ size = r.size ∧
      (modifiedS = r.modifiedS ∨ modifiedS = folderMtimeOnDisk tz r.modifiedS)
  | .drawer _ _ _ => r.type = .directory

/-- The record's file is there, unchanged, at its local name. -/
def OnDisk (env : ScanEnv) (root : Tree) (r : SyncMeta) : Prop :=
  ∃ lname t, toLocal r.name = some lname ∧
    root.lookup env.fold (components lname) = some t ∧ AsRecorded env.tz r t

theorem OnDisk.exists {env : ScanEnv} {root : Tree} {r : SyncMeta} (h : OnDisk env root r) :
    root.exists env r.name = true := by
  obtain ⟨lname, t, hl, ht, -⟩ := h
  unfold Tree.exists
  rw [hl]
  dsimp only
  split
  · rfl
  · rw [ht]
    rfl

/-- **One record.** A complete pass tombstones a live and valid record whose file is on disk
exactly when the name is not ignored and the walk does not reach it. -/
theorem scan_record (env : ScanEnv) (root : Tree) (fs : FolderState)
    (hmode : env.mode ≠ .receiveOnly) {s : Slot} (hs : s ∈ fs.files)
    (hlive : s.record.deleted = false) (hdisk : OnDisk env root s.record) :
    ∃ t, (sweepDeletions env fs.sequence ((walk env.ign root env.path [] 0).foldl
        (scanEntry env (root.exists env)) fs.clearSeen)).find s.name = some t ∧
      (t.record.deleted = true ↔ s.record.invalid = false ∧ env.ign s.name = false ∧
        ¬ Reaches env.ign s.name root env.path [] 0) := by
  have hclear : fs.clearSeen.find s.name = some { s with seen := false } := by
    unfold FolderState.clearSeen
    rw [fs.find_setSeen, fs.find_of_mem hs]
    rfl
  have hex : root.exists env s.name = true := hdisk.exists
  obtain ⟨u, hu, hul, hcase⟩ :=
    scan_marks hmode hex (walk env.ign root env.path [] 0) hclear hlive
  rw [mem_walk_iff] at hcase
  obtain ⟨t, ht, hiff⟩ := sweepDeletions_find hu hul
  refine ⟨t, ht, hiff.trans ?_⟩
  rcases hcase with ⟨hreach, hseen⟩ | ⟨hreach, rfl⟩
  · simp [hseen, hreach]
  · have hseq := (fs.seqOk s hs).2
    simp [hreach, hseq]

/-- **Spared.** No file on disk is tombstoned by a complete pass exactly when the folder is
receive-only, or each live and valid record of such a file is ignored or reached. -/
theorem scan_spares_iff (env : ScanEnv) (root : Tree) (stop : Option Nat) (fs fs' : FolderState)
    (h : scanFolder env (some root) stop fs = (fs', true)) :
    (∀ s ∈ fs.files, s.record.deleted = false → OnDisk env root s.record →
      ∀ t ∈ fs'.files, t.name = s.name → t.record.deleted = false) ↔
    (env.mode = .receiveOnly ∨
      ∀ s ∈ fs.files, s.record.deleted = false → s.record.invalid = false →
        OnDisk env root s.record → env.ign s.name = true ∨
          Reaches env.ign s.name root env.path [] 0) := by
  unfold scanFolder scanPass at h
  dsimp only at h
  split at h
  · simp at h
  · simp only [Prod.mk.injEq, and_true] at h
    by_cases hmode : env.mode = .receiveOnly
    · rw [if_pos hmode] at h
      refine ⟨fun _ => Or.inl hmode, fun _ s hs hlive _ => ?_⟩
      have hstart : LiveAt fs s.name := by
        intro t ht hn
        have hf := fs.find_of_mem ht
        rw [hn, fs.find_of_mem hs, Option.some.injEq] at hf
        exact hf ▸ hlive
      rw [← h]
      exact LiveAt.removeAll (LiveAt.scan hmode _ (hstart.setSeen _)) _
    · rw [if_neg hmode] at h
      have hrec : ∀ s ∈ fs.files, s.record.deleted = false → OnDisk env root s.record →
          ((∀ t ∈ fs'.files, t.name = s.name → t.record.deleted = false) ↔
            (s.record.invalid = false →
              env.ign s.name = true ∨ Reaches env.ign s.name root env.path [] 0)) := by
        intro s hs hlive hdisk
        obtain ⟨t, ht, hiff⟩ := scan_record env root fs hmode hs hlive hdisk
        rw [h] at ht
        have hall : (∀ u ∈ fs'.files, u.name = s.name → u.record.deleted = false) ↔
            t.record.deleted = false := by
          constructor
          · intro hu
            obtain ⟨hm, hn⟩ := fs'.mem_of_find ht
            exact hu t hm hn
          · intro ht' u hu hn
            have hf := fs'.find_of_mem hu
            rw [hn, ht, Option.some.injEq] at hf
            exact hf ▸ ht'
        rw [hall, ← Bool.not_eq_true, hiff]
        cases env.ign s.name <;> simp
      constructor
      · intro hsp
        exact Or.inr fun s hs hlive hv hdisk => (hrec s hs hlive hdisk).mp (hsp s hs hlive hdisk) hv
      · rintro (hro | hcov)
        · exact absurd hro hmode
        · exact fun s hs hlive hdisk =>
            (hrec s hs hlive hdisk).mpr fun hv => hcov s hs hlive hv hdisk

/-! ## One received file -/

/-- The record of a file of one byte, as a peer announced it. -/
def receivedRecord (name : Name) : SyncMeta :=
  { SyncMeta.zero name with
    size := 1
    modifiedS := 300000000
    blockSize := 131072
    contentHash := some (sampleHash 7)
    version := BepVector.single 2 5 }

/-- An index that holds nothing else. -/
def receivedIndex (name : Name) : FolderState :=
  (FolderState.empty 1).store (receivedRecord name) [sampleHash 3] ⟨true, true⟩

/-- A folder that holds nothing else. -/
def receivedTree (name : Bytes) : Tree :=
  .drawer 1 0 (.cons name (.file 1 300000000) .nil)

def plainScan : ScanEnv where
  mode := .sendReceive
  ign := fun _ => false
  tz := 0
  path := [87, 58]
  fold := id
  hash := fun _ => .unreadable
  stamp := fun _ => 0
  mem := fun _ => ⟨true, true⟩
  now := 400000000

/-- `x.amitmp` -/
def tempLikeName : Name := 120 :: amitmp

/-- A file whose name ends like a temporary one is received, and then announced as deleted. -/
theorem scan_tombstones_received : pathNameSafe tempLikeName = true ∧
    (scanFolder plainScan (some (receivedTree tempLikeName)) none
      (receivedIndex tempLikeName)).2 = true ∧
    ∃ s ∈ (receivedIndex tempLikeName).files, s.record.deleted = false ∧
      OnDisk plainScan (receivedTree tempLikeName) s.record ∧
      ∃ t ∈ (scanFolder plainScan (some (receivedTree tempLikeName)) none
        (receivedIndex tempLikeName)).1.files, t.name = s.name ∧ t.record.deleted = true := by
  refine ⟨by decide, by decide, _, List.mem_cons_self, rfl, ⟨tempLikeName, .file 1 300000000, by decide,
    rfl, rfl, rfl, Or.inl rfl⟩, _, List.mem_cons_self, rfl, rfl⟩

/-- A file `x` is spared. -/
theorem scan_spares_received : LiveAt (scanFolder plainScan (some (receivedTree [120])) none
    (receivedIndex [120])).1 [120] := by
  have hslot : ∀ s ∈ (receivedIndex [120]).files, s.name = [120] := by decide
  have hcond : plainScan.mode = .receiveOnly ∨ ∀ s ∈ (receivedIndex [120]).files,
      s.record.deleted = false → s.record.invalid = false →
        OnDisk plainScan (receivedTree [120]) s.record → plainScan.ign s.name = true ∨
          Reaches plainScan.ign s.name (receivedTree [120]) plainScan.path [] 0 := by
    refine Or.inr fun s hs _ _ _ => Or.inr ?_
    rw [hslot s hs]
    exact .here List.mem_cons_self (by decide)
  exact (scan_spares_iff plainScan (receivedTree [120]) none (receivedIndex [120]) _
    (Prod.ext rfl (by decide))).mpr hcond _ List.mem_cons_self rfl
    ⟨[120], .file 1 300000000, by decide, rfl, rfl, rfl, Or.inl rfl⟩

end Amisync

import Amisync.ConfigRemove

/-!
# What is loaded after a line has been deleted

The loader and the editor know an entry by two grammars of their own. The loader
takes a key in any case, a word in quotes, every kind of blank and no more than
63 characters of a word, and it cuts a long line; the editor does none of this.

* `Agrees`: both find the same on a line. `table_of_agrees`: where they agree on all
  lines, one entry is gone and the others are as before.
* `first_found`, `all_found`: where they do not, the entry comes back.
* `entry_removed`: this said of a text and of the two tables.
* `peerRead_of_plain`, `folderRead_of_plain`: they agree on a line with spaces and
  tabs that has the key as it is written and no quotes.
-/

namespace Amisync.ConfigFile

open Ctype

/-! ## What is loaded of the lines that are left -/

/-- What is read of a line. -/
def linePieces (l : Str) : List Str := TextLines.pieces nl lineRoom (l ++ [nl])

def peersOn (l : Str) : List ConfigPeer := (linePieces l).filterMap peerOf

def foldersOn (l : Str) : List ConfigFolder := (linePieces l).filterMap folderOf

def settingsOn (l : Str) : List (Str × Str) := (linePieces l).filterMap settingOf

section Loaded
variable (cfg : Config) (ls : List Str)

theorem foldl_loadLine : ls.foldl loadLine cfg = loadPieces cfg (ls.flatMap linePieces) := by
  rw [← loadPieces_unlines, TextLines.pieces_unlines]
  rfl

theorem peers_of_lines : (ls.foldl loadLine cfg).peers =
    Roster.run peerKey configMaxPeers cfg.peers (ls.flatMap peersOn) := by
  rw [foldl_loadLine, peers_foldl, List.filterMap_flatMap]
  rfl

theorem folders_of_lines : (ls.foldl loadLine cfg).folders =
    Roster.run ConfigFolder.id configMaxFolders cfg.folders (ls.flatMap foldersOn) := by
  rw [foldl_loadLine, folders_foldl, List.filterMap_flatMap]
  rfl

theorem settings_of_lines : (ls.foldl loadLine cfg).settings =
    (ls.flatMap settingsOn).foldl (fun s kv => applyScalar s kv.1 kv.2) cfg.settings := by
  rw [foldl_loadLine, settings_foldl, List.filterMap_flatMap]
  rfl

theorem foldl_noNotes : (noNotes ls).foldl loadLine cfg = ls.foldl loadLine cfg := by
  induction ls generalizing cfg with
  | nil => rfl
  | cons l ls ih =>
    unfold noNotes at ih ⊢
    by_cases hl : l = runtimeNote
    · rw [List.filter_cons_of_neg (by simp [hl]), List.foldl_cons, ih, hl, loadLine_runtimeNote]
    · rw [List.filter_cons_of_pos (by simp [hl]), List.foldl_cons, List.foldl_cons, ih]

/-- The notes that are deleted make no difference. -/
theorem foldl_kept (m : Str → Bool) :
    (kept m ls).foldl loadLine cfg = (ls.filter fun l => !m l).foldl loadLine cfg := by
  rw [← foldl_noNotes, noNotes_kept, foldl_noNotes]

end Loaded

/-! ## Two grammars for a line -/

section Grammars
variable {α κ : Type} [DecidableEq κ] (offers : Str → List α) (key : α → κ) (k : κ) (m : Str → Bool)

/-- Where the loader finds the key, the line is deleted, and the loader finds no other key on it. -/
structure Agrees (l : Str) : Prop where
  found : ∀ a ∈ offers l, key a = k → m l = true
  alone : m l = true → ∀ a ∈ offers l, key a = k

/-- The first line that offers the key. -/
def FirstOffers (ls : List Str) (l : Str) : Prop :=
  ∃ pre post, ls = pre ++ l :: post ∧ (∀ x ∈ pre, ∀ a ∈ offers x, key a ≠ k) ∧ ∃ a ∈ offers l, key a = k

variable {offers key k m} {cap : Nat} {ls : List Str}

theorem others_of_agrees (h : ∀ l ∈ ls, Agrees offers key k m l) :
    (ls.filter fun l => !m l).flatMap offers = Roster.others key k (ls.flatMap offers) := by
  induction ls with
  | nil => rfl
  | cons l ls ih =>
    have hl := h l List.mem_cons_self
    have hrest := ih fun x hx => h x (List.mem_cons_of_mem l hx)
    have hsplit : Roster.others key k ((l :: ls).flatMap offers) =
        Roster.others key k (offers l) ++ Roster.others key k (ls.flatMap offers) := by
      rw [List.flatMap_cons, Roster.others, List.filter_append]
      rfl
    rw [hsplit, ← hrest]
    cases hm : m l with
    | true =>
      have hnone : Roster.others key k (offers l) = [] := by
        refine List.filter_eq_nil_iff.mpr ?_
        intro a ha
        simp [hl.alone hm a ha]
      rw [hnone, List.filter_cons_of_neg (by simp [hm]), List.nil_append]
    | false =>
      have hall : Roster.others key k (offers l) = offers l := by
        refine List.filter_eq_self.mpr ?_
        intro a ha
        rw [decide_eq_true_iff]
        intro hkey
        rw [hl.found a ha hkey] at hm
        simp at hm
      rw [hall, List.filter_cons_of_pos (by simp [hm]), List.flatMap_cons]

/-- Lines that offer nothing are not missed. -/
theorem flatMap_of_silent {β : Type} {offers : Str → List β} (h : ∀ l ∈ ls, m l = true → offers l = []) :
    (ls.filter fun l => !m l).flatMap offers = ls.flatMap offers := by
  induction ls with
  | nil => rfl
  | cons l ls ih =>
    have hrest := ih fun x hx => h x (List.mem_cons_of_mem l hx)
    rw [List.flatMap_cons, ← hrest]
    cases hm : m l with
    | true =>
      rw [List.filter_cons_of_neg (by simp [hm]), h l List.mem_cons_self hm]
      rfl
    | false => rw [List.filter_cons_of_pos (by simp [hm]), List.flatMap_cons]

variable (cap) in
/-- **Where they agree**, the table is the same but for the key. -/
theorem table_of_agrees (h : ∀ l ∈ ls, Agrees offers key k m l) :
    (∀ a ∈ Roster.run key cap [] ((ls.filter fun l => !m l).flatMap offers), key a ≠ k) ∧
      Roster.others key k (Roster.run key cap [] (ls.flatMap offers)) <+:
        Roster.run key cap [] ((ls.filter fun l => !m l).flatMap offers) := by
  rw [others_of_agrees h]
  refine ⟨?_, Roster.others_run key cap k _⟩
  intro a ha
  rcases Roster.mem_of_run ha with ha | ha
  · simp at ha
  · simpa using (List.mem_filter.mp ha).2

theorem mem_of_filtered (pre : List Str) :
    (pre.filter fun l => !m l).flatMap offers ⊆ pre.flatMap offers := by
  intro x hx
  obtain ⟨y, hy, hxy⟩ := List.mem_flatMap.mp hx
  exact List.mem_flatMap.mpr ⟨y, (List.mem_filter.mp hy).1, hxy⟩

/-- The first line that offers the key brings it back, if it stays. -/
theorem first_found (hthere : ∃ a ∈ Roster.run key cap [] (ls.flatMap offers), key a = k)
    (hgone : ∀ a ∈ Roster.run key cap [] ((ls.filter fun l => !m l).flatMap offers), key a ≠ k) {l : Str}
    (hl : FirstOffers offers key k ls l) : m l = true := by
  obtain ⟨pre, post, rfl, hpre, a, ha, hkey⟩ := hl
  by_contra hm
  rw [Bool.not_eq_true] at hm
  obtain ⟨b, hb⟩ : ∃ b, (offers l).find? (fun x => key x = k) = some b := by
    refine Option.isSome_iff_exists.mp (List.find?_isSome.mpr ⟨a, ha, ?_⟩)
    simpa using hkey
  obtain ⟨hbk, before, after, hoffers, hbefore⟩ := List.find?_eq_some_iff_append.mp hb
  rw [decide_eq_true_iff] at hbk
  subst hbk
  have hold : (pre ++ l :: post).flatMap offers =
      (pre.flatMap offers ++ before) ++ b :: (after ++ post.flatMap offers) := by
    simp [hoffers]
  have hnew : ((pre ++ l :: post).filter fun l => !m l).flatMap offers =
      ((pre.filter fun l => !m l).flatMap offers ++ before) ++
        b :: (after ++ (post.filter fun l => !m l).flatMap offers) := by
    rw [List.filter_append, List.filter_cons_of_pos (by simp [hm])]
    simp [hoffers]
  have hfirst : ∀ x ∈ pre.flatMap offers ++ before, key x ≠ key b := by
    intro x hx
    rcases List.mem_append.mp hx with hx | hx
    · obtain ⟨y, hy, hxy⟩ := List.mem_flatMap.mp hx
      exact hpre y hy x hxy
    · simpa using hbefore x hx
  have hsub : (pre.filter fun l => !m l).flatMap offers ++ before ⊆ pre.flatMap offers ++ before := by
    intro x hx
    rcases List.mem_append.mp hx with hx | hx
    · exact List.mem_append_left _ (mem_of_filtered pre hx)
    · exact List.mem_append_right _ hx
  rw [hold] at hthere
  rw [hnew] at hgone
  obtain ⟨c, hc, hck⟩ := Roster.taken_of_fewer hfirst hthere hsub
  exact hgone c hc hck

/-- Any line does, if there is room. -/
theorem all_found (hroom : (Roster.run key cap [] (ls.flatMap offers)).length < cap)
    (hgone : ∀ a ∈ Roster.run key cap [] ((ls.filter fun l => !m l).flatMap offers), key a ≠ k) {l : Str}
    (hl : l ∈ ls) {a : α} (ha : a ∈ offers l) (hkey : key a = k) : m l = true := by
  by_contra hm
  rw [Bool.not_eq_true] at hm
  have hlt := Nat.lt_of_le_of_lt (Roster.length_run_of_subset (mem_of_filtered (m := m) ls) hroom) hroom
  have hoffered : a ∈ (ls.filter fun l => !m l).flatMap offers :=
    List.mem_flatMap.mpr ⟨l, List.mem_filter.mpr ⟨hl, by simp [hm]⟩, ha⟩
  obtain ⟨b, hb, hbk⟩ := Roster.key_of_offered hlt hoffered
  exact hgone b hb (hbk.trans hkey)

end Grammars

/-! ## The two tables -/

/-- What is loaded of a text into tables that are empty. -/
def loaded (s : Settings) (text : Str) : Config := configLoad (some text) ⟨s, [], []⟩

/-- Without one device, and otherwise as before. -/
structure WithoutPeer (id : Str) (old new : Config) : Prop where
  gone : ∀ q ∈ new.peers, deviceIdEqual q.id id = false
  peers : (old.peers.filter fun q => !deviceIdEqual q.id id) <+: new.peers
  folders : new.folders = old.folders
  settings : new.settings = old.settings

/-- Without one folder, and otherwise as before. -/
structure WithoutFolder (id : Str) (old new : Config) : Prop where
  gone : ∀ f ∈ new.folders, f.id ≠ id
  folders : (old.folders.filter fun f => f.id ≠ id) <+: new.folders
  peers : new.peers = old.peers
  settings : new.settings = old.settings

/-- The text is written, and loaded without the device. -/
def RemovesPeer (s : Settings) (path text id : Str) : Prop :=
  ∃ new, configRemovePeer path (some text) id = some new ∧ WithoutPeer id (loaded s text) (loaded s new)

def RemovesFolder (s : Settings) (path text id : Str) : Prop :=
  ∃ new, configRemoveFolder path (some text) id = some new ∧ WithoutFolder id (loaded s text) (loaded s new)

/-- On a line about a device, both grammars find the device and nothing else. -/
structure PeerRead (id l : Str) : Prop where
  agrees : Agrees peersOn peerKey (deviceIdNormalize id) (fun l => isPeerLineFor l id) l
  nothing_else : isPeerLineFor l id = true → foldersOn l = [] ∧ settingsOn l = []

structure FolderRead (id l : Str) : Prop where
  agrees : Agrees foldersOn ConfigFolder.id id (fun l => isFolderLineFor l id) l
  nothing_else : isFolderLineFor l id = true → peersOn l = [] ∧ settingsOn l = []

section Tables
variable {s : Settings} {path text id : Str}

theorem loaded_eq (s : Settings) (text : Str) :
    loaded s text = (TextLines.lines nl text).foldl loadLine ⟨s, [], []⟩ :=
  configLoad_eq text _

/-- Of a text that is written, what is left is loaded. -/
theorem loaded_new {m : Str → Bool} {new : Str} (h : TextLines.lines nl new = kept m (TextLines.lines nl text)) :
    loaded s new = ((TextLines.lines nl text).filter fun l => !m l).foldl loadLine ⟨s, [], []⟩ := by
  rw [loaded_eq, h, foldl_kept]

theorem deviceIdEqual_valid (hid : deviceIdNormalize id ≠ none) (a : Str) :
    deviceIdEqual a id = true ↔ deviceIdNormalize a = deviceIdNormalize id := by
  obtain ⟨canon, hcanon⟩ := Option.ne_none_iff_exists'.mp hid
  unfold deviceIdEqual
  rw [hcanon]
  cases deviceIdNormalize a <;> simp

theorem deviceIdEqual_false_iff (hid : deviceIdNormalize id ≠ none) (q : ConfigPeer) :
    deviceIdEqual q.id id = false ↔ peerKey q ≠ deviceIdNormalize id := by
  rw [← Bool.not_eq_true, deviceIdEqual_valid hid]
  rfl

/-- A peer comes from a line, and its id is valid. -/
theorem line_of_peer {p : ConfigPeer} (hp : p ∈ (loaded s text).peers) :
    (∃ l ∈ TextLines.lines nl text, p ∈ peersOn l) ∧ deviceIdNormalize p.id ≠ none := by
  rw [loaded_eq, peers_of_lines] at hp
  rcases Roster.mem_of_run hp with hp | hp
  · simp at hp
  · obtain ⟨l, hl, hpl⟩ := List.mem_flatMap.mp hp
    refine ⟨⟨l, hl, hpl⟩, ?_⟩
    obtain ⟨piece, -, hpiece⟩ := List.mem_filterMap.mp hpl
    obtain ⟨kv, -, hkv⟩ := Option.bind_eq_some_iff.mp hpiece
    split at hkv
    · exact (peerKey_of_token hkv).2
    · simp at hkv

theorem line_of_folder {f : ConfigFolder} (hf : f ∈ (loaded s text).folders) :
    ∃ l ∈ TextLines.lines nl text, f ∈ foldersOn l := by
  rw [loaded_eq, folders_of_lines] at hf
  rcases Roster.mem_of_run hf with hf | hf
  · simp at hf
  · exact List.mem_flatMap.mp hf

theorem removesPeer_of_read (hio : Editable path text) {p : ConfigPeer} (hp : p ∈ (loaded s text).peers)
    (hread : ∀ l ∈ TextLines.lines nl text, PeerRead p.id l) : RemovesPeer s path text p.id := by
  obtain ⟨⟨l, hl, hpl⟩, hid⟩ := line_of_peer hp
  have hne : p.id ≠ [] := by
    intro hnil
    rw [hnil] at hid
    exact hid (by decide)
  obtain ⟨new, hnew, hkept⟩ := removeMatching_some (m := isPeerLineFor) hio hne
    ⟨l, hl, (hread l hl).agrees.found p hpl rfl⟩
  refine ⟨new, hnew, ?_⟩
  obtain ⟨hgone, hothers⟩ := table_of_agrees configMaxPeers fun x hx => (hread x hx).agrees
  have hsame : (fun q : ConfigPeer => !deviceIdEqual q.id p.id) =
      fun q => decide (peerKey q ≠ deviceIdNormalize p.id) := by
    funext q
    rw [Bool.eq_iff_iff, Bool.not_eq_true', decide_eq_true_iff]
    exact deviceIdEqual_false_iff hid q
  rw [loaded_new hkept, loaded_eq]
  refine ⟨?_, ?_, ?_, ?_⟩
  · rw [peers_of_lines]
    intro q hq
    exact (deviceIdEqual_false_iff hid q).mpr (hgone q hq)
  · rw [peers_of_lines, peers_of_lines, hsame]
    exact hothers
  · rw [folders_of_lines, folders_of_lines,
      flatMap_of_silent fun x hx hm => ((hread x hx).nothing_else hm).1]
  · rw [settings_of_lines, settings_of_lines,
      flatMap_of_silent fun x hx hm => ((hread x hx).nothing_else hm).2]

theorem removesFolder_of_read (hio : Editable path text) {f : ConfigFolder} (hf : f ∈ (loaded s text).folders)
    (hne : f.id ≠ []) (hread : ∀ l ∈ TextLines.lines nl text, FolderRead f.id l) :
    RemovesFolder s path text f.id := by
  obtain ⟨l, hl, hfl⟩ := line_of_folder hf
  obtain ⟨new, hnew, hkept⟩ := removeMatching_some (m := isFolderLineFor) hio hne
    ⟨l, hl, (hread l hl).agrees.found f hfl rfl⟩
  refine ⟨new, hnew, ?_⟩
  obtain ⟨hgone, hothers⟩ := table_of_agrees configMaxFolders fun x hx => (hread x hx).agrees
  rw [loaded_new hkept, loaded_eq]
  refine ⟨?_, ?_, ?_, ?_⟩
  · rw [folders_of_lines]
    exact hgone
  · rw [folders_of_lines, folders_of_lines]
    exact hothers
  · rw [peers_of_lines, peers_of_lines,
      flatMap_of_silent fun x hx hm => ((hread x hx).nothing_else hm).1]
  · rw [settings_of_lines, settings_of_lines,
      flatMap_of_silent fun x hx hm => ((hread x hx).nothing_else hm).2]

end Tables

/-! ## Plain lines -/

/-- A line that is read at once, with no blanks but spaces and tabs; its key, if it is this one, is
written as it is here, and the first word after it has no quote before it and is not too long. -/
structure PlainLine (key : Str) (cap : Nat) (l : Str) : Prop where
  fits : l.length < lineRoom
  blanks : ∀ c ∈ l, isspace c = true → blank c = true
  word : ∀ kv, parseLine l = some kv → ciEqual kv.1 key = true →
    kv.1 = key ∧ kv.2.head? ≠ some quote ∧ tokenLen kv.2 < cap

theorem plainLine_iff {key : Str} {cap : Nat} {l : Str} : PlainLine key cap l ↔
    l.length < lineRoom ∧ (l.all fun c => !isspace c || blank c) = true ∧
      ∀ kv ∈ parseLine l, ciEqual kv.1 key = true → kv.1 = key ∧ kv.2.head? ≠ some quote ∧ tokenLen kv.2 < cap := by
  have hblanks : (l.all fun c => !isspace c || blank c) = true ↔ ∀ c ∈ l, isspace c = true → blank c = true := by
    rw [List.all_eq_true]
    refine forall₂_congr fun c _ => ?_
    cases isspace c <;> simp
  rw [hblanks]
  exact ⟨fun h => ⟨h.fits, h.blanks, h.word⟩, fun h => ⟨h.1, h.2.1, h.2.2⟩⟩

instance (key : Str) (cap : Nat) (l : Str) : Decidable (PlainLine key cap l) := decidable_of_iff' _ plainLine_iff

section Plain
variable {l key : Str}

theorem isspace_eq_blank (h : ∀ c ∈ l, isspace c = true → blank c = true) {c : UInt8} (hc : c ∈ l) :
    isspace c = blank c := by
  rw [Bool.eq_iff_iff]
  exact ⟨h c hc, isspace_of_blank c⟩

/-- Where blanks are spaces and tabs, both grammars skip the same, and both stop at the same place. -/
theorem while_eq_of_blanks (h : ∀ c ∈ l, isspace c = true → blank c = true) :
    l.dropWhile isspace = l.dropWhile blank ∧
      (l.takeWhile fun c => !isspace c) = l.takeWhile fun c => !blank c := by
  induction l with
  | nil => exact ⟨rfl, rfl⟩
  | cons c l ih =>
    have hc := isspace_eq_blank h List.mem_cons_self
    obtain ⟨hdrop, htake⟩ := ih fun d hd => h d (List.mem_cons_of_mem c hd)
    constructor
    · rw [List.dropWhile_cons, List.dropWhile_cons, hc, hdrop]
    · rw [List.takeWhile_cons, List.takeWhile_cons, hc, htake]

/-- A key as the file has it: a word that does not look like a comment. -/
structure KeyWord (key : Str) : Prop where
  ne : key ≠ []
  chars : ∀ c ∈ key, isspace c = false ∧ c ≠ 59 ∧ c ≠ 35 ∧ c ≠ 91 ∧ c ≠ 61

theorem KeyWord.of_all (hne : key ≠ [])
    (h : (key.all fun c => !isspace c && c ≠ 59 && c ≠ 35 && c ≠ 91 && c ≠ 61) = true) : KeyWord key := by
  refine ⟨hne, ?_⟩
  intro c hc
  have hok := List.all_eq_true.mp h c hc
  simpa [and_assoc] using hok

theorem KeyWord.trim_eq (hkey : KeyWord key) : trim key = key := by
  obtain ⟨c, t, rfl⟩ := List.exists_cons_of_ne_nil hkey.ne
  have hall : ∀ d ∈ c :: t, isspace d = false := fun d hd => (hkey.chars d hd).1
  have hlast : rtrim (c :: t) = c :: t := by
    refine List.rdropWhile_eq_self_iff.mpr ?_
    intro hne
    simp [hall _ (List.getLast_mem hne)]
  unfold trim
  rw [List.dropWhile_cons_of_neg (by simp [hall c List.mem_cons_self]), hlast]

/-- What a line is made of, if it sets something. -/
theorem parts_of_parseLine {k v : Str} (h : parseLine l = some (k, v)) :
    ∃ a r, trim l = a ++ 61 :: r ∧ k = trim a ∧ v = trim r := by
  unfold parseLine at h
  split at h
  · simp at h
  · rename_i c p htrim
    split at h
    · simp at h
    · split at h
      · rename_i hmem
        obtain ⟨r, hr⟩ : ∃ r, (c :: p).dropWhile (fun d => decide (d ≠ 61)) = 61 :: r := by
          cases hd : (c :: p).dropWhile (fun d => decide (d ≠ 61)) with
          | nil =>
            have hno := List.dropWhile_eq_nil_iff.mp hd 61 hmem
            simp at hno
          | cons d r =>
            have hhead := List.head?_dropWhile_not (fun d => decide (d ≠ 61)) (c :: p)
            rw [hd] at hhead
            exact ⟨r, by simpa using hhead⟩
        refine ⟨(c :: p).takeWhile (fun d => decide (d ≠ 61)), r, ?_, ?_, ?_⟩
        · rw [htrim, ← hr, List.takeWhile_append_dropWhile]
        · exact (congrArg Prod.fst (Option.some.inj h)).symm
        · rw [hr, List.tail_cons] at h
          exact (congrArg Prod.snd (Option.some.inj h)).symm
      · simp at h

/-- What is set is what both find after the key, but for the blanks at the end. -/
theorem parseLine_of_valueOf (hkey : KeyWord key) (hblanks : ∀ c ∈ l, isspace c = true → blank c = true) {v : Str}
    (h : valueOf l key = some v) : parseLine l = some (key, rtrim v) := by
  obtain ⟨w, r, hl, hw, rfl⟩ := split_of_valueOf h
  obtain ⟨c, t, rfl⟩ := List.exists_cons_of_ne_nil hkey.ne
  have hmem : ∀ d ∈ r, d ∈ l := by
    intro d hd
    refine (List.dropWhile_suffix blank).subset ?_
    rw [hl]
    simp [hd]
  have htrim : trim l = c :: (t ++ w ++ 61 :: rtrim r) := by
    have hend : rtrim (c :: t ++ w ++ 61 :: r) = c :: t ++ w ++ 61 :: rtrim r := rtrim_append_of_last (by decide)
    unfold trim
    rw [(while_eq_of_blanks hblanks).1, hl, ← List.append_assoc, hend]
    rfl
  have hno : (61 : UInt8) ∉ c :: t ++ w := by
    intro hmem
    rcases List.mem_append.mp hmem with hmem | hmem
    · exact (hkey.chars 61 hmem).2.2.2.2 rfl
    · exact absurd (hw 61 hmem) (by decide)
  have hstart : ¬ (c = 59 || c = 35 || c = 91) = true := by
    obtain ⟨-, hsemi, hhash, hbracket, -⟩ := hkey.chars c List.mem_cons_self
    simp [hsemi, hhash, hbracket]
  have hleft : trim (c :: t ++ w) = c :: t := by
    rw [trim_append_blank fun d hd => isspace_of_blank d (hw d hd), hkey.trim_eq]
  have hright : trim (rtrim r) = rtrim (r.dropWhile blank) := by
    rw [trim_rtrim, trim, (while_eq_of_blanks fun d hd => hblanks d (hmem d hd)).1]
  have hparts : c :: (t ++ w ++ 61 :: rtrim r) = (c :: t ++ w) ++ 61 :: rtrim r := by simp
  rw [parseLine_of_trim htrim hstart hparts hno, hleft, hright]

theorem valueOf_of_parseLine (hkey : KeyWord key) (hblanks : ∀ c ∈ l, isspace c = true → blank c = true) {v : Str}
    (h : parseLine l = some (key, v)) : ∃ w, valueOf l key = some w ∧ rtrim w = v := by
  obtain ⟨a, r, htrim, hk, rfl⟩ := parts_of_parseLine h
  have hsplit : rtrim (l.dropWhile isspace) ++ (l.dropWhile isspace).rtakeWhile isspace = l.dropWhile isspace :=
    List.rdropWhile_append_rtakeWhile
  have hend : ∀ d ∈ (l.dropWhile isspace).rtakeWhile isspace, isspace d = true := fun _ => List.mem_rtakeWhile_imp
  generalize (l.dropWhile isspace).rtakeWhile isspace = e at hsplit hend
  have hline : l.dropWhile isspace = a ++ 61 :: (r ++ e) := by
    rw [← hsplit, ← trim, htrim]
    simp
  -- the key is what stands before the sign, but for the blanks after it
  have ha : a = key ++ a.rtakeWhile isspace := by
    cases a with
    | nil => exact absurd hk hkey.ne
    | cons c a =>
      have hc := List.head?_dropWhile_not isspace l
      rw [hline] at hc
      have hc : isspace c = false := hc
      rw [trim, List.dropWhile_cons_of_neg (by simp [hc])] at hk
      rw [hk]
      exact List.rdropWhile_append_rtakeWhile.symm
  have hmem : ∀ d ∈ a ++ 61 :: (r ++ e), d ∈ l := by
    intro d hd
    rw [← hline] at hd
    exact (List.dropWhile_suffix isspace).subset hd
  have hw : ∀ d ∈ a.rtakeWhile isspace, blank d = true := by
    intro d hd
    refine hblanks d (hmem d (List.mem_append_left _ ?_)) (List.mem_rtakeWhile_imp hd)
    exact (List.rtakeWhile_suffix isspace a).subset hd
  have hl : l.dropWhile blank = key ++ (a.rtakeWhile isspace ++ 61 :: (r ++ e)) := by
    rw [← (while_eq_of_blanks hblanks).1, hline, ← List.append_assoc, ← ha]
  refine ⟨_, valueOf_of_split ?_ hkey.ne hl hw, ?_⟩
  · intro c hc
    obtain ⟨-, hsemi, hhash, -⟩ := hkey.chars c (List.mem_of_head? hc)
    exact ⟨hsemi, hhash⟩
  · have hblanks' : ∀ d ∈ r ++ e, isspace d = true → blank d = true := by
      intro d hd
      exact hblanks d (hmem d (List.mem_append_right _ (List.mem_cons_of_mem _ hd)))
    rw [← (while_eq_of_blanks hblanks').1, ← trim, trim_append_blank hend]

theorem ciEqual_self (s : Str) : ciEqual s s = true := by
  induction s with
  | nil => rfl
  | cons c s ih => simp [ciEqual, ih]

/-- The first word is the same for both. -/
theorem token_of_plain {cap : Nat} {w : Str} (hkey : KeyWord key) (h : PlainLine key cap l)
    (hw : valueOf l key = some w) :
    tokenLen w < cap ∧ (w = [] ∧ nextToken cap (rtrim w) = none ∨
      0 < tokenLen w ∧ ∃ rest, nextToken cap (rtrim w) = some (w.take (tokenLen w), rest)) := by
  obtain ⟨-, hquote, hshort⟩ := h.word _ (parseLine_of_valueOf hkey h.blanks hw) (ciEqual_self key)
  dsimp only at hquote hshort
  obtain ⟨u, r, hl, -, hr⟩ := split_of_valueOf hw
  have hblanks : ∀ d ∈ w, isspace d = true → blank d = true := by
    intro d hd
    refine h.blanks d ((List.dropWhile_suffix blank).subset ?_)
    rw [hr] at hd
    rw [hl]
    simp [(List.dropWhile_suffix blank).subset hd]
  have htoken : (rtrim w).takeWhile (fun c => !isspace c) = w.take (tokenLen w) := by
    rw [takeWhile_rtrim, (while_eq_of_blanks hblanks).2]
    exact List.prefix_iff_eq_take.mp (List.takeWhile_prefix _)
  have hlen : tokenLen (rtrim w) = tokenLen w := by
    have hsub : ∀ d ∈ rtrim w, isspace d = true → blank d = true := by
      intro d hd
      exact hblanks d ((List.rdropWhile_prefix isspace w).subset hd)
    rw [tokenLen, tokenLen, ← (while_eq_of_blanks hsub).2, ← (while_eq_of_blanks hblanks).2, takeWhile_rtrim]
  rw [hlen] at hshort
  refine ⟨hshort, ?_⟩
  cases w with
  | nil => exact Or.inl ⟨rfl, rfl⟩
  | cons c t =>
    have hc : blank c = false := by
      have hhead := List.head?_dropWhile_not blank r
      rw [← hr] at hhead
      exact hhead
    have hspace : isspace c = false := by
      by_contra hspace
      rw [Bool.not_eq_false] at hspace
      rw [hblanks c List.mem_cons_self hspace] at hc
      simp at hc
    have hend : rtrim (c :: t) = c :: rtrim t := rtrim_append_of_last (s := []) hspace
    refine Or.inr ⟨?_, ?_⟩
    · simp [tokenLen, hc]
    · rw [hend] at htoken hquote ⊢
      have hcq : c ≠ quote := by simpa using hquote
      have hcut : ((c :: t).take (tokenLen (c :: t))).take (cap - 1) = (c :: t).take (tokenLen (c :: t)) := by
        refine List.take_of_length_le ?_
        rw [List.length_take]
        omega
      unfold nextToken
      rw [List.dropWhile_cons_of_neg (by simp [hspace])]
      dsimp only
      rw [if_neg hcq, htoken, hcut]
      exact ⟨_, rfl⟩

theorem offers_of_plain {cap : Nat} (h : PlainLine key cap l) (hnl : nl ∉ l) :
    peersOn l = (peerOf l).toList ∧ foldersOn l = (folderOf l).toList ∧ settingsOn l = (settingOf l).toList := by
  have hpieces : linePieces l = [l ++ [nl]] := TextLines.pieces_short hnl h.fits
  unfold peersOn foldersOn settingsOn
  rw [hpieces]
  unfold peerOf folderOf settingOf
  simp only [List.filterMap_cons, List.filterMap_nil, parseLine_end]
  refine ⟨?_, ?_, ?_⟩
  all_goals
    split <;> rename_i hoffer <;> rw [hoffer] <;> rfl

/-- What the editor has to know of a line that it takes for one about an entry. -/
theorem nothing_else_of_key {k v : Str} (h : parseLine l = some (k, v)) :
    (ciEqual k (ascii "peer") = true → folderOf l = none ∧ settingOf l = none) ∧
      (ciEqual k (ascii "folder") = true → peerOf l = none ∧ settingOf l = none) := by
  unfold peerOf folderOf settingOf
  rw [h]
  simp only [Option.bind_some]
  constructor
  · intro hk
    have hother : ciEqual k (ascii "folder") = false := by
      by_contra hf
      rw [Bool.not_eq_false] at hf
      rw [folder_not_peer hf] at hk
      simp at hk
    simp [hk, hother]
  · intro hk
    simp [hk, folder_not_peer hk]

theorem word_of_peerLine {id : Str} (h : isPeerLineFor l id = true) :
    ∃ w, valueOf l (ascii "peer") = some w ∧ 0 < tokenLen w ∧ tokenLen w < deviceIdBufsz ∧
      deviceIdEqual (w.take (tokenLen w)) id = true := by
  unfold isPeerLineFor at h
  split at h
  · simp at h
  · rename_i w hw
    split at h
    · simp at h
    · rename_i hlen
      simp only [Bool.or_eq_true, decide_eq_true_eq, not_or, not_le] at hlen
      exact ⟨w, hw, by omega, hlen.2, h⟩

theorem value_of_folderLine {id : Str} (h : isFolderLineFor l id = true) :
    ∃ w, valueOf l (ascii "folder") = some w := by
  unfold isFolderLineFor at h
  split at h
  · simp at h
  · rename_i w hw
    exact ⟨w, hw⟩

/-- The first word is the id. -/
theorem folderLine_iff {id w : Str} (hw : valueOf l (ascii "folder") = some w) :
    isFolderLineFor l id = true ↔ w.take (tokenLen w) = id := by
  have hle : tokenLen w ≤ w.length := (List.takeWhile_prefix _).length_le
  unfold isFolderLineFor
  rw [hw]
  simp only [Bool.and_eq_true, decide_eq_true_eq, List.isPrefixOf_iff_prefix]
  constructor
  · rintro ⟨hlen, hprefix⟩
    rw [hlen]
    exact (List.prefix_iff_eq_take.mp hprefix).symm
  · rintro rfl
    exact ⟨by rw [List.length_take, Nat.min_eq_left hle], List.take_prefix _ _⟩

theorem token_of_folder {v : Str} {f : ConfigFolder} (h : parseFolder v = some f) :
    ∃ rest, nextToken configFolderIdMax v = some (f.id, rest) := by
  obtain ⟨⟨id, rest⟩, htoken, h⟩ := Option.bind_eq_some_iff.mp h
  obtain ⟨⟨path, rest'⟩, -, h⟩ := Option.bind_eq_some_iff.mp h
  refine ⟨rest, ?_⟩
  dsimp only at h
  split at h
  · rw [← Option.some.inj h]
    exact htoken
  · split at h
    all_goals
      rw [← Option.some.inj h]
      exact htoken

/-- **Peers.** A plain line is read as one about a device by both grammars, or by none. -/
theorem peerRead_of_plain {id : Str} (hid : deviceIdNormalize id ≠ none) (hnl : nl ∉ l)
    (h : PlainLine (ascii "peer") deviceIdBufsz l) : PeerRead id l := by
  have hkey : KeyWord (ascii "peer") := KeyWord.of_all (by decide) (by decide)
  obtain ⟨hpeers, hfolders, hsettings⟩ := offers_of_plain h hnl
  refine ⟨⟨?_, ?_⟩, ?_⟩
  · intro q hq hqid
    rw [hpeers, Option.mem_toList] at hq
    obtain ⟨kv, hparse, hkv⟩ := Option.bind_eq_some_iff.mp hq
    split at hkv
    · rename_i hk
      obtain ⟨hname, -⟩ := h.word kv hparse hk
      obtain ⟨w, hw, hv⟩ := valueOf_of_parseLine hkey h.blanks (v := kv.2) (by rw [hparse, ← hname])
      obtain ⟨hshort, htoken⟩ := token_of_plain hkey h hw
      have hpk := (peerKey_of_token hkv).1
      rw [← hv, tokenOr] at hpk
      rcases htoken with ⟨-, hnone⟩ | ⟨hpos, rest, hsome⟩
      · have hnil : deviceIdNormalize [] = none := by decide
        rw [hnone, hqid] at hpk
        exact absurd (hpk.trans hnil) hid
      · rw [hsome, hqid] at hpk
        unfold isPeerLineFor
        rw [hw]
        dsimp only
        rw [if_neg (by simp; omega)]
        exact (deviceIdEqual_valid hid _).mpr hpk.symm
    · simp at hkv
  · intro hmatch q hq
    obtain ⟨w, hw, hpos, -, hequal⟩ := word_of_peerLine hmatch
    obtain ⟨-, htoken⟩ := token_of_plain hkey h hw
    obtain ⟨rest, hsome⟩ : ∃ rest, nextToken deviceIdBufsz (rtrim w) = some (w.take (tokenLen w), rest) := by
      rcases htoken with ⟨rfl, -⟩ | ⟨-, hsome⟩
      · exact absurd hpos (by decide)
      · exact hsome
    rw [hpeers, Option.mem_toList] at hq
    unfold peerOf at hq
    rw [parseLine_of_valueOf hkey h.blanks hw, Option.bind_some, if_pos (ciEqual_self _)] at hq
    have hpk := (peerKey_of_token hq).1
    rw [tokenOr, hsome] at hpk
    exact hpk.trans ((deviceIdEqual_valid hid _).mp hequal)
  · intro hmatch
    obtain ⟨w, hw, -⟩ := word_of_peerLine hmatch
    obtain ⟨hfolder, hsetting⟩ :=
      (nothing_else_of_key (parseLine_of_valueOf hkey h.blanks hw)).1 (ciEqual_self _)
    rw [hfolders, hsettings, hfolder, hsetting]
    exact ⟨rfl, rfl⟩

/-- **Folders.** -/
theorem folderRead_of_plain {id : Str} (hnl : nl ∉ l) (h : PlainLine (ascii "folder") configFolderIdMax l) :
    FolderRead id l := by
  have hkey : KeyWord (ascii "folder") := KeyWord.of_all (by decide) (by decide)
  obtain ⟨hpeers, hfolders, hsettings⟩ := offers_of_plain h hnl
  refine ⟨⟨?_, ?_⟩, ?_⟩
  · intro f hf hfid
    rw [hfolders, Option.mem_toList] at hf
    obtain ⟨kv, hparse, hkv⟩ := Option.bind_eq_some_iff.mp hf
    split at hkv
    · rename_i hk
      obtain ⟨hname, -⟩ := h.word kv hparse hk
      obtain ⟨w, hw, hv⟩ := valueOf_of_parseLine hkey h.blanks (v := kv.2) (by rw [hparse, ← hname])
      rw [← hv] at hkv
      obtain ⟨rest, hsome⟩ := token_of_folder hkv
      have htoken : w.take (tokenLen w) = id := by
        rcases (token_of_plain hkey h hw).2 with ⟨-, hnone⟩ | ⟨-, rest', hsome'⟩
        · rw [hnone] at hsome
          simp at hsome
        · rw [hsome'] at hsome
          rw [← hfid]
          exact congrArg Prod.fst (Option.some.inj hsome)
      exact (folderLine_iff hw).mpr htoken
    · simp at hkv
  · intro hmatch f hf
    obtain ⟨w, hw⟩ := value_of_folderLine hmatch
    rw [hfolders, Option.mem_toList] at hf
    unfold folderOf at hf
    rw [parseLine_of_valueOf hkey h.blanks hw, Option.bind_some, if_pos (ciEqual_self _)] at hf
    obtain ⟨rest, hsome⟩ := token_of_folder hf
    rw [← (folderLine_iff hw).mp hmatch]
    rcases (token_of_plain hkey h hw).2 with ⟨-, hnone⟩ | ⟨-, rest', hsome'⟩
    · rw [hnone] at hsome
      simp at hsome
    · rw [hsome'] at hsome
      exact (congrArg Prod.fst (Option.some.inj hsome)).symm
  · intro hmatch
    obtain ⟨w, hw⟩ := value_of_folderLine hmatch
    obtain ⟨hpeer, hsetting⟩ :=
      (nothing_else_of_key (parseLine_of_valueOf hkey h.blanks hw)).2 (ciEqual_self _)
    rw [hpeers, hsettings, hpeer, hsetting]
    exact ⟨rfl, rfl⟩

end Plain

/-! ## One entry less -/

/-- **One entry less.** It is, and the rest is as before, where both grammars agree on every line. Where
the editor does not know a line with the entry, it is there again: if the line is the first one with
it, or if there is room in the table. -/
theorem entry_removed {path text : Str} (hio : Editable path text) (s : Settings) :
    (∀ p ∈ (loaded s text).peers,
      ((∀ l ∈ TextLines.lines nl text, PeerRead p.id l) → RemovesPeer s path text p.id) ∧
      (RemovesPeer s path text p.id →
        (∀ l, FirstOffers peersOn peerKey (peerKey p) (TextLines.lines nl text) l → isPeerLineFor l p.id = true) ∧
        ((loaded s text).peers.length < configMaxPeers →
          ∀ l ∈ TextLines.lines nl text, ∀ q ∈ peersOn l, peerKey q = peerKey p → isPeerLineFor l p.id = true))) ∧
    ∀ f ∈ (loaded s text).folders,
      (f.id ≠ [] → (∀ l ∈ TextLines.lines nl text, FolderRead f.id l) → RemovesFolder s path text f.id) ∧
      (RemovesFolder s path text f.id → f.id ≠ [] ∧
        (∀ l, FirstOffers foldersOn ConfigFolder.id f.id (TextLines.lines nl text) l →
          isFolderLineFor l f.id = true) ∧
        ((loaded s text).folders.length < configMaxFolders →
          ∀ l ∈ TextLines.lines nl text, ∀ g ∈ foldersOn l, g.id = f.id → isFolderLineFor l f.id = true)) := by
  refine ⟨?_, ?_⟩
  · intro p hp
    refine ⟨removesPeer_of_read hio hp, ?_⟩
    rintro ⟨new, hnew, hwithout⟩
    obtain ⟨-, hkept⟩ := lines_of_removeMatching hio hnew
    obtain ⟨-, hid⟩ := line_of_peer hp
    have hgone := hwithout.gone
    rw [loaded_new hkept, peers_of_lines] at hgone
    rw [loaded_eq, peers_of_lines] at hp ⊢
    have hkeys := fun q hq => (deviceIdEqual_false_iff hid q).mp (hgone q hq)
    exact ⟨fun l hl => first_found ⟨p, hp, rfl⟩ hkeys hl, fun hroom l hl q hq => all_found hroom hkeys hl hq⟩
  · intro f hf
    refine ⟨removesFolder_of_read hio hf, ?_⟩
    rintro ⟨new, hnew, hwithout⟩
    obtain ⟨hid, hkept⟩ := lines_of_removeMatching hio hnew
    have hgone := hwithout.gone
    rw [loaded_new hkept, folders_of_lines] at hgone
    rw [loaded_eq, folders_of_lines] at hf ⊢
    exact ⟨hid, fun l hl => first_found ⟨f, hf, rfl⟩ hgone hl, fun hroom l hl g hg => all_found hroom hgone hl hg⟩

/-- A file with a peer, a folder in a path with a blank, and a setting. -/
def sampleText : Str :=
  ascii "peer = " ++ deviceIdFromRaw sampleRaw ++
    ascii " 192.168.1.7\nfolder = docs \"Work:My Docs\" sendonly\nwindow = 4\n"

/-- Both entries can be removed from it. -/
theorem entry_removed_sample :
    RemovesPeer configDefaults.settings (ascii "ENVARC:cfg") sampleText (deviceIdFromRaw sampleRaw) ∧
      RemovesFolder configDefaults.settings (ascii "ENVARC:cfg") sampleText (ascii "docs") := by
  have hio : Editable (ascii "ENVARC:cfg") sampleText := by decide +kernel
  obtain ⟨hpeers, hfolders⟩ := entry_removed hio configDefaults.settings
  have hplain : ∀ l ∈ TextLines.lines nl sampleText,
      PlainLine (ascii "peer") deviceIdBufsz l ∧ PlainLine (ascii "folder") configFolderIdMax l := by
    decide +kernel
  constructor
  · refine (hpeers ⟨deviceIdFromRaw sampleRaw, ascii "192.168.1.7", 22000⟩ (by decide +kernel)).1 ?_
    intro l hl
    exact peerRead_of_plain (by decide +kernel) (TextLines.notMem_of_mem_lines hl) (hplain l hl).1
  · refine (hfolders ⟨ascii "docs", ascii "docs", ascii "Work:My Docs", .sendOnly⟩ (by decide +kernel)).1
      (by decide) ?_
    intro l hl
    exact folderRead_of_plain (TextLines.notMem_of_mem_lines hl) (hplain l hl).2

/-- With the line ends of another system the id has one character too many, and an id in quotes is not
known at all. -/
def foreignText : Str :=
  ascii "peer = " ++ deviceIdFromRaw sampleRaw ++ ascii "\r\nfolder = \"My Docs\" Work:Docs sendonly\r\n"

theorem entry_not_removed :
    Editable (ascii "ENVARC:cfg") foreignText ∧
      (∃ p ∈ (loaded configDefaults.settings foreignText).peers,
        ¬ RemovesPeer configDefaults.settings (ascii "ENVARC:cfg") foreignText p.id) ∧
      ∃ f ∈ (loaded configDefaults.settings foreignText).folders,
        ¬ RemovesFolder configDefaults.settings (ascii "ENVARC:cfg") foreignText f.id := by
  have hpeer : configRemovePeer (ascii "ENVARC:cfg") (some foreignText) (deviceIdFromRaw sampleRaw) = none := by
    decide +kernel
  have hfolder : configRemoveFolder (ascii "ENVARC:cfg") (some foreignText) (ascii "My Docs") = none := by
    decide +kernel
  refine ⟨by decide +kernel, ⟨⟨deviceIdFromRaw sampleRaw, [], 0⟩, by decide +kernel, ?_⟩,
    ⟨ascii "My Docs", ascii "My Docs", ascii "Work:Docs", .sendOnly⟩, by decide +kernel, ?_⟩
  · rintro ⟨new, hnew, -⟩
    have hnone := hpeer.symm.trans hnew
    simp at hnone
  · rintro ⟨new, hnew, -⟩
    have hnone := hfolder.symm.trans hnew
    simp at hnone

end Amisync.ConfigFile

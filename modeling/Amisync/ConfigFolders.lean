import Amisync.ConfigTokens

/-!
# A folder in the configuration file (`config_append_folder`)

A folder that a peer offers is written to the file as a line, and read back by a
tokenizer that knows quotes, from a buffer of 255 bytes. The path and the label
are put in quotes where they need it; the id is not.

* `Legible`: the id has no blank, and the line fits the buffer.
* `offers_of_legible`: then the line offers the folder and nothing else.
* `not_offered_of_blank`, `offers_of_long`: otherwise another one, or none.
* `appended_folder_iff`: a text with one more line has one more folder exactly
  when the line is legible.
-/

namespace Amisync.ConfigFile

open Ctype

/-! ## The line -/

/-- A `folder` line, or the beginning of one. -/
theorem parseLine_folder (w : Str) :
    parseLine (ascii "folder = " ++ w) = some (ascii "folder", trim w) := by
  have hkey : ascii "folder = " = ascii "folder" ++ [32, 61, 32] := by decide
  rw [hkey, List.append_assoc]
  exact parseLine_assign (c := 102) (z := 114) (t := ascii "olde") (by decide) (by decide) (by decide) w

theorem folderOf_folder (w : Str) : folderOf (ascii "folder = " ++ w) = parseFolder (trim w) := by
  unfold folderOf
  rw [parseLine_folder]
  rfl

theorem peerOf_folder (w : Str) : peerOf (ascii "folder = " ++ w) = none := by
  unfold peerOf
  rw [parseLine_folder]
  rfl

theorem settingOf_folder (w : Str) : settingOf (ascii "folder = " ++ w) = none := by
  unfold settingOf
  rw [parseLine_folder]
  rfl

theorem mode_facts (mode : FolderMode) : parseMode (modeWord mode) = mode ∧ (modeWord mode).length ≤ 11 ∧
    ∃ c t z, modeWord mode = c :: (t ++ [z]) ∧ c ≠ quote ∧ isspace c = false ∧ isspace z = false ∧
      ∀ d ∈ modeWord mode, isspace d = false := by
  cases mode with
  | sendReceive => exact ⟨by decide, by decide, 115, ascii "endreceiv", 101, by decide +kernel⟩
  | sendOnly => exact ⟨by decide, by decide, 115, ascii "endonl", 121, by decide +kernel⟩
  | receiveOnly => exact ⟨by decide, by decide, 114, ascii "eceiveonl", 121, by decide +kernel⟩

/-- What is asked of the arguments: they fit their fields and are fit to be written. -/
structure Fits (id fpath label : Str) : Prop where
  id_ne : id ≠ []
  id_len : id.length < configFolderIdMax
  id_safe : textFieldSafe id = true
  path_ne : fpath ≠ []
  path_len : fpath.length < configPathMax
  path_safe : textFieldSafe fpath = true
  label_len : label.length < configNameMax
  label_safe : textFieldSafe label = true

/-- The folder that is meant; the label defaults to the id. -/
def meant (id fpath : Str) (mode : FolderMode) (label : Str) : ConfigFolder :=
  ⟨id, if label = [] then id else label, fpath, mode⟩

/-- What stands before the label. -/
def folderHead (id fpath : Str) (mode : FolderMode) : Str :=
  id ++ 32 :: (quoted configPathMax fpath ++ 32 :: modeWord mode)

def labelPart (id label : Str) : Str :=
  if label ≠ [] ∧ label ≠ id then 32 :: quoted configNameMax label else []

section Line
variable {id fpath label : Str} {mode : FolderMode}

theorem length_quoted (cap : Nat) (s : Str) : (quoted cap s).length ≤ cap - 1 + 2 := by
  unfold quoted
  split <;> simp [List.length_take]

variable (mode) in
theorem folderLine_eq (h : Fits id fpath label) :
    folderLine id fpath mode label = ascii "folder = " ++ (folderHead id fpath mode ++ labelPart id label) := by
  have hid : id.take (configFolderIdMax - 1) = id := List.take_of_length_le (by have := h.id_len; omega)
  unfold folderLine folderHead labelPart
  rw [hid]
  split <;> simp

variable (mode) in
theorem length_folderHead (h : Fits id fpath label) : (folderHead id fpath mode).length ≤ 205 := by
  have hq : (quoted configPathMax fpath).length ≤ 129 := length_quoted configPathMax fpath
  have hm := (mode_facts mode).2.1
  have hi : id.length < 64 := h.id_len
  unfold folderHead
  simp only [List.length_append, List.length_cons]
  omega

/-- The head is read back, whatever follows the word for the mode. -/
theorem parseFolder_head (h : Fits id fpath label) (hb : (32 : UInt8) ∉ id) {t : Str}
    (ht : ∀ c, t.head? = some c → isspace c = true) :
    parseFolder (folderHead id fpath mode ++ t) =
      match nextToken configNameMax t with
      | none => some ⟨id, id, fpath, mode⟩
      | some (label', _) => some ⟨id, label', fpath, mode⟩ := by
  obtain ⟨hparse, hmlen, c, u, z, hword, hcq, hc, -, hnone⟩ := mode_facts mode
  have hidq : id.head? ≠ some quote := by
    intro hq
    exact (safe_facts h.id_safe (List.mem_of_head? hq)).1 rfl
  have h₁ : nextToken configFolderIdMax (folderHead id fpath mode ++ t) =
      some (id, 32 :: (quoted configPathMax fpath ++ 32 :: (modeWord mode ++ t))) := by
    have htok := nextToken_word (w := []) (by simp) h.id_ne (fun c hc => not_blank_of_safe h.id_safe hb hc)
      hidq h.id_len (r := 32 :: (quoted configPathMax fpath ++ 32 :: (modeWord mode ++ t))) (by simp [isspace])
    simpa [folderHead] using htok
  have h₂ := nextToken_field (r := 32 :: (modeWord mode ++ t)) h.path_safe h.path_ne h.path_len
    (by simp [isspace])
  have h₃ : nextToken 16 (32 :: (modeWord mode ++ t)) = some (modeWord mode, t) :=
    nextToken_word (w := [32]) (List.forall_mem_singleton.mpr rfl) (by simp [hword]) hnone
      (by simpa [hword] using hcq) (by omega) ht
  have hid : setField configNameMax id = id := setField_of_length h.id_len
  unfold parseFolder
  rw [h₁, Option.bind_some]
  dsimp only
  rw [h₂, Option.bind_some]
  dsimp only
  rw [h₃]
  dsimp only
  cases nextToken configNameMax t with
  | none => simp [hparse, hid]
  | some r => simp [hparse]

theorem head_last (id fpath : Str) (mode : FolderMode) : ∃ t z, folderHead id fpath mode = t ++ [z] ∧ isspace z = false := by
  obtain ⟨-, -, c, u, z, hword, -, -, hz, -⟩ := mode_facts mode
  exact ⟨id ++ 32 :: (quoted configPathMax fpath ++ 32 :: c :: u), z, by simp [folderHead, hword], hz⟩

variable (mode) in
theorem safe_head_facts (h : Fits id fpath label) (hb : (32 : UInt8) ∉ id) :
    ∃ c t, folderHead id fpath mode = c :: t ∧ isspace c = false := by
  obtain ⟨c, t, rfl⟩ := List.exists_cons_of_ne_nil h.id_ne
  exact ⟨c, _, rfl, not_blank_of_safe h.id_safe hb List.mem_cons_self⟩

/-- Only what follows the head is trimmed. -/
theorem trim_head (h : Fits id fpath label) (hb : (32 : UInt8) ∉ id) (t : Str) :
    trim (folderHead id fpath mode ++ t) = folderHead id fpath mode ++ rtrim t := by
  obtain ⟨c, u, hhead, hc⟩ := safe_head_facts mode h hb
  obtain ⟨v, z, hlast, hz⟩ := head_last id fpath mode
  have hfirst : trim (folderHead id fpath mode ++ t) = rtrim (folderHead id fpath mode ++ t) := by
    rw [hhead, List.cons_append, trim_of_first hc]
    exact (rtrim_append_of_last (s := []) hc).symm
  rw [hfirst, hlast, List.append_assoc, List.append_assoc]
  exact rtrim_append_of_last hz

theorem rtrim_labelPart (h : Fits id fpath label) : rtrim (labelPart id label) = labelPart id label := by
  unfold labelPart
  split
  · rename_i hl
    have hshort : label.take (configNameMax - 1) = label :=
      List.take_of_length_le (by have := h.label_len; omega)
    unfold quoted
    dsimp only
    rw [hshort]
    cases hany : label.any blank with
    | true => exact rtrim_of_last (s := 32 :: quote :: label) (by decide)
    | false =>
      obtain ⟨t, z, rfl⟩ : ∃ t z, label = t ++ [z] :=
        ⟨label.dropLast, label.getLast hl.1, (List.dropLast_concat_getLast hl.1).symm⟩
      have hz : isspace z = false := by
        refine not_blank_of_safe h.label_safe ?_ (by simp)
        intro hmem
        rw [(any_blank_iff h.label_safe).mpr hmem] at hany
        simp at hany
      simpa using rtrim_of_last (s := 32 :: t) hz
  · rfl

variable (mode) in
/-- The whole line, read without a cut. -/
theorem folderOf_line (h : Fits id fpath label) (hb : (32 : UInt8) ∉ id) :
    folderOf (folderLine id fpath mode label) = some (meant id fpath mode label) := by
  rw [folderLine_eq mode h, folderOf_folder, trim_head h hb, rtrim_labelPart h, parseFolder_head h hb]
  · unfold labelPart meant
    by_cases hl : label ≠ [] ∧ label ≠ id
    · have hlabel := nextToken_field (r := []) h.label_safe hl.1 h.label_len (by simp)
      rw [List.append_nil] at hlabel
      rw [if_pos hl, hlabel, if_neg hl.1]
    · have hid : (if label = [] then id else label) = id := by
        split
        · rfl
        · rename_i hne
          by_contra hid
          exact hl ⟨hne, hid⟩
      rw [if_neg hl, hid]
      rfl
  · intro c hc
    unfold labelPart at hc
    split at hc
    · obtain rfl : 32 = c := by simpa using hc
      rfl
    · simp at hc

end Line

/-! ## In the buffer -/

/-- The id has no blank, and the line fits the buffer, or only its last quote does not. -/
def Legible (id fpath : Str) (mode : FolderMode) (label : Str) : Prop :=
  (32 : UInt8) ∉ id ∧ ((folderLine id fpath mode label).length ≤ lineRoom ∨
    ((folderLine id fpath mode label).length = lineRoom + 1 ∧ label ≠ [] ∧ label ≠ id ∧
      (32 : UInt8) ∈ label ∧ label.getLast? ≠ some 32))

instance (id fpath : Str) (mode : FolderMode) (label : Str) : Decidable (Legible id fpath mode label) :=
  inferInstanceAs (Decidable (_ ∧ _))

/-- What the pieces of a line offer. -/
def piecesOf (line : Str) : List Str := TextLines.pieces nl lineRoom (line ++ [nl])

section Buffer
variable {id fpath label : Str} {mode : FolderMode}

variable (mode) in
theorem nl_not_mem_line (h : Fits id fpath label) : nl ∉ folderLine id fpath mode label := by
  have hsafe : ∀ s : Str, textFieldSafe s = true → nl ∉ s := fun s hs hmem => (safe_facts hs hmem).2.1 rfl
  have hquoted : ∀ cap s, textFieldSafe s = true → nl ∉ quoted cap s := by
    intro cap s hs hmem
    unfold quoted at hmem
    simp only [List.mem_append] at hmem
    rcases hmem with (hmem | hmem) | hmem
    · split at hmem <;> simp [nl, quote] at hmem
    · exact hsafe s hs (List.mem_of_mem_take hmem)
    · split at hmem <;> simp [nl, quote] at hmem
  have hmode : nl ∉ modeWord mode := by
    intro hmem
    have := (mode_facts mode).2.2
    obtain ⟨c, t, z, -, -, -, -, hnone⟩ := this
    exact absurd (hnone nl hmem) (by decide)
  rw [folderLine_eq mode h]
  intro hmem
  simp only [folderHead, List.mem_append, List.mem_cons] at hmem
  rcases hmem with hmem | (hmem | hmem | hmem | hmem | hmem) | hmem
  · exact absurd hmem (by decide)
  · exact hsafe id h.id_safe hmem
  · exact absurd hmem (by decide)
  · exact hquoted _ _ h.path_safe hmem
  · exact absurd hmem (by decide)
  · exact hmode hmem
  · unfold labelPart at hmem
    split at hmem
    · rcases List.mem_cons.mp hmem with hmem | hmem
      · exact absurd hmem (by decide)
      · exact hquoted _ _ h.label_safe hmem
    · simp at hmem

theorem folderOf_end (l : Str) : folderOf (l ++ [nl]) = folderOf l := by
  unfold folderOf
  rw [parseLine_end]

theorem piecesOf_short {line : Str} (hnl : nl ∉ line) (hlen : line.length < lineRoom) :
    piecesOf line = [line ++ [nl]] :=
  TextLines.pieces_short hnl hlen

theorem piecesOf_long {line : Str} (hnl : nl ∉ line) (hlen : lineRoom ≤ line.length) :
    piecesOf line = line.take lineRoom :: TextLines.pieces nl lineRoom (line.drop lineRoom ++ [nl]) :=
  TextLines.pieces_long hnl (by decide) hlen [nl]

/-- A label that is written has quotes, or no blank. -/
theorem labelPart_eq (h : Fits id fpath label) (hl : label ≠ [] ∧ label ≠ id) :
    ((32 : UInt8) ∈ label ∧ labelPart id label = 32 :: quote :: (label ++ [quote])) ∨
      ((32 : UInt8) ∉ label ∧ labelPart id label = 32 :: label) := by
  have hshort : label.take (configNameMax - 1) = label :=
    List.take_of_length_le (by have := h.label_len; omega)
  unfold labelPart quoted
  dsimp only
  rw [if_pos hl, hshort]
  cases hany : label.any blank with
  | true => exact Or.inl ⟨(any_blank_iff h.label_safe).mp hany, rfl⟩
  | false =>
    refine Or.inr ⟨?_, by simp⟩
    intro hmem
    rw [(any_blank_iff h.label_safe).mpr hmem] at hany
    simp at hany

variable (mode) in
/-- The first piece of a line that is cut in its label. -/
theorem take_line (h : Fits id fpath label) :
    ∃ k, 40 ≤ k ∧ lineRoom = 9 + (folderHead id fpath mode).length + k ∧
      (folderLine id fpath mode label).take lineRoom =
        ascii "folder = " ++ (folderHead id fpath mode ++ (labelPart id label).take k) := by
  have hhead := length_folderHead mode h
  have hkey : (ascii "folder = ").length = 9 := by decide
  refine ⟨lineRoom - 9 - (folderHead id fpath mode).length, ?_, ?_, ?_⟩
  · unfold lineRoom
    omega
  · unfold lineRoom
    omega
  · rw [folderLine_eq mode h, List.take_append, hkey, List.take_of_length_le (by rw [hkey]; decide),
      List.take_append, List.take_of_length_le (by unfold lineRoom; omega)]

variable (mode) in
theorem length_folderLine (h : Fits id fpath label) : (folderLine id fpath mode label).length =
    9 + (folderHead id fpath mode).length + (labelPart id label).length := by
  have hkey : (ascii "folder = ").length = 9 := by decide
  rw [folderLine_eq mode h, List.length_append, List.length_append, hkey, Nat.add_assoc]

variable (mode) in
/-- Where the closing quote is cut off, what is left is trimmed. -/
theorem folderOf_open (h : Fits id fpath label) (hb : (32 : UInt8) ∉ id) (n : Nat) :
    folderOf (ascii "folder = " ++ (folderHead id fpath mode ++ 32 :: quote :: label.take n)) =
      some ⟨id, rtrim (label.take n), fpath, mode⟩ := by
  have htrim : rtrim (32 :: quote :: label.take n) = 32 :: quote :: rtrim (label.take n) :=
    rtrim_append_of_last (s := [32]) (by decide)
  have hsub : ∀ c ∈ rtrim (label.take n), c ∈ label :=
    fun c hc => List.mem_of_mem_take ((List.rdropWhile_prefix _ _).subset hc)
  have hq : quote ∉ rtrim (label.take n) := fun hmem => (safe_facts h.label_safe (hsub _ hmem)).1 rfl
  have hlen : (rtrim (label.take n)).length < configNameMax := by
    have hle := (List.rdropWhile_prefix isspace (label.take n)).length_le
    have hlt := h.label_len
    rw [List.length_take] at hle
    unfold rtrim
    omega
  have htok := nextToken_open (w := [32]) (List.forall_mem_singleton.mpr rfl) hq hlen
  rw [folderOf_folder, trim_head h hb, htrim, parseFolder_head h hb]
  · rw [show 32 :: quote :: rtrim (label.take n) = [32] ++ quote :: rtrim (label.take n) from rfl, htok]
  · intro c hc
    obtain rfl : 32 = c := by simpa using hc
    rfl

theorem rtrim_eq_iff (hne : label ≠ []) (hs : textFieldSafe label = true) :
    rtrim label = label ↔ label.getLast? ≠ some 32 := by
  obtain ⟨t, z, rfl⟩ : ∃ t z, label = t ++ [z] :=
    ⟨label.dropLast, label.getLast hne, (List.dropLast_concat_getLast hne).symm⟩
  rw [List.getLast?_concat]
  constructor
  · intro heq hz
    obtain rfl := Option.some.inj hz
    rw [rtrim_append_of_blank (w := [32]) (List.forall_mem_singleton.mpr rfl)] at heq
    have hle := (List.rdropWhile_prefix isspace t).length_le
    have hlen := congrArg List.length heq
    rw [List.length_append, List.length_singleton] at hlen
    unfold rtrim at hlen
    omega
  · intro hz
    refine rtrim_of_last ?_
    by_contra hspace
    rw [Bool.not_eq_false] at hspace
    exact hz (congrArg some ((safe_facts hs (by simp)).2.2 hspace))

/-- **Legible lines.** They offer the folder that is meant, and nothing else. -/
theorem offers_of_legible (h : Fits id fpath label) (hl : Legible id fpath mode label) :
    (piecesOf (folderLine id fpath mode label)).filterMap folderOf = [meant id fpath mode label] ∧
      (piecesOf (folderLine id fpath mode label)).filterMap peerOf = [] ∧
      (piecesOf (folderLine id fpath mode label)).filterMap settingOf = [] := by
  obtain ⟨hb, hlen⟩ := hl
  have hnl := nl_not_mem_line mode h
  have hline := folderOf_line mode h hb
  have heq := folderLine_eq mode h
  rcases hlen with hlen | ⟨hlen, hne, hnid, hspace, hlast⟩
  · have hfirst : ∀ p ∈ [folderLine id fpath mode label ++ [nl], folderLine id fpath mode label],
        folderOf p = some (meant id fpath mode label) ∧ peerOf p = none ∧ settingOf p = none := by
      intro p hp
      simp only [List.mem_cons, List.not_mem_nil, or_false] at hp
      rcases hp with rfl | rfl
      · refine ⟨(folderOf_end _).trans hline, ?_, ?_⟩
        · rw [heq, List.append_assoc]
          exact peerOf_folder _
        · rw [heq, List.append_assoc]
          exact settingOf_folder _
      · refine ⟨hline, ?_, ?_⟩
        · rw [heq]
          exact peerOf_folder _
        · rw [heq]
          exact settingOf_folder _
    rcases Nat.lt_or_ge (folderLine id fpath mode label).length lineRoom with hlt | hge
    · obtain ⟨hf, hp, hs⟩ := hfirst _ List.mem_cons_self
      rw [piecesOf_short hnl hlt]
      simp [hf, hp, hs]
    · obtain ⟨hf, hp, hs⟩ := hfirst (folderLine id fpath mode label) (by simp)
      have hend : TextLines.pieces nl lineRoom ([] ++ [nl]) = [[nl]] := rfl
      have hnone : folderOf [nl] = none ∧ peerOf [nl] = none ∧ settingOf [nl] = none := ⟨rfl, rfl, rfl⟩
      rw [piecesOf_long hnl hge, List.take_of_length_le hlen, List.drop_eq_nil_of_le hlen, hend]
      simp [hf, hp, hs, hnone.1, hnone.2.1, hnone.2.2]
  · obtain ⟨-, hpart⟩ := (labelPart_eq h ⟨hne, hnid⟩).resolve_right fun hno => hno.1 hspace
    have hsplit : folderLine id fpath mode label =
        (ascii "folder = " ++ (folderHead id fpath mode ++ 32 :: quote :: label)) ++ [quote] := by
      rw [heq, hpart]
      simp
    have hinit : (ascii "folder = " ++ (folderHead id fpath mode ++ 32 :: quote :: label)).length = lineRoom := by
      rw [hsplit, List.length_append, List.length_singleton] at hlen
      omega
    have hopen := folderOf_open mode h hb label.length
    rw [List.take_length, (rtrim_eq_iff hne h.label_safe).mpr hlast] at hopen
    have hmeant : meant id fpath mode label = ⟨id, label, fpath, mode⟩ := by
      unfold meant
      rw [if_neg hne]
    have hend : TextLines.pieces nl lineRoom ([quote] ++ [nl]) = [[quote, nl]] := rfl
    have hnone : folderOf [quote, nl] = none ∧ peerOf [quote, nl] = none ∧ settingOf [quote, nl] = none :=
      ⟨rfl, rfl, rfl⟩
    rw [piecesOf_long hnl (by omega), hsplit, List.take_left' hinit, List.drop_left' hinit, hend, hmeant]
    simp [hopen, peerOf_folder, settingOf_folder, hnone.1, hnone.2.1, hnone.2.2]

/-- **Cut lines.** They offer another folder under the id. -/
theorem offers_of_long (h : Fits id fpath label) (hb : (32 : UInt8) ∉ id)
    (hl : ¬ Legible id fpath mode label) :
    ∃ g rest, (piecesOf (folderLine id fpath mode label)).filterMap folderOf = g :: rest ∧
      g.id = id ∧ g ≠ meant id fpath mode label := by
  have hlen : lineRoom < (folderLine id fpath mode label).length := by
    by_contra hle
    exact hl ⟨hb, Or.inl (by omega)⟩
  have htotal := length_folderLine mode h
  have hhead := length_folderHead mode h
  have hroom : lineRoom = 255 := rfl
  obtain ⟨k, hk, hfill, htake⟩ := take_line mode h
  have hlabel : label ≠ [] ∧ label ≠ id := by
    by_contra hno
    rw [labelPart, if_neg hno, List.length_nil] at htotal
    omega
  have hmeant : meant id fpath mode label = ⟨id, label, fpath, mode⟩ := by
    unfold meant
    rw [if_neg hlabel.1]
  -- whichever label is read, the first piece offers a folder under the id
  have hoffer : ∀ label', folderOf ((folderLine id fpath mode label).take lineRoom) =
      some ⟨id, label', fpath, mode⟩ → label' ≠ label →
      ∃ g rest, (piecesOf (folderLine id fpath mode label)).filterMap folderOf = g :: rest ∧
        g.id = id ∧ g ≠ meant id fpath mode label := by
    intro label' hfolder hne
    rw [piecesOf_long (nl_not_mem_line mode h) (by omega), List.filterMap_cons, hfolder, hmeant]
    refine ⟨_, _, rfl, rfl, ?_⟩
    intro heq
    exact hne (congrArg ConfigFolder.label heq)
  rcases labelPart_eq h hlabel with ⟨hspace, hpart⟩ | ⟨hspace, hpart⟩
  · rw [hpart] at htotal htake
    simp only [List.length_cons, List.length_append, List.length_nil] at htotal
    obtain ⟨n, rfl⟩ : ∃ n, k = n + 2 := ⟨k - 2, by omega⟩
    have hcut : (32 :: quote :: (label ++ [quote])).take (n + 2) = 32 :: quote :: label.take n := by
      rw [List.take_succ_cons, List.take_succ_cons, List.take_append_of_le_length (by omega)]
    rw [hcut] at htake
    refine hoffer _ (htake ▸ folderOf_open mode h hb n) ?_
    intro heq
    have hle := (List.rdropWhile_prefix isspace (label.take n)).length_le
    unfold rtrim at heq
    rw [heq, List.length_take] at hle
    rw [List.take_of_length_le (by omega)] at heq
    exact hl ⟨hb, Or.inr ⟨by omega, hlabel.1, hlabel.2, hspace,
      (rtrim_eq_iff hlabel.1 h.label_safe).mp heq⟩⟩
  · rw [hpart] at htotal htake
    rw [List.length_cons] at htotal
    obtain ⟨n, rfl⟩ : ∃ n, k = n + 2 := ⟨k - 2, by omega⟩
    rw [List.take_succ_cons] at htake
    have hlt : n + 1 < label.length := by omega
    have hnone : ∀ c ∈ label.take (n + 1), isspace c = false :=
      fun c hc => not_blank_of_safe h.label_safe hspace (List.mem_of_mem_take hc)
    obtain ⟨c, t, rfl⟩ := List.exists_cons_of_ne_nil hlabel.1
    have hword : nextToken configNameMax ([32] ++ ((c :: t).take (n + 1) ++ [])) =
        some ((c :: t).take (n + 1), []) := by
      refine nextToken_word (List.forall_mem_singleton.mpr rfl) (by simp) hnone ?_ ?_ (by simp)
      · have hc := (safe_facts h.label_safe (List.mem_cons_self (a := c) (l := t))).1
        simpa using hc
      · have := h.label_len
        rw [List.length_take]
        omega
    have htrim : rtrim (32 :: (c :: t).take (n + 1)) = 32 :: (c :: t).take (n + 1) := by
      have hne : (c :: t).take (n + 1) ≠ [] := by simp
      have hlast : isspace (((c :: t).take (n + 1)).getLast hne) = false := hnone _ (List.getLast_mem hne)
      have h := rtrim_of_last (s := 32 :: ((c :: t).take (n + 1)).dropLast) hlast
      rwa [List.cons_append, List.dropLast_concat_getLast hne] at h
    refine hoffer ((c :: t).take (n + 1)) ?_ ?_
    · rw [htake, folderOf_folder, trim_head h hb, htrim, parseFolder_head h hb]
      · rw [List.append_nil] at hword
        rw [show 32 :: (c :: t).take (n + 1) = [32] ++ (c :: t).take (n + 1) from rfl, hword]
      · intro d hd
        obtain rfl : 32 = d := by simpa using hd
        rfl
    · intro heq
      have := congrArg List.length heq
      rw [List.length_take] at this
      omega

/-! ### An id with a blank -/

theorem parseFolder_tokens {value : Str} {g : ConfigFolder} (h : parseFolder value = some g) :
    ∃ rest rest', nextToken configFolderIdMax value = some (g.id, rest) ∧
      nextToken configPathMax rest = some (g.path, rest') := by
  obtain ⟨⟨tok, rest⟩, htok, h⟩ := Option.bind_eq_some_iff.mp h
  obtain ⟨⟨tok', rest'⟩, htok', h⟩ := Option.bind_eq_some_iff.mp h
  dsimp only at h htok'
  refine ⟨rest, rest', ?_, ?_⟩
  all_goals
    split at h
    · obtain rfl := Option.some.inj h
      assumption
    · split at h <;>
      · obtain rfl := Option.some.inj h
        assumption

/-- After a quote there is nothing but blanks. -/
def EndQuote (s : Str) : Prop := ∀ a b, s = a ++ quote :: b → ∀ c ∈ b, isspace c = true

theorem EndQuote.of_infix {s p : Str} (h : EndQuote s) (hp : p <:+: s) : EndQuote p := by
  obtain ⟨x, y, rfl⟩ := hp
  rintro a b rfl c hc
  refine h (x ++ a) (b ++ y) (by simp) c ?_
  exact List.mem_append_left y hc

theorem endQuote_append {u v : Str} (hu : quote ∉ u) (hv : v = [nl] ∨ v = [quote, nl]) : EndQuote (u ++ v) := by
  have hshort : EndQuote v := by
    rintro a b hab c hc
    have hnl : isspace nl = true := rfl
    rcases hv with rfl | rfl
    · cases a with
      | nil =>
        have := (List.cons.inj hab).1
        exact absurd this (by decide)
      | cons x a => simp at hab
    · cases a with
      | nil =>
        obtain rfl := (List.cons.inj hab).2
        rw [List.mem_singleton.mp hc]
        exact hnl
      | cons x a =>
        cases a with
        | nil =>
          have := (List.cons.inj (List.cons.inj hab).2).1
          exact absurd this (by decide)
        | cons y a => simp at hab
  rintro a b hab
  rcases List.append_eq_append_iff.mp hab with ⟨a', -, hv'⟩ | ⟨c', hu', hv'⟩
  · exact hshort a' b hv'
  · cases c' with
    | nil => exact hshort [] b hv'.symm
    | cons x c' =>
      obtain rfl := (List.cons.inj hv').1
      exact absurd (hu' ▸ List.mem_append_right a List.mem_cons_self) hu

/-- From such a piece no id with a blank is read. -/
theorem no_blank_of_endQuote {piece : Str} (hq : EndQuote piece) {g : ConfigFolder}
    (h : folderOf piece = some g) : (32 : UInt8) ∉ g.id := by
  obtain ⟨⟨key, value⟩, hline, hparse⟩ := Option.bind_eq_some_iff.mp h
  dsimp only at hparse
  split at hparse
  · obtain ⟨rest, -, htok, -⟩ := parseFolder_tokens hparse
    obtain ⟨x, hx, rfl⟩ : ∃ x, x <:+: piece ∧ value = trim x := by
      unfold parseLine at hline
      split at hline
      · simp at hline
      · rename_i c q hpiece
        split at hline
        · simp at hline
        · split at hline
          · refine ⟨_, ?_, (congrArg Prod.snd (Option.some.inj hline)).symm⟩
            refine List.IsInfix.trans ?_ (infix_trim piece)
            rw [hpiece]
            exact ((List.tail_suffix _).trans (List.dropWhile_suffix _)).isInfix
          · simp at hline
    have hvalue := hq.of_infix ((infix_trim x).trans hx)
    have hfix : rtrim (trim x) = trim x := List.rdropWhile_idempotent _ _
    cases hd : (trim x).dropWhile isspace with
    | nil =>
      unfold nextToken at htok
      rw [hd] at htok
      simp at htok
    | cons c q =>
      by_cases hc : c = quote
      · subst hc
        have hsplit : trim x = (trim x).takeWhile isspace ++ quote :: q := by
          rw [← hd, List.takeWhile_append_dropWhile]
        have hblank : ∀ d ∈ q, isspace d = true := hvalue _ q hsplit
        have hnil : rtrim q = [] := List.rdropWhile_eq_nil_iff.mpr hblank
        rw [hsplit, rtrim_append_of_last (by decide), hnil] at hfix
        have hqnil : q = [] := by simpa using hfix.symm
        have hread : nextToken configFolderIdMax (trim x) = some ([], []) := by
          rw [hsplit, hqnil]
          exact nextToken_open (fun _ => List.mem_takeWhile_imp) (by simp) (by decide)
        rw [hread] at htok
        rw [← (Prod.mk.inj (Option.some.inj htok)).1]
        simp
      · intro hmem
        exact absurd (no_blank_of_word hd hc htok 32 hmem) (by decide)
  · simp at hparse

variable (mode) in
/-- The first piece, and the others. -/
theorem piecesOf_line (h : Fits id fpath label) :
    ∃ z others, piecesOf (folderLine id fpath mode label) =
        (ascii "folder = " ++ (folderHead id fpath mode ++ z)) :: others ∧ ∀ p ∈ others, EndQuote p := by
  have hnl := nl_not_mem_line mode h
  have heq := folderLine_eq mode h
  rcases Nat.lt_or_ge (folderLine id fpath mode label).length lineRoom with hlt | hge
  · refine ⟨labelPart id label ++ [nl], [], ?_, by simp⟩
    rw [piecesOf_short hnl hlt, heq]
    simp
  · obtain ⟨k, hk, hfill, htake⟩ := take_line mode h
    refine ⟨(labelPart id label).take k, _, by rw [piecesOf_long hnl hge, htake], ?_⟩
    have hdrop : (folderLine id fpath mode label).drop lineRoom = (labelPart id label).drop k := by
      have hkey : (ascii "folder = " ++ folderHead id fpath mode).length + k = lineRoom := by
        rw [List.length_append, hfill]
        rfl
      rw [heq, ← List.append_assoc, ← hkey, List.drop_append, List.drop_eq_nil_of_le (by omega),
        Nat.add_sub_cancel_left, List.nil_append]
    intro p hp
    refine EndQuote.of_infix ?_ (TextLines.infix_of_mem_pieces hp)
    rw [hdrop]
    have hq : quote ∉ label := fun hmem => (safe_facts h.label_safe hmem).1 rfl
    obtain ⟨n, rfl⟩ : ∃ n, k = n + 2 := ⟨k - 2, by omega⟩
    by_cases hl : label ≠ [] ∧ label ≠ id
    · rcases labelPart_eq h hl with ⟨-, hpart⟩ | ⟨-, hpart⟩
      · rw [hpart, List.drop_succ_cons, List.drop_succ_cons, List.drop_append]
        cases hn : n - label.length with
        | zero =>
          rw [List.drop_zero, List.append_assoc]
          exact endQuote_append (fun hmem => hq (List.mem_of_mem_drop hmem)) (Or.inr rfl)
        | succ j =>
          rw [List.drop_succ_cons, List.drop_nil, List.append_nil]
          exact endQuote_append (fun hmem => hq (List.mem_of_mem_drop hmem)) (Or.inl rfl)
      · rw [hpart, List.drop_succ_cons]
        exact endQuote_append (fun hmem => hq (List.mem_of_mem_drop hmem)) (Or.inl rfl)
    · rw [labelPart, if_neg hl, List.drop_nil]
      exact endQuote_append (u := []) (by simp) (Or.inl rfl)

/-- A word at the front, behind blanks. -/
theorem no_blank_of_front {cap : Nat} {s t tok rest : Str} (hs : quote ∉ s)
    (hsome : ∃ c ∈ s, isspace c = false) (h : nextToken cap (s ++ t) = some (tok, rest)) : (32 : UInt8) ∉ tok := by
  cases hd : s.dropWhile isspace with
  | nil =>
    obtain ⟨c, hc, hno⟩ := hsome
    rw [List.dropWhile_eq_nil_iff.mp hd c hc] at hno
    simp at hno
  | cons c q =>
    have hq : c ≠ quote := by
      rintro rfl
      exact hs ((List.dropWhile_suffix isspace).subset (by rw [hd]; exact List.mem_cons_self))
    have hfront : (s ++ t).dropWhile isspace = c :: (q ++ t) := by
      rw [List.dropWhile_append, hd]
      simp
    intro hmem
    exact absurd (no_blank_of_word hfront hq h 32 hmem) (by decide)

theorem no_blank_of_front_trim {cap : Nat} {s t tok rest : Str} (hs : quote ∉ s)
    (hsome : ∃ c ∈ s, isspace c = false) (h : nextToken cap (trim (s ++ t)) = some (tok, rest)) :
    (32 : UInt8) ∉ tok := by
  have hsplit := List.takeWhile_append_dropWhile (p := isspace) (l := s)
  cases hd : s.dropWhile isspace with
  | nil =>
    obtain ⟨c, hc, hno⟩ := hsome
    rw [List.dropWhile_eq_nil_iff.mp hd c hc] at hno
    simp at hno
  | cons c q =>
    have hno : isspace c = false := by
      have hne : s.dropWhile isspace ≠ [] := by simp [hd]
      have h := List.head_dropWhile_not isspace hne
      simpa [hd] using h
    have hq : quote ∉ [c] := by
      intro hmem
      rw [List.mem_singleton] at hmem
      exact hs ((List.dropWhile_suffix isspace).subset (by rw [hd, hmem]; exact List.mem_cons_self))
    rw [← hsplit, hd, List.append_assoc, trim_blank_append (fun _ => List.mem_takeWhile_imp),
      List.cons_append, trim_of_first hno] at h
    exact no_blank_of_front (t := rtrim (q ++ t)) hq ⟨c, List.mem_cons_self, hno⟩ h

/-- What is in quotes, behind blanks, begins with its first two characters. -/
theorem token_of_quoted {cap : Nat} {ws tok rest : Str} {c d : UInt8} {v : Str} (hws : ∀ c ∈ ws, isspace c = true)
    (hcap : 2 < cap) (hc : c ≠ quote) (hd : d ≠ quote)
    (h : nextToken cap (ws ++ quote :: c :: d :: v) = some (tok, rest)) : ∃ u, tok = c :: d :: u := by
  unfold nextToken at h
  rw [dropWhile_blank hws, List.dropWhile_cons_of_neg (by decide)] at h
  dsimp only at h
  rw [if_pos rfl] at h
  have htok := (Prod.mk.inj (Option.some.inj h)).1
  obtain ⟨n, hn⟩ : ∃ n, cap - 1 = n + 2 := ⟨cap - 3, by omega⟩
  rw [List.takeWhile_cons_of_pos (by simpa using hc), List.takeWhile_cons_of_pos (by simpa using hd), hn,
    List.take_succ_cons, List.take_succ_cons] at htok
  exact ⟨_, htok.symm⟩

/-- **Ids with a blank.** The first piece does not offer the folder that is meant. -/
theorem first_not_meant (h : Fits id fpath label) (hb : (32 : UInt8) ∈ id) (z : Str) :
    folderOf (ascii "folder = " ++ (folderHead id fpath mode ++ z)) ≠ some (meant id fpath mode label) := by
  rw [folderOf_folder]
  intro hparse
  obtain ⟨rest, rest', htok, htok'⟩ := parseFolder_tokens hparse
  have hshape : folderHead id fpath mode ++ z =
      id ++ 32 :: (quoted configPathMax fpath ++ 32 :: (modeWord mode ++ z)) := by simp [folderHead]
  have hid : (32 : UInt8) ∈ (meant id fpath mode label).id := hb
  rw [hshape] at htok
  by_cases hsome : ∃ c ∈ id, isspace c = false
  · exact no_blank_of_front_trim (fun hmem => (safe_facts h.id_safe hmem).1 rfl) hsome htok hid
  · -- only blanks: the id is read from the path
    have hall : ∀ c ∈ id ++ [32], isspace c = true := by
      intro c hc
      rcases List.mem_append.mp hc with hc | hc
      · by_contra hno
        exact hsome ⟨c, hc, by simpa using hno⟩
      · rw [List.mem_singleton.mp hc]
        rfl
    have hpath : fpath.take (configPathMax - 1) = fpath :=
      List.take_of_length_le (by have := h.path_len; omega)
    have hq : quote ∉ fpath := fun hmem => (safe_facts h.path_safe hmem).1 rfl
    rw [show id ++ 32 :: (quoted configPathMax fpath ++ 32 :: (modeWord mode ++ z)) =
      (id ++ [32]) ++ (quoted configPathMax fpath ++ 32 :: (modeWord mode ++ z)) by simp,
      trim_blank_append hall] at htok
    unfold quoted at htok
    dsimp only at htok
    rw [hpath] at htok
    cases hany : fpath.any blank with
    | false =>
      have hnone : (32 : UInt8) ∉ fpath := by
        intro hmem
        rw [(any_blank_iff h.path_safe).mpr hmem] at hany
        simp at hany
      obtain ⟨c, t, hcons⟩ := List.exists_cons_of_ne_nil h.path_ne
      have hc : c ∈ fpath := by simp [hcons]
      rw [hany, if_neg (by simp), List.nil_append, List.append_nil] at htok
      exact no_blank_of_front_trim hq ⟨c, hc, not_blank_of_safe h.path_safe hnone hc⟩ htok hid
    | true =>
      have hspace := (any_blank_iff h.path_safe).mp hany
      obtain ⟨-, -, m, y, w, hword, hmq, hm, -, -⟩ := mode_facts mode
      rw [hany, if_pos rfl] at htok
      have htrim : trim ([quote] ++ fpath ++ [quote] ++ 32 :: (modeWord mode ++ z)) =
          quote :: (fpath ++ quote :: (32 :: m :: rtrim (y ++ [w] ++ z))) := by
        have hafter : rtrim (32 :: m :: (y ++ [w] ++ z)) = 32 :: m :: rtrim (y ++ [w] ++ z) :=
          rtrim_append_of_last (s := [32]) hm
        rw [← hafter, ← rtrim_append_of_last (by decide), ← trim_of_first (by decide), hword]
        simp
      rw [htrim] at htok
      generalize rtrim (y ++ [w] ++ z) = v at htok
      have hpathmem : (32 : UInt8) ∈ (meant id fpath mode label).path := hspace
      -- the word for the mode is no path with a blank
      have hmode : nextToken configPathMax (32 :: m :: v) ≠ some ((meant id fpath mode label).path, rest') := by
        intro hmode
        refine absurd (no_blank_of_word (c := m) (q := v) ?_ hmq hmode 32 hpathmem) (by decide)
        rw [List.dropWhile_cons_of_pos (by decide), List.dropWhile_cons_of_neg (by simp [hm])]
      rcases Nat.lt_or_ge fpath.length configFolderIdMax with hlt | hge
      · have hread := nextToken_quoted (w := []) (by simp) hq hlt (32 :: m :: v)
        rw [List.nil_append, htok] at hread
        obtain ⟨-, rfl⟩ := Prod.mk.inj (Option.some.inj hread)
        exact hmode htok'
      · -- the path is longer than an id can be: what is left of it is read as the path
        have hread := nextToken_cut hq hge (32 :: m :: v)
        rw [htok] at hread
        obtain ⟨hcut, hleft⟩ := Prod.mk.inj (Option.some.inj hread)
        have hcut : id = fpath.take (configFolderIdMax - 1) := hcut
        generalize hr : fpath.drop (configFolderIdMax - 1) = r at hleft
        have hrq : quote ∉ r := by
          intro hmem
          rw [← hr] at hmem
          exact hq (List.mem_of_mem_drop hmem)
        by_cases hnil : r = []
        · rw [hleft, if_pos hnil] at htok'
          exact hmode htok'
        · rw [hleft, if_neg hnil] at htok'
          by_cases hrest : ∃ c ∈ r, isspace c = false
          · exact no_blank_of_front hrq hrest htok' hpathmem
          · have hws : ∀ c ∈ r, isspace c = true := by
              intro c hc
              by_contra hno
              exact hrest ⟨c, hc, by simpa using hno⟩
            -- the word for the mode would be in the path, and so in the id
            obtain ⟨u, hu⟩ := token_of_quoted hws (by decide) (by decide) hmq htok'
            have hu : fpath = 32 :: m :: u := hu
            have hmid : m ∈ id := by
              rw [hcut, hu]
              simp [configFolderIdMax]
            rw [hall m (List.mem_append_left _ hmid)] at hm
            simp at hm

/-- **Ids with a blank.** No piece offers the folder that is meant. -/
theorem not_offered_of_blank (h : Fits id fpath label) (hb : (32 : UInt8) ∈ id) :
    meant id fpath mode label ∉ (piecesOf (folderLine id fpath mode label)).filterMap folderOf := by
  intro hmem
  obtain ⟨p, hp, hfolder⟩ := List.mem_filterMap.mp hmem
  obtain ⟨z, others, hpieces, hothers⟩ := piecesOf_line mode h
  rw [hpieces] at hp
  rcases List.mem_cons.mp hp with rfl | hp
  · exact first_not_meant h hb z hfolder
  · exact no_blank_of_endQuote (hothers p hp) hfolder hb

end Buffer

/-! ## One folder more -/

/-- One folder more, and nothing else. -/
def AddsFolder (f : ConfigFolder) (old new : Config) : Prop :=
  new.settings = old.settings ∧ new.peers = old.peers ∧ Roster.Inserted f old.folders new.folders

section Append
variable {id fpath label : Str} {mode : FolderMode} {base : Config} {post : List Str}

variable (post) in
theorem addsFolder_of_legible (h : Fits id fpath label) (hl : Legible id fpath mode label)
    (hroom : (post.foldl loadLine base).folders.length < configMaxFolders)
    (hid : ∀ f ∈ (post.foldl loadLine base).folders, f.id ≠ id) :
    AddsFolder (meant id fpath mode label) (post.foldl loadLine base)
      (post.foldl loadLine (loadLine base (folderLine id fpath mode label))) := by
  obtain ⟨hf, hp, hs⟩ := offers_of_legible h hl
  have hload : loadLine base (folderLine id fpath mode label) =
      loadPieces base (piecesOf (folderLine id fpath mode label)) := rfl
  rw [← loadPieces_unlines] at hroom hid ⊢
  rw [← loadPieces_unlines, hload]
  rw [folders_foldl] at hroom hid
  refine ⟨?_, ?_, ?_⟩
  · rw [settings_foldl, settings_foldl, settings_foldl, hs]
    rfl
  · rw [peers_foldl, peers_foldl, peers_foldl, hp]
    rfl
  · have hpre := Roster.prefix_run ConfigFolder.id configMaxFolders base.folders
      ((TextLines.pieces nl lineRoom (TextLines.unlines nl post)).filterMap folderOf)
    rw [folders_foldl, folders_foldl, folders_foldl, hf]
    refine Roster.run_insert (Roster.inserted_of_new ?_ ?_) hroom hid
    · exact Nat.lt_of_le_of_lt hpre.length_le hroom
    · exact fun f hmem => hid f (hpre.subset hmem)

variable (post) in
/-- The folder that is meant is there only after a legible line. -/
theorem legible_of_mem (h : Fits id fpath label)
    (hroom : (post.foldl loadLine base).folders.length < configMaxFolders)
    (hid : ∀ f ∈ (post.foldl loadLine base).folders, f.id ≠ id)
    (hmem : meant id fpath mode label ∈
      (post.foldl loadLine (loadLine base (folderLine id fpath mode label))).folders) :
    Legible id fpath mode label := by
  have hload : loadLine base (folderLine id fpath mode label) =
      loadPieces base (piecesOf (folderLine id fpath mode label)) := rfl
  rw [← loadPieces_unlines] at hroom hid hmem
  rw [folders_foldl] at hroom hid
  rw [hload, folders_foldl, folders_foldl] at hmem
  have hpre := Roster.prefix_run ConfigFolder.id configMaxFolders base.folders
    ((TextLines.pieces nl lineRoom (TextLines.unlines nl post)).filterMap folderOf)
  have hbase : ∀ f ∈ base.folders, f.id ≠ id := fun f hf => hid f (hpre.subset hf)
  have hlt : base.folders.length < configMaxFolders := Nat.lt_of_le_of_lt hpre.length_le hroom
  rcases Roster.mem_of_run hmem with hline | hpost
  · by_contra hno
    by_cases hb : (32 : UInt8) ∈ id
    · rcases Roster.mem_of_run hline with hold | hoffer
      · exact hbase _ hold rfl
      · exact not_offered_of_blank h hb hoffer
    · obtain ⟨g, offers, hoffers, hg, hne⟩ := offers_of_long h hb hno
      rw [hoffers] at hline
      have htaken : Roster.Inserted g base.folders (Roster.add ConfigFolder.id configMaxFolders base.folders g) :=
        Roster.inserted_of_new hlt (hg ▸ hbase)
      have hin := Roster.mem_of_key htaken.mem hg hline
      have hin : _ ∈ Roster.run ConfigFolder.id configMaxFolders base.folders [g] := hin
      rcases Roster.mem_of_run hin with hin | hin
      · exact hbase _ hin rfl
      · exact hne (List.mem_singleton.mp hin).symm
  · obtain ⟨f, hf, hkey⟩ := Roster.key_of_offered hroom hpost
    exact absurd hkey (hid f hf)

/-- What a line adds finds room and a new id. -/
theorem room_of_mem {line : Str} (hnew : meant id fpath mode label ∉ base.folders)
    (hmem : meant id fpath mode label ∈ (loadLine base line).folders) :
    base.folders.length < configMaxFolders ∧ ∀ f ∈ base.folders, f.id ≠ id := by
  unfold loadLine at hmem
  rw [folders_foldl] at hmem
  refine ⟨Roster.room_of_mem hnew hmem, ?_⟩
  intro f hf hkey
  exact hnew (Roster.mem_of_key hf hkey hmem)

theorem meant_not_mem {cfg : Config} (hid : ∀ f ∈ cfg.folders, f.id ≠ id) :
    meant id fpath mode label ∉ cfg.folders :=
  fun hmem => hid _ hmem rfl

end Append

/-- **One folder more.** A folder that is written to the file is read back from there, and nothing
else changes, exactly when its line is legible and the note before it does no harm. -/
theorem appended_folder_iff {path text id fpath label new : Str} {mode : FolderMode} {cfg : Config}
    (hi : id ≠ [] ∧ id.length < configFolderIdMax) (hp : fpath ≠ [] ∧ fpath.length < configPathMax)
    (hl : label.length < configNameMax)
    (hroom : (configLoad (some text) cfg).folders.length < configMaxFolders)
    (hid : ∀ f ∈ (configLoad (some text) cfg).folders, f.id ≠ id)
    (happend : configAppendFolder path (some text) id fpath mode label = some new) :
    (AddsFolder (meant id fpath mode label) (configLoad (some text) cfg) (configLoad (some new) cfg) ∧
        (Carried path text ∨ meant id fpath mode label ∉ (noted text cfg).folders)) ↔
      Legible id fpath mode label ∧ (Carried path text ∨ noted text cfg = configLoad (some text) cfg) := by
  unfold configAppendFolder at happend
  split at happend
  · rename_i hsafe
    rw [Bool.and_eq_true, Bool.and_eq_true] at hsafe
    have h : Fits id fpath label := ⟨hi.1, hi.2, hsafe.1.1, hp.1, hp.2, hsafe.1.2, hl, hsafe.2⟩
    obtain rfl := Option.some.inj happend
    by_cases hc : Carried path text
    · obtain ⟨pre, post, hlines, hnew⟩ :=
        configLoad_append hc (folderLine id fpath mode label) (ascii "folder") cfg
      have hold : configLoad (some text) cfg = post.foldl loadLine (pre.foldl loadLine cfg) := by
        rw [configLoad_eq, hlines, List.foldl_append]
      rw [hold] at hroom hid ⊢
      rw [hnew]
      constructor
      · rintro ⟨hadds, -⟩
        exact ⟨legible_of_mem post h hroom hid hadds.2.2.mem, Or.inl hc⟩
      · rintro ⟨hleg, -⟩
        exact ⟨addsFolder_of_legible post h hleg hroom hid, Or.inl hc⟩
    · rw [configLoad_glued hc]
      constructor
      · rintro ⟨hadds, hnot⟩
        -- what the line adds is the folder, so that the note added nothing
        have hnew := hnot.resolve_left hc
        obtain ⟨hroom', hid'⟩ := room_of_mem hnew hadds.2.2.mem
        have hleg : Legible id fpath mode label := legible_of_mem [] h hroom' hid' hadds.2.2.mem
        obtain ⟨hs, hpeers, hf⟩ := addsFolder_of_legible [] h hleg hroom' hid'
        refine ⟨hleg, Or.inr ?_⟩
        have hfolders := hf.unique hadds.2.2 hnew (meant_not_mem hid)
        exact Config.ext (hs.symm.trans hadds.1) (hpeers.symm.trans hadds.2.1) hfolders
      · rintro ⟨hleg, hharm⟩
        have hsame := hharm.resolve_left hc
        rw [hsame]
        exact ⟨addsFolder_of_legible [] h hleg hroom hid, Or.inr (meant_not_mem hid)⟩
  · simp at happend

theorem appended_folder_docs :
    AddsFolder (meant (ascii "docs") (ascii "Work:My Docs") .sendOnly (ascii "My Docs"))
      (configLoad (some (ascii "window = 4\n")) configDefaults)
      (configLoad (some (appendAfterAnchor (ascii "ENVARC:cfg") (some (ascii "window = 4\n"))
        (folderLine (ascii "docs") (ascii "Work:My Docs") .sendOnly (ascii "My Docs")) (ascii "folder")))
        configDefaults) :=
  ((appended_folder_iff (by decide) (by decide) (by decide) (by decide +kernel)
    (by decide +kernel) (if_pos (by decide))).mpr
      ⟨(by decide +kernel : Legible (ascii "docs") (ascii "Work:My Docs") .sendOnly (ascii "My Docs")),
        Or.inl (Or.inl (by decide))⟩).1

/-- The id is written without quotes, and read as two words. -/
theorem appended_folder_blank_id :
    ∃ new, configAppendFolder (ascii "ENVARC:cfg") (some []) (ascii "my docs") (ascii "Work:Docs") .sendOnly [] =
        some new ∧
      (configLoad (some []) configDefaults).folders = [] ∧
      (configLoad (some new) configDefaults).folders =
        [⟨ascii "my", ascii "sendonly", ascii "docs", .sendReceive⟩] ∧
      ¬ AddsFolder (meant (ascii "my docs") (ascii "Work:Docs") .sendOnly [])
        (configLoad (some []) configDefaults) (configLoad (some new) configDefaults) := by
  have hload : (configLoad (some (appendAfterAnchor (ascii "ENVARC:cfg") (some [])
      (folderLine (ascii "my docs") (ascii "Work:Docs") .sendOnly []) (ascii "folder"))) configDefaults).folders =
        [⟨ascii "my", ascii "sendonly", ascii "docs", .sendReceive⟩] := by
    decide +kernel
  refine ⟨_, if_pos (by decide), rfl, hload, ?_⟩
  intro hadds
  have hmem := hadds.2.2.mem
  rw [hload] at hmem
  revert hmem
  decide

/-- The end of a label, obeyed as a setting. -/
example : (configLoad (configAppendFolder (ascii "ENVARC:cfg") (some []) (List.replicate 63 97)
    (List.replicate 127 98) .sendOnly (List.replicate 45 120 ++ ascii "window=1")) configDefaults).settings.window =
      1 := by
  decide +kernel

end Amisync.ConfigFile

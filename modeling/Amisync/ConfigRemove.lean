import Amisync.ConfigPeers
import Mathlib.Logic.Relation

/-!
# Lines that are deleted again (`config_remove_peer`, `config_remove_folder`)

A peer or a folder that is dropped at runtime is deleted from the file, line by
line, and with each line the note that stands right above it. The loop goes back
over the note.

* `removeLoop_step`, `removeLoop_eq`: the loop passes every line once, and keeps what it has passed.
* `Deletes`: one line and its note; `deletes_kept`: the loop does nothing else.
* `runtime_edits`: a line that is added comes out again, and no other line is
  touched.
-/

namespace Amisync.ConfigFile

open Ctype

/-! ## Lines about an entry -/

/-- `value_of`: what is set on a line that is no comment. -/
def valueOf (line key : Str) : Option Str :=
  let p := line.dropWhile blank
  if p.head? = some 59 || p.head? = some 35 then none
  else if !key.isPrefixOf p then none
  else
    let q := (p.drop key.length).dropWhile blank
    if q.head? = some 61 then some (q.tail.dropWhile blank) else none

/-- `token_len` -/
def tokenLen (v : Str) : Nat := (v.takeWhile fun c => !blank c).length

def isPeerLineFor (line id : Str) : Bool :=
  match valueOf line (ascii "peer") with
  | none => false
  | some v =>
    if tokenLen v = 0 || deviceIdBufsz ≤ tokenLen v then false
    else deviceIdEqual (v.take (tokenLen v)) id

def isFolderLineFor (line id : Str) : Bool :=
  match valueOf line (ascii "folder") with
  | none => false
  | some v => tokenLen v = id.length && id.isPrefixOf v

/-! ## The loop -/

/-- The loop of `remove_matching`, at line `i`. The flag says that something was removed. -/
def removeLoop (m : Str → Bool) : Nat → Nat → List Str → Bool → List Str × Bool
  | 0, _, ls, removed => (ls, removed)
  | fuel + 1, i, ls, removed =>
    match ls[i]? with
    | none => (ls, removed)
    | some l =>
      if m l then
        let ls := ls.eraseIdx i
        -- the note goes with it
        if 0 < i && ls[i - 1]? = some runtimeNote then removeLoop m fuel (i - 1) (ls.eraseIdx (i - 1)) true
        else removeLoop m fuel i ls true
      else removeLoop m fuel (i + 1) ls removed

/-- `remove_matching`: the text that is written, if one is. Each round is done with one line. -/
def removeMatching (path : Str) (file : Option Str) (id : Str) (m : Str → Str → Bool) : Option Str :=
  match file with
  | none => none
  | some text =>
    if id = [] || confdocMaxBytes < text.length then none
    else
      let ls := TextLines.lines nl text
      let r := removeLoop (fun l => m l id) ls.length 0 ls false
      if r.2 && path.length + 5 < 160 then some (TextLines.unlines nl r.1) else none

def configRemovePeer (path : Str) (file : Option Str) (id : Str) : Option Str :=
  removeMatching path file id isPeerLineFor

def configRemoveFolder (path : Str) (file : Option Str) (id : Str) : Option Str :=
  removeMatching path file id isFolderLineFor

/-! ## What it keeps -/

/-- Lines that have been passed, without the note at their end. -/
def dropNote (done : List Str) : List Str :=
  if done.getLast? = some runtimeNote then done.dropLast else done

def passLine (m : Str → Bool) (done : List Str) (l : Str) : List Str :=
  if m l then dropNote done else done ++ [l]

/-- The lines that are left. -/
def kept (m : Str → Bool) (ls : List Str) : List Str := ls.foldl (passLine m) []

section Loop
variable {m : Str → Bool}

theorem dropNote_concat (done : List Str) (x : Str) :
    dropNote (done ++ [x]) = if x = runtimeNote then done else done ++ [x] := by
  simp [dropNote]

theorem passLine_delete {l : Str} (h : m l = true) (done : List Str) : passLine m done l = dropNote done := by
  simp [passLine, h]

theorem passLine_keep {l : Str} (h : m l = false) (done : List Str) : passLine m done l = done ++ [l] := by
  simp [passLine, h]

/-- The line above the one that has just been deleted. -/
theorem eraseIdx_above (d : List Str) (x : Str) (todo : List Str) :
    (d ++ [x] ++ todo)[(d ++ [x]).length - 1]? = some x ∧
      (d ++ [x] ++ todo).eraseIdx ((d ++ [x]).length - 1) = d ++ todo := by
  have hidx : (d ++ [x]).length - 1 = d.length := by simp
  rw [hidx, List.append_assoc]
  constructor
  · simp
  · rw [List.eraseIdx_append_of_length_le (Nat.le_refl _), Nat.sub_self]
    rfl

/-- **One round.** The loop stands between what it has passed and what is left. -/
theorem removeLoop_step (fuel : Nat) (done todo : List Str) (l : Str) (removed : Bool) :
    removeLoop m (fuel + 1) done.length (done ++ l :: todo) removed =
      removeLoop m fuel (passLine m done l).length (passLine m done l ++ todo) (removed || m l) := by
  have hline : (done ++ l :: todo)[done.length]? = some l := by simp
  have herase : (done ++ l :: todo).eraseIdx done.length = done ++ todo := by
    rw [List.eraseIdx_append_of_length_le (Nat.le_refl _), Nat.sub_self, List.eraseIdx_cons_zero]
  rw [removeLoop, hline]
  dsimp only
  cases hm : m l with
  | false =>
    rw [if_neg (by simp), passLine_keep hm, Bool.or_false, List.length_append, List.append_assoc]
    rfl
  | true =>
    rw [if_pos rfl, herase, passLine_delete hm, Bool.or_true]
    rcases List.eq_nil_or_concat done with rfl | ⟨d, x, rfl⟩
    · rfl
    · obtain ⟨habove, hback⟩ := eraseIdx_above d x todo
      rw [List.concat_eq_append, habove, hback, dropNote_concat]
      by_cases hx : x = runtimeNote
      · rw [if_pos (by simp [hx]), if_pos hx, List.length_append]
        rfl
      · rw [if_neg (by simp [hx]), if_neg hx]

/-- **The loop.** It passes one line after the other. -/
theorem removeLoop_eq (done todo : List Str) {fuel : Nat} (hfuel : todo.length ≤ fuel) (removed : Bool) :
    removeLoop m fuel done.length (done ++ todo) removed =
      (todo.foldl (passLine m) done, removed || todo.any m) := by
  induction todo generalizing done fuel removed with
  | nil =>
    cases fuel with
    | zero => simp [removeLoop]
    | succ fuel => simp [removeLoop]
  | cons l todo ih =>
    cases fuel with
    | zero => simp at hfuel
    | succ fuel =>
      have hfuel : todo.length ≤ fuel := by simpa using hfuel
      rw [removeLoop_step, ih _ hfuel, List.foldl_cons, List.any_cons, Bool.or_assoc]

/-- One line is deleted, and the note right above it. -/
inductive Deletes (m : Str → Bool) : List Str → List Str → Prop
  | line (done todo : List Str) (l : Str) (h : m l = true) : Deletes m (done ++ l :: todo) (dropNote done ++ todo)

theorem deletes_foldl (done todo : List Str) :
    Relation.ReflTransGen (Deletes m) (done ++ todo) (todo.foldl (passLine m) done) := by
  induction todo generalizing done with
  | nil =>
    rw [List.append_nil]
    exact Relation.ReflTransGen.refl
  | cons l todo ih =>
    rw [List.foldl_cons]
    cases hm : m l with
    | false =>
      have hrest := ih (done ++ [l])
      rw [List.append_assoc] at hrest
      rw [passLine_keep hm]
      exact hrest
    | true =>
      rw [passLine_delete hm]
      exact Relation.ReflTransGen.head (Deletes.line done todo l hm) (ih (dropNote done))

/-- Nothing else is done to the lines. -/
theorem deletes_kept (ls : List Str) : Relation.ReflTransGen (Deletes m) ls (kept m ls) :=
  deletes_foldl [] ls

theorem dropNote_sublist (done : List Str) : (dropNote done).Sublist done := by
  unfold dropNote
  split
  · exact List.dropLast_sublist done
  · exact List.Sublist.refl done

theorem mem_foldl {done todo : List Str} {l : Str} (h : l ∈ todo.foldl (passLine m) done) :
    l ∈ done ∨ (l ∈ todo ∧ m l = false) := by
  induction todo generalizing done with
  | nil => exact Or.inl h
  | cons x todo ih =>
    rw [List.foldl_cons] at h
    rcases ih h with hmem | ⟨hmem, hno⟩
    · unfold passLine at hmem
      split at hmem
      · exact Or.inl ((dropNote_sublist done).subset hmem)
      · rename_i hx
        rcases List.mem_append.mp hmem with hmem | hmem
        · exact Or.inl hmem
        · obtain rfl := List.mem_singleton.mp hmem
          exact Or.inr ⟨List.mem_cons_self, by simpa using hx⟩
    · exact Or.inr ⟨List.mem_cons_of_mem x hmem, hno⟩

/-- What is left was there, and is not to be deleted. -/
theorem mem_kept {ls : List Str} {l : Str} (h : l ∈ kept m ls) : l ∈ ls ∧ m l = false := by
  rcases mem_foldl h with hmem | hmem
  · simp at hmem
  · exact hmem

/-- Notes apart. -/
def noNotes (ls : List Str) : List Str := ls.filter fun l => l ≠ runtimeNote

theorem noNotes_append (ls ls' : List Str) : noNotes (ls ++ ls') = noNotes ls ++ noNotes ls' :=
  List.filter_append ..

theorem noNotes_dropNote (done : List Str) : noNotes (dropNote done) = noNotes done := by
  unfold dropNote
  split
  · rename_i h
    obtain ⟨d, rfl⟩ := List.getLast?_eq_some_iff.mp h
    rw [List.dropLast_concat, noNotes_append]
    simp [noNotes]
  · rfl

theorem noNotes_foldl (done todo : List Str) :
    noNotes (todo.foldl (passLine m) done) = noNotes done ++ noNotes (todo.filter fun l => !m l) := by
  induction todo generalizing done with
  | nil => simp [noNotes]
  | cons l todo ih =>
    rw [List.foldl_cons, ih]
    cases hm : m l with
    | false =>
      rw [passLine_keep hm, noNotes_append, List.filter_cons_of_pos (by simp [hm]), List.append_assoc,
        ← noNotes_append]
      rfl
    | true =>
      rw [passLine_delete hm, noNotes_dropNote, List.filter_cons_of_neg (by simp [hm])]

/-- **Notes apart**, the lines are kept in order. -/
theorem noNotes_kept (ls : List Str) : noNotes (kept m ls) = noNotes (ls.filter fun l => !m l) :=
  noNotes_foldl [] ls

theorem foldl_pass (hno : ∀ l ∈ todo, m l = false) (done : List Str) :
    todo.foldl (passLine m) done = done ++ todo := by
  induction todo generalizing done with
  | nil => simp
  | cons l todo ih =>
    have hrest := fun x hx => hno x (List.mem_cons_of_mem l hx)
    rw [List.foldl_cons, passLine_keep (hno l List.mem_cons_self), ih hrest, List.append_assoc]
    rfl

/-- A line that was added with its note is all that is deleted. -/
theorem kept_inserted {pre post : List Str} {line : Str} (hpre : ∀ l ∈ pre, m l = false)
    (hpost : ∀ l ∈ post, m l = false) (hnote : m runtimeNote = false) (hline : m line = true) :
    kept m (pre ++ [runtimeNote, line] ++ post) = pre ++ post := by
  have hfirst : ([] : List Str) ++ pre = pre := rfl
  have hdone : dropNote (pre ++ [runtimeNote]) = pre := by rw [dropNote_concat, if_pos rfl]
  unfold kept
  rw [List.foldl_append, List.foldl_append, foldl_pass hpre, hfirst, List.foldl_cons, List.foldl_cons,
    List.foldl_nil, passLine_keep hnote, passLine_delete hline, hdone, foldl_pass hpost]

end Loop

/-! ## The text -/

/-- The file can be read as lines and written back: it is not too long, and neither is its name. -/
def Editable (path text : Str) : Prop := text.length ≤ confdocMaxBytes ∧ path.length + 5 < 160

instance (path text : Str) : Decidable (Editable path text) := inferInstanceAs (Decidable (_ ∧ _))

section Text
variable {path text id : Str} {m : Str → Str → Bool}

theorem removeMatching_eq (hio : Editable path text) (hid : id ≠ []) :
    removeMatching path (some text) id m =
      if (TextLines.lines nl text).any (fun l => m l id) then
        some (TextLines.unlines nl (kept (fun l => m l id) (TextLines.lines nl text)))
      else none := by
  have hloop := removeLoop_eq (m := fun l => m l id) [] (TextLines.lines nl text) (Nat.le_refl _) false
  rw [List.length_nil, List.nil_append, Bool.false_or] at hloop
  have hlong : ¬ (id = [] || confdocMaxBytes < text.length) = true := by
    have := hio.1
    simp [hid]
    omega
  unfold removeMatching
  dsimp only
  rw [if_neg hlong, hloop]
  simp [hio.2, kept]

/-- Of a text that is written, these are the lines. -/
theorem lines_kept (text : Str) (p : Str → Bool) :
    TextLines.lines nl (TextLines.unlines nl (kept p (TextLines.lines nl text))) =
      kept p (TextLines.lines nl text) := by
  refine TextLines.lines_unlines ?_
  intro l hl
  exact TextLines.notMem_of_mem_lines (mem_kept hl).1

/-- What is set stands after the key, blanks and the `=`. -/
theorem valueOf_of_split {l key w r : Str} (hkey : ∀ c, key.head? = some c → c ≠ 59 ∧ c ≠ 35) (hne : key ≠ [])
    (hl : l.dropWhile blank = key ++ (w ++ 61 :: r)) (hw : ∀ c ∈ w, blank c = true) :
    valueOf l key = some (r.dropWhile blank) := by
  obtain ⟨c, t, rfl⟩ := List.exists_cons_of_ne_nil hne
  obtain ⟨hsemi, hhash⟩ := hkey c rfl
  have hprefix : (c :: t).isPrefixOf (c :: t ++ (w ++ 61 :: r)) = true :=
    List.isPrefixOf_iff_prefix.mpr (List.prefix_append _ _)
  have hsign : (w ++ 61 :: r).dropWhile blank = 61 :: r := by
    rw [List.dropWhile_append_of_pos hw]
    rfl
  unfold valueOf
  simp only [hl, hprefix, List.drop_left, hsign, List.tail_cons]
  simp [hsemi, hhash]

theorem split_of_valueOf {l key v : Str} (h : valueOf l key = some v) :
    ∃ w r, l.dropWhile blank = key ++ (w ++ 61 :: r) ∧ (∀ c ∈ w, blank c = true) ∧ v = r.dropWhile blank := by
  unfold valueOf at h
  dsimp only at h
  split at h
  · simp at h
  · split at h
    · simp at h
    · rename_i hprefix
      obtain ⟨q, hq⟩ : key <+: l.dropWhile blank := by simpa using hprefix
      split at h
      · rename_i hsign
        rw [← hq, List.drop_left] at h hsign
        obtain ⟨r, hr⟩ : ∃ r, q.dropWhile blank = 61 :: r := by
          cases hd : q.dropWhile blank with
          | nil => simp [hd] at hsign
          | cons c r =>
            rw [hd, List.head?_cons, Option.some.injEq] at hsign
            exact ⟨r, by rw [hsign]⟩
        refine ⟨q.takeWhile blank, r, ?_, fun c hc => List.mem_takeWhile_imp hc, ?_⟩
        · rw [← hr, List.takeWhile_append_dropWhile, hq]
        · rw [hr, List.tail_cons] at h
          exact (Option.some.inj h).symm
      · simp at h

theorem valueOf_peer (w : Str) : valueOf (ascii "peer = " ++ w) (ascii "peer") = some (w.dropWhile blank) := by
  have hkey : ascii "peer = " = ascii "peer" ++ [32, 61, 32] := by decide
  have hline : (ascii "peer = " ++ w).dropWhile blank = ascii "peer" ++ ([32] ++ 61 :: 32 :: w) := by
    rw [hkey, List.append_assoc]
    rfl
  have hfirst : ∀ c, (ascii "peer").head? = some c → c ≠ 59 ∧ c ≠ 35 := by
    intro c hc
    obtain rfl := Option.some.inj hc
    decide
  have hblank : ∀ c ∈ ([32] : Str), blank c = true := List.forall_mem_singleton.mpr rfl
  have hvalue : (32 :: w).dropWhile blank = w.dropWhile blank := rfl
  rw [valueOf_of_split hfirst (by decide) hline hblank, hvalue]

/-- No line is about an entry without an id. -/
theorem isPeerLineFor_nil (l : Str) : isPeerLineFor l [] = false := by
  have hnil : ∀ v, deviceIdEqual v [] = false := by
    intro v
    have hbad : deviceIdNormalize [] = none := by decide
    unfold deviceIdEqual
    rw [hbad]
    cases deviceIdNormalize v <;> rfl
  unfold isPeerLineFor
  split
  · rfl
  · split
    · rfl
    · exact hnil _

theorem not_peerLine_note (id : Str) : isPeerLineFor runtimeNote id = false := by
  have hvalue : valueOf runtimeNote (ascii "peer") = none := by decide
  unfold isPeerLineFor
  rw [hvalue]

theorem blank_of_not_space (c : UInt8) : isspace c = false → blank c = false := by
  revert c
  exact forall_byte (by decide +kernel)

theorem deviceIdEqual_self {canon : Str} (h : deviceIdNormalize id = some canon) : deviceIdEqual id id = true := by
  unfold deviceIdEqual
  rw [h]
  simp

/-- What stands after the id on a line. -/
theorem peerLine_split (hid : Formatted id) (host : Str) (port : Nat) :
    ∃ r, peerLine id host port = ascii "peer = " ++ (id ++ r) ∧ (∀ c, r.head? = some c → blank c = true) ∧
      (textFieldSafe host = true → nl ∉ r) := by
  have htake : id.take (deviceIdBufsz - 1) = id :=
    List.take_of_length_le (by rw [hid.facts.1]; decide)
  have hhost : textFieldSafe host = true → nl ∉ host.take (configHostMax - 1) := by
    intro hsafe hmem
    exact (safe_facts hsafe (List.mem_of_mem_take hmem)).2.1 rfl
  have hspace : nl ≠ 32 := by decide
  have hcolon : nl ≠ 58 := by decide
  unfold peerLine
  dsimp only
  rw [htake]
  split
  · rename_i hport
    refine ⟨32 :: (host.take (configHostMax - 1) ++ 58 :: decimal port), by simp, by simp [blank], ?_⟩
    intro hsafe
    have hdigits : nl ∉ decimal port := by
      intro hmem
      have hdigit := isdigit_of_mem_decimal hmem
      exact absurd hdigit (by decide)
    simp [hspace, hcolon, hhost hsafe, hdigits]
  · split
    · refine ⟨32 :: host.take (configHostMax - 1), by simp, by simp [blank], ?_⟩
      intro hsafe
      simp [hspace, hhost hsafe]
    · exact ⟨[], by simp, by simp, by simp⟩

theorem peerLine_facts (hid : Formatted id) {host : Str} (hsafe : textFieldSafe host = true) (port : Nat) :
    isPeerLineFor (peerLine id host port) id = true ∧ nl ∉ peerLine id host port := by
  obtain ⟨hlen, hchars, canon, hcanon, -⟩ := hid.facts
  obtain ⟨r, hline, hrest, hnl⟩ := peerLine_split hid host port
  have hword : ∀ c ∈ id, blank c = false := fun c hc => blank_of_not_space c (idChar_facts c (hchars c hc)).1
  constructor
  · have hstart : (id ++ r).dropWhile blank = id ++ r := by
      obtain ⟨c, t, hid⟩ := List.exists_cons_of_ne_nil (l := id) (by rintro rfl; simp at hlen)
      rw [hid, List.cons_append, List.dropWhile_cons_of_neg (by simp [hword c (by simp [hid])])]
    have htoken : tokenLen (id ++ r) = 63 := by
      have hstop : (id ++ r).takeWhile (fun c => !blank c) = id := by
        refine takeWhile_stop ?_ ?_
        · intro c hc
          simp [hword c hc]
        · intro c hc
          simp [hrest c hc]
      rw [tokenLen, hstop, hlen]
    unfold isPeerLineFor
    rw [hline, valueOf_peer, hstart]
    dsimp only
    rw [htoken, if_neg (by decide), ← hlen, List.take_left]
    exact deviceIdEqual_self hcanon
  · rw [hline]
    intro hmem
    rcases List.mem_append.mp hmem with hmem | hmem
    · exact absurd hmem (by decide)
    · rcases List.mem_append.mp hmem with hmem | hmem
      · exact (idChar_facts nl (hchars nl hmem)).2.2.1 rfl
      · exact hnl hsafe hmem

/-- The line comes between lines of the text. -/
theorem appendAfterAnchor_lines (hio : Editable path text) {line : Str} (hline : nl ∉ line) (key : Str) :
    ∃ pre post, TextLines.lines nl text = pre ++ post ∧
      TextLines.lines nl (appendAfterAnchor path (some text) line key) = pre ++ [runtimeNote, line] ++ post := by
  have hedit : (text.length ≤ confdocMaxBytes && path.length + 5 < 160) = true := by simp [hio.1, hio.2]
  unfold appendAfterAnchor
  dsimp only [Option.getD_some]
  rw [if_pos hedit]
  generalize (lastIdx (isAnchorLine key) (TextLines.lines nl text)).elim
    (TextLines.lines nl text).length (· + 1) = i
  refine ⟨(TextLines.lines nl text).take i, (TextLines.lines nl text).drop i,
    (List.take_append_drop _ _).symm, ?_⟩
  have hnote : nl ∉ runtimeNote := by decide
  refine TextLines.lines_unlines ?_
  intro l hl
  rcases List.mem_append.mp hl with hl | hl
  · rcases List.mem_append.mp hl with hl | hl
    · exact TextLines.notMem_of_mem_lines (List.mem_of_mem_take hl)
    · rcases List.mem_cons.mp hl with rfl | hl
      · exact hnote
      · exact List.mem_singleton.mp hl ▸ hline
  · exact TextLines.notMem_of_mem_lines (List.mem_of_mem_drop hl)

theorem safe_of_formatted (hid : Formatted id) : textFieldSafe id = true := by
  obtain ⟨-, hchars, -⟩ := hid.facts
  unfold textFieldSafe
  rw [List.all_eq_true]
  intro c hc
  exact (idChar_facts c (hchars c hc)).2.2.2

/-- What is written is what is kept. -/
theorem removeMatching_some (hio : Editable path text) (hid : id ≠ [])
    (hthere : ∃ l ∈ TextLines.lines nl text, m l id = true) :
    ∃ new, removeMatching path (some text) id m = some new ∧
      TextLines.lines nl new = kept (fun l => m l id) (TextLines.lines nl text) := by
  refine ⟨_, ?_, lines_kept text _⟩
  rw [removeMatching_eq hio hid, if_pos (List.any_eq_true.mpr hthere)]

theorem lines_of_removeMatching (hio : Editable path text) {new : Str}
    (h : removeMatching path (some text) id m = some new) :
    id ≠ [] ∧ TextLines.lines nl new = kept (fun l => m l id) (TextLines.lines nl text) := by
  have hid : id ≠ [] := by
    rintro rfl
    simp [removeMatching] at h
  rw [removeMatching_eq hio hid] at h
  split at h
  · obtain rfl := Option.some.inj h
    exact ⟨hid, lines_kept text _⟩
  · simp at h

/-- What is deleted of any text: the lines about the device, and the notes above them. -/
theorem configRemovePeer_lines (hio : Editable path text) (id : Str) :
    ((∀ l ∈ TextLines.lines nl text, isPeerLineFor l id = false) → configRemovePeer path (some text) id = none) ∧
      ((∃ l ∈ TextLines.lines nl text, isPeerLineFor l id = true) →
        ∃ new, configRemovePeer path (some text) id = some new ∧
          TextLines.lines nl new = kept (fun l => isPeerLineFor l id) (TextLines.lines nl text)) := by
  constructor
  · intro hno
    by_cases hid : id = []
    · unfold configRemovePeer removeMatching
      simp [hid]
    · unfold configRemovePeer
      rw [removeMatching_eq hio hid, if_neg]
      simpa using hno
  · rintro ⟨l, hl, hmatch⟩
    have hid : id ≠ [] := by
      rintro rfl
      rw [isPeerLineFor_nil] at hmatch
      simp at hmatch
    exact removeMatching_some hio hid ⟨l, hl, hmatch⟩

end Text

/-- **Edits at runtime.** A peer line that is added comes between the lines of the text and out again,
and of any text the lines about a device are deleted, each with a note right above it, and no
others. -/
theorem runtime_edits {path text : Str} (hio : Editable path text) :
    (∀ id host port, Formatted id → textFieldSafe host = true →
      (∀ l ∈ TextLines.lines nl text, isPeerLineFor l id = false) →
      ∃ new pre post, configAppendPeer path (some text) id host port = some new ∧
        TextLines.lines nl text = pre ++ post ∧
        TextLines.lines nl new = pre ++ [runtimeNote, peerLine id host port] ++ post ∧
        (Editable path new → ∃ back, configRemovePeer path (some new) id = some back ∧
          TextLines.lines nl back = TextLines.lines nl text)) ∧
    ∀ id,
      ((∀ l ∈ TextLines.lines nl text, isPeerLineFor l id = false) →
        configRemovePeer path (some text) id = none) ∧
      ((∃ l ∈ TextLines.lines nl text, isPeerLineFor l id = true) →
        ∃ new, configRemovePeer path (some text) id = some new ∧
          Relation.ReflTransGen (Deletes fun l => isPeerLineFor l id)
            (TextLines.lines nl text) (TextLines.lines nl new) ∧
          (∀ l ∈ TextLines.lines nl new, isPeerLineFor l id = false) ∧
          noNotes (TextLines.lines nl new) =
            noNotes ((TextLines.lines nl text).filter fun l => !isPeerLineFor l id)) := by
  refine ⟨?_, ?_⟩
  · intro id host port hid hsafe hno
    obtain ⟨hmatch, hnl⟩ := peerLine_facts hid hsafe port
    obtain ⟨pre, post, hlines, hnew⟩ := appendAfterAnchor_lines hio hnl (ascii "peer")
    have hfields : (textFieldSafe id && textFieldSafe host) = true := by
      rw [safe_of_formatted hid, hsafe]
      rfl
    refine ⟨_, pre, post, if_pos hfields, hlines, hnew, ?_⟩
    intro hio'
    have hthere : ∃ l ∈ TextLines.lines nl (appendAfterAnchor path (some text) (peerLine id host port)
        (ascii "peer")), isPeerLineFor l id = true := by
      refine ⟨peerLine id host port, ?_, hmatch⟩
      rw [hnew]
      simp
    obtain ⟨back, hback, hkept⟩ := (configRemovePeer_lines hio' id).2 hthere
    refine ⟨back, hback, ?_⟩
    rw [hlines] at hno ⊢
    rw [hkept, hnew]
    refine kept_inserted ?_ ?_ (not_peerLine_note id) hmatch
    · exact fun l hl => hno l (List.mem_append_left _ hl)
    · exact fun l hl => hno l (List.mem_append_right _ hl)
  · intro id
    obtain ⟨hnone, hsome⟩ := configRemovePeer_lines hio id
    refine ⟨hnone, ?_⟩
    intro hmatch
    obtain ⟨new, hnew, hkept⟩ := hsome hmatch
    refine ⟨new, hnew, ?_⟩
    rw [hkept]
    exact ⟨deletes_kept _, fun l hl => (mem_kept hl).2, noNotes_kept _⟩

/-- A note of the user's own stays, above the line and below it. -/
theorem runtime_edits_note :
    ∃ new back, configAppendPeer (ascii "ENVARC:cfg")
        (some (ascii "; added at runtime:\npeer = X\n; added at runtime:\nwindow = 4"))
        (deviceIdFromRaw sampleRaw) (ascii "192.168.1.7") 22067 = some new ∧
      configRemovePeer (ascii "ENVARC:cfg") (some new) (deviceIdFromRaw sampleRaw) = some back ∧
      TextLines.lines nl back = [runtimeNote, ascii "peer = X", runtimeNote, ascii "window = 4"] := by
  have hio : Editable (ascii "ENVARC:cfg")
      (ascii "; added at runtime:\npeer = X\n; added at runtime:\nwindow = 4") := by decide +kernel
  obtain ⟨new, -, -, happend, -, -, hback⟩ := (runtime_edits hio).1 (deviceIdFromRaw sampleRaw) (ascii "192.168.1.7")
    22067 (formatted_fromRaw (by decide)) (by decide +kernel) (by decide +kernel)
  have hnew : configAppendPeer (ascii "ENVARC:cfg")
      (some (ascii "; added at runtime:\npeer = X\n; added at runtime:\nwindow = 4"))
      (deviceIdFromRaw sampleRaw) (ascii "192.168.1.7") 22067 =
        some (ascii "; added at runtime:\npeer = X\n; added at runtime:\npeer = " ++ deviceIdFromRaw sampleRaw ++
          ascii " 192.168.1.7:22067\n; added at runtime:\nwindow = 4\n") := by decide +kernel
  have heq := Option.some.inj (happend.symm.trans hnew)
  have hio' : Editable (ascii "ENVARC:cfg") new := by
    rw [heq]
    decide +kernel
  obtain ⟨back, hremove, hlines⟩ := hback hio'
  refine ⟨new, back, happend, hremove, hlines.trans ?_⟩
  decide +kernel

end Amisync.ConfigFile

import Mathlib.Data.List.Basic

/-!
# Text read line by line into a buffer of fixed size

* `pieces`: what successive reads with a buffer return. A line that does not fit
  comes in several pieces.
* `lines`: the lines of a text without their ends; `unlines` writes them back.
* `pieces_unlines`: what has been written line by line is read line by line.
* `unlines_lines`, `pieces_concat`: a text is the lines it is split into, but for
  the end of the last one, which changes one piece.
* `lines_unlines`: lines without a line end in them come back.
* `pieces_append`: where more text follows, the last piece goes on.
* `pieces_short`, `pieces_long`: the pieces of one line.
-/

namespace TextLines

variable {α : Type*} [DecidableEq α] (nl : α) (cap : Nat)

/-- `room` is what is left in the buffer, `acc` what has been read into it. -/
def piecesFrom : Nat → List α → List α → List (List α)
  | _, acc, [] => if acc = [] then [] else [acc]
  | room, acc, c :: cs =>
    if c = nl ∨ room ≤ 1 then (acc ++ [c]) :: piecesFrom cap [] cs
    else piecesFrom (room - 1) (acc ++ [c]) cs

def pieces (s : List α) : List (List α) := piecesFrom nl cap cap [] s

def linesFrom : List α → List α → List (List α)
  | acc, [] => if acc = [] then [] else [acc]
  | acc, c :: cs => if c = nl then acc :: linesFrom [] cs else linesFrom (acc ++ [c]) cs

/-- A final line end makes no further line. -/
def lines (s : List α) : List (List α) := linesFrom nl [] s

def unlines (ls : List (List α)) : List α := ls.flatMap fun l => l ++ [nl]

variable {nl cap}

/-- A line end finishes a piece. -/
theorem piecesFrom_line (room : Nat) (acc l s : List α) :
    piecesFrom nl cap room acc (l ++ nl :: s) = piecesFrom nl cap room acc (l ++ [nl]) ++ pieces nl cap s := by
  induction l generalizing room acc with
  | nil => simp [piecesFrom, pieces]
  | cons c l ih =>
    rw [List.cons_append, List.cons_append, piecesFrom, piecesFrom]
    split
    · rw [ih, List.cons_append]
    · exact ih _ _

theorem pieces_line (l s : List α) : pieces nl cap (l ++ nl :: s) = pieces nl cap (l ++ [nl]) ++ pieces nl cap s :=
  piecesFrom_line cap [] l s

theorem pieces_unlines (ls : List (List α)) :
    pieces nl cap (unlines nl ls) = ls.flatMap fun l => pieces nl cap (l ++ [nl]) := by
  induction ls with
  | nil => rfl
  | cons l ls ih =>
    have hcons : unlines nl (l :: ls) = l ++ nl :: unlines nl ls := by simp [unlines]
    rw [hcons, pieces_line, ih, List.flatMap_cons]

/-- Each piece stands in the text. -/
theorem infix_of_mem_piecesFrom {room : Nat} {acc s p : List α} (h : p ∈ piecesFrom nl cap room acc s) :
    p <:+: acc ++ s := by
  induction s generalizing room acc with
  | nil =>
    rw [piecesFrom] at h
    split at h
    · simp at h
    · exact ⟨[], [], by rw [List.mem_singleton.mp h]; simp⟩
  | cons c s ih =>
    have hsplit : acc ++ c :: s = (acc ++ [c]) ++ s := by simp
    rw [piecesFrom] at h
    rw [hsplit]
    split at h
    · rcases List.mem_cons.mp h with rfl | h
      · exact (List.prefix_append _ _).isInfix
      · exact List.IsInfix.trans (ih h) (by simpa using (List.suffix_append (acc ++ [c]) s).isInfix)
    · exact ih h

theorem infix_of_mem_pieces {s p : List α} (h : p ∈ pieces nl cap s) : p <:+: s := by
  simpa using infix_of_mem_piecesFrom h

/-! ## The end of the last line -/

variable (nl) in
theorem unlines_linesFrom (acc s : List α) :
    ∃ tail, (tail = [] ∨ tail = [nl]) ∧ acc ++ s ++ tail = unlines nl (linesFrom nl acc s) := by
  induction s generalizing acc with
  | nil =>
    rw [linesFrom]
    split
    · rename_i h
      exact ⟨[], Or.inl rfl, by simp [h, unlines]⟩
    · exact ⟨[nl], Or.inr rfl, by simp [unlines]⟩
  | cons c cs ih =>
    rw [linesFrom]
    split
    · rename_i h
      obtain ⟨tail, htail, heq⟩ := ih []
      refine ⟨tail, htail, ?_⟩
      have hcons : unlines nl (acc :: linesFrom nl [] cs) = acc ++ [nl] ++ unlines nl (linesFrom nl [] cs) := by
        simp [unlines]
      rw [hcons, ← heq, h]
      simp
    · obtain ⟨tail, htail, heq⟩ := ih (acc ++ [c])
      refine ⟨tail, htail, ?_⟩
      rw [← heq]
      simp

variable (nl) in
theorem unlines_lines (s : List α) :
    unlines nl (lines nl s) = s ∨ unlines nl (lines nl s) = s ++ [nl] := by
  obtain ⟨tail, htail, heq⟩ := unlines_linesFrom nl [] s
  rw [List.nil_append] at heq
  rcases htail with rfl | rfl
  · exact Or.inl (by rw [lines, ← heq, List.append_nil])
  · exact Or.inr heq.symm

theorem unlines_linesFrom_end (acc s : List α) :
    unlines nl (linesFrom nl acc (s ++ [nl])) = acc ++ s ++ [nl] := by
  induction s generalizing acc with
  | nil => simp [linesFrom, unlines]
  | cons c s ih =>
    rw [List.cons_append, linesFrom]
    split
    · rename_i h
      have hcons : unlines nl (acc :: linesFrom nl [] (s ++ [nl])) =
          acc ++ [nl] ++ unlines nl (linesFrom nl [] (s ++ [nl])) := by simp [unlines]
      rw [hcons, ih, h]
      simp
    · rw [ih]
      simp

/-- A text whose last line is ended is what its lines are written as. -/
theorem unlines_lines_end (s : List α) : unlines nl (lines nl (s ++ [nl])) = s ++ [nl] :=
  unlines_linesFrom_end [] s

variable (nl cap) in
theorem piecesFrom_concat (room : Nat) (acc s : List α) :
    ∃ ps r, piecesFrom nl cap room acc s = ps ++ (if r = [] then [] else [r]) ∧
      piecesFrom nl cap room acc (s ++ [nl]) = ps ++ [r ++ [nl]] := by
  induction s generalizing room acc with
  | nil => exact ⟨[], acc, by simp [piecesFrom], by simp [piecesFrom]⟩
  | cons c s ih =>
    rw [List.cons_append, piecesFrom, piecesFrom]
    split
    · obtain ⟨ps, r, h, h'⟩ := ih cap []
      exact ⟨(acc ++ [c]) :: ps, r, by rw [h, List.cons_append], by rw [h', List.cons_append]⟩
    · exact ih _ _

variable (nl cap) in
/-- A line end after the text is added to the last piece, or is one of its own. -/
theorem pieces_concat (s : List α) :
    ∃ ps r, pieces nl cap s = ps ++ (if r = [] then [] else [r]) ∧
      pieces nl cap (s ++ [nl]) = ps ++ [r ++ [nl]] :=
  piecesFrom_concat nl cap cap [] s

variable (nl cap) in
/-- More text after the buffer has been filled in part: the piece goes on, and others follow. -/
theorem piecesFrom_cons (room : Nat) (acc : List α) (c : α) (w : List α) :
    ∃ u rest, piecesFrom nl cap room acc (c :: w) = (acc ++ c :: u) :: rest ∧ u <+: w ∧ ∀ p ∈ rest, p <:+: w := by
  induction w generalizing room acc c with
  | nil =>
    rw [piecesFrom]
    split
    · exact ⟨[], [], rfl, List.nil_prefix, by simp⟩
    · exact ⟨[], [], by simp [piecesFrom], List.nil_prefix, by simp⟩
  | cons d w ih =>
    rw [piecesFrom]
    split
    · refine ⟨[], pieces nl cap (d :: w), rfl, List.nil_prefix, ?_⟩
      intro p hp
      exact infix_of_mem_pieces hp
    · obtain ⟨u, rest, h, hu, hrest⟩ := ih (room - 1) (acc ++ [c]) d
      refine ⟨d :: u, rest, by rw [h]; simp, List.cons_prefix_cons.mpr ⟨rfl, hu⟩, ?_⟩
      intro p hp
      exact (hrest p hp).trans (List.suffix_cons d w).isInfix

variable (nl cap) in
theorem piecesFrom_append (room : Nat) (acc s : List α) (c : α) (w : List α) :
    ∃ ps r u rest, piecesFrom nl cap room acc s = ps ++ (if r = [] then [] else [r]) ∧
      piecesFrom nl cap room acc (s ++ c :: w) = ps ++ (r ++ c :: u) :: rest ∧ u <+: w ∧ ∀ p ∈ rest, p <:+: w := by
  induction s generalizing room acc with
  | nil =>
    obtain ⟨u, rest, h, hu, hrest⟩ := piecesFrom_cons nl cap room acc c w
    exact ⟨[], acc, u, rest, by simp [piecesFrom], h, hu, hrest⟩
  | cons d s ih =>
    rw [List.cons_append, piecesFrom, piecesFrom]
    split
    · obtain ⟨ps, r, u, rest, h, h', hrest⟩ := ih cap []
      exact ⟨(acc ++ [d]) :: ps, r, u, rest, by rw [h, List.cons_append], by rw [h', List.cons_append], hrest⟩
    · exact ih _ _

variable (nl cap) in
/-- More text at the end goes on with the last piece, and what is left of it is read on its own. -/
theorem pieces_append (s : List α) (c : α) (w : List α) :
    ∃ ps r u rest, pieces nl cap s = ps ++ (if r = [] then [] else [r]) ∧
      pieces nl cap (s ++ c :: w) = ps ++ (r ++ c :: u) :: rest ∧ u <+: w ∧ ∀ p ∈ rest, p <:+: w :=
  piecesFrom_append nl cap cap [] s c w

/-! ## Lines and back -/

variable (nl) in
theorem linesFrom_line {l : List α} (hl : nl ∉ l) (acc s : List α) :
    linesFrom nl acc (l ++ nl :: s) = (acc ++ l) :: linesFrom nl [] s := by
  induction l generalizing acc with
  | nil => simp [linesFrom]
  | cons c l ih =>
    obtain ⟨hc, hl⟩ := not_or.mp (List.mem_cons.not.mp hl)
    rw [List.cons_append, linesFrom, if_neg (Ne.symm hc), ih hl]
    simp

/-- **Back.** What has been written line by line has these lines. -/
theorem lines_unlines {ls : List (List α)} (h : ∀ l ∈ ls, nl ∉ l) : lines nl (unlines nl ls) = ls := by
  induction ls with
  | nil => rfl
  | cons l ls ih =>
    have hcons : unlines nl (l :: ls) = l ++ nl :: unlines nl ls := by simp [unlines]
    have hl : nl ∉ l := h l List.mem_cons_self
    rw [hcons, lines, linesFrom_line nl hl, List.nil_append]
    congr 1
    exact ih fun l' hl' => h l' (List.mem_cons_of_mem l hl')

theorem notMem_of_mem_linesFrom {acc s l : List α} (hacc : nl ∉ acc) (h : l ∈ linesFrom nl acc s) : nl ∉ l := by
  induction s generalizing acc with
  | nil =>
    rw [linesFrom] at h
    split at h
    · simp at h
    · exact List.mem_singleton.mp h ▸ hacc
  | cons c s ih =>
    rw [linesFrom] at h
    split at h
    · rcases List.mem_cons.mp h with rfl | h
      · exact hacc
      · exact ih (by simp) h
    · rename_i hc
      refine ih ?_ h
      intro hmem
      rcases List.mem_append.mp hmem with hmem | hmem
      · exact hacc hmem
      · exact hc (List.mem_singleton.mp hmem).symm

/-- No line has a line end in it. -/
theorem notMem_of_mem_lines {s l : List α} (h : l ∈ lines nl s) : nl ∉ l :=
  notMem_of_mem_linesFrom (by simp) h

/-! ## One line -/

theorem piecesFrom_short {room : Nat} {l : List α} (hnl : nl ∉ l) (hlen : l.length < room) (acc : List α) :
    piecesFrom nl cap room acc (l ++ [nl]) = [acc ++ l ++ [nl]] := by
  induction l generalizing room acc with
  | nil => simp [piecesFrom]
  | cons c l ih =>
    obtain ⟨hc, hnl⟩ := not_or.mp (List.mem_cons.not.mp hnl)
    rw [List.length_cons] at hlen
    rw [List.cons_append, piecesFrom, if_neg (not_or.mpr ⟨Ne.symm hc, by omega⟩), ih hnl (by omega)]
    simp

theorem piecesFrom_long {room : Nat} {l : List α} (hnl : nl ∉ l) (hroom : 1 ≤ room)
    (hlen : room ≤ l.length) (acc s : List α) :
    piecesFrom nl cap room acc (l ++ s) = (acc ++ l.take room) :: pieces nl cap (l.drop room ++ s) := by
  induction l generalizing room acc with
  | nil =>
    rw [List.length_nil] at hlen
    omega
  | cons c l ih =>
    obtain ⟨hc, hnl⟩ := not_or.mp (List.mem_cons.not.mp hnl)
    rw [List.cons_append, piecesFrom]
    rcases Nat.eq_or_lt_of_le hroom with rfl | hlt
    · rw [if_pos (Or.inr (Nat.le_refl 1))]
      rfl
    · obtain ⟨room, rfl⟩ : ∃ k, room = k + 1 := ⟨room - 1, by omega⟩
      rw [List.length_cons] at hlen
      rw [if_neg (not_or.mpr ⟨Ne.symm hc, by omega⟩), Nat.add_sub_cancel, ih hnl (by omega) (by omega),
        List.take_succ_cons, List.drop_succ_cons]
      simp

/-- A line that fits, with its end. -/
theorem pieces_short {l : List α} (hnl : nl ∉ l) (hlen : l.length < cap) :
    pieces nl cap (l ++ [nl]) = [l ++ [nl]] := by
  rw [pieces, piecesFrom_short hnl hlen, List.nil_append]

/-- A line that does not is cut. -/
theorem pieces_long {l : List α} (hnl : nl ∉ l) (hcap : 1 ≤ cap) (hlen : cap ≤ l.length) (s : List α) :
    pieces nl cap (l ++ s) = l.take cap :: pieces nl cap (l.drop cap ++ s) := by
  rw [pieces, piecesFrom_long hnl hcap hlen, List.nil_append]

end TextLines

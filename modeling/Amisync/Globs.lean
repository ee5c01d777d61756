import Amisync.Ignore
import Amisync.Lib.Wildcards
import Mathlib.Order.CompletePartialOrder

/-!
# What an ignore pattern means (`glob_rec`)

A pattern is read as a sequence of tokens, each standing for a set of strings; a
path matches if it is made up of one string for each token.

* `tokens`, `Tok.meaning`: the grammar, and what its parts stand for.
* `decides_loop`: the matcher decides the product of the tokens.
* `globRec_matches`: with budget enough it says what the tokens mean, and never yes
  to anything else.
* `IgnorePattern.hits_below`, `ignored_below`: what hits a drawer hits all that is in it.
-/

namespace Amisync

open Wildcards

namespace Glob

/-! ## The grammar -/

inductive ClassItem where
  | one (c : UInt8)
  | range (lo hi : UInt8)

/-- Upper and lower case are the same. -/
def ClassItem.holds (d : UInt8) : ClassItem → Bool
  | .one c => lower d == lower c
  | .range lo hi => lower lo ≤ lower d && lower d ≤ lower hi

/-- The members of a class up to its `]`, and the pattern after it. -/
def classItems : Bytes → Option (List ClassItem × Bytes)
  | [] => none
  | [c] => if c = closing then some ([], []) else none
  | [c, d] =>
    if c = closing then some ([], [d]) else (classItems [d]).map fun r => (.one c :: r.1, r.2)
  | c :: d :: x :: q =>
    if c = closing then some ([], d :: x :: q)
    else if d = dash ∧ x ≠ closing then (classItems q).map fun r => (.range c x :: r.1, r.2)
    else (classItems (d :: x :: q)).map fun r => (.one c :: r.1, r.2)

inductive Tok where
  /-- `**` and a slash -/
  | deepSlash
  | deep
  | star
  | any
  | cls (neg : Bool) (items : List ClassItem)
  /-- A class that is not closed. -/
  | broken
  | lit (c : UInt8)

/-- How a pattern is read: whether `^` makes the complement of a class, as `!` does, and whether
`**` with a slash stands for whole components only. -/
structure Reading where
  caret : Bool
  whole : Bool

/-- Each token takes a byte of the pattern at least. -/
def tokensFrom (withCaret : Bool) : Nat → Bytes → List Tok
  | _, [] => []
  | 0, _ :: _ => []
  | fuel + 1, c :: p =>
    if c = Glob.star ∧ p.head? = some Glob.star then
      if (p.drop 1).head? = some slash then .deepSlash :: tokensFrom withCaret fuel (p.drop 2)
      else .deep :: tokensFrom withCaret fuel (p.drop 1)
    else if c = Glob.star then .star :: tokensFrom withCaret fuel p
    else if c = question then .any :: tokensFrom withCaret fuel p
    else if c = opening then
      let neg := p.head? = some bang ∨ (withCaret = true ∧ p.head? = some caret)
      match classItems (if neg then p.drop 1 else p) with
      | none => [.broken]
      | some (items, p) => .cls (decide neg) items :: tokensFrom withCaret fuel p
    else .lit c :: tokensFrom withCaret fuel p

def tokens (r : Reading) (p : Bytes) : List Tok := tokensFrom r.caret p.length p

/-! ## The meaning -/

/-- The strings a token stands for. -/
def Tok.meaning (whole : Bool) : Tok → Language UInt8
  | .deepSlash => if whole then {w | w = [] ∨ w.getLast? = some slash} else run fun _ => True
  | .deep => run fun _ => True
  | .star => run (· ≠ slash)
  | .any => one (· ≠ slash)
  | .cls neg items => one fun d => d ≠ slash ∧ items.any (·.holds d) ≠ neg
  | .broken => 0
  | .lit c => one fun d => lower c = lower d

def language (whole : Bool) (ts : List Tok) : Language UInt8 := (ts.map (·.meaning whole)).prod

/-- A path matches a pattern. -/
def Matches (r : Reading) (p s : Bytes) : Prop := s ∈ language r.whole (tokens r p)

theorem language_cons (whole : Bool) (t : Tok) (ts : List Tok) :
    language whole (t :: ts) = t.meaning whole * language whole ts := by
  rw [language, List.map_cons, List.prod_cons, language]

/-! ## The matcher -/

theorem scanClass_eq (d : UInt8) (p : Bytes) (matched : Bool) :
    scanClass (lower d) p matched =
      (classItems p).map fun r => (matched || r.1.any (·.holds d), r.2) := by
  have hmap : ∀ (x : ClassItem) (o : Option (List ClassItem × Bytes)) (m : Bool),
      o.map (fun r => ((m || x.holds d) || r.1.any (·.holds d), r.2)) =
        (o.map fun r => (x :: r.1, r.2)).map fun r => (m || r.1.any (·.holds d), r.2) := by
    intro x o m
    cases o with
    | none => rfl
    | some r => simp [Bool.or_assoc]
  induction p, matched using scanClass.induct (lower d) with
  | case1 matched => rfl
  | case2 matched => simp [scanClass, classItems]
  | case3 matched c hc => simp [scanClass, classItems, hc]
  | case4 d matched => simp [scanClass, classItems]
  | case5 c d' matched hc ih =>
    have hitems : classItems [c, d'] = (classItems [d']).map fun r => (.one c :: r.1, r.2) := by
      conv_lhs => rw [classItems, if_neg hc]
    rw [scanClass, if_neg hc, ih, hitems]
    exact hmap (.one c) _ matched
  | case6 d x q matched => simp [scanClass, classItems]
  | case7 c d' x q matched hc hrange ih =>
    have hitems : classItems (c :: d' :: x :: q) = (classItems q).map fun r => (.range c x :: r.1, r.2) := by
      rw [classItems, if_neg hc, if_pos hrange]
    rw [scanClass, if_neg hc, if_pos hrange, ih, hitems]
    exact hmap (.range c x) _ matched
  | case8 c d' x q matched hc hrange ih =>
    have hitems : classItems (c :: d' :: x :: q) =
        (classItems (d' :: x :: q)).map fun r => (.one c :: r.1, r.2) := by
      rw [classItems, if_neg hc, if_neg hrange]
    rw [scanClass, if_neg hc, if_neg hrange, ih, hitems]
    exact hmap (.one c) _ matched

/-- The loop of a wildcard. -/
theorem decides_tryTails {f : Bytes → Nat → Bool × Nat} {L : Language UInt8} (slashes : Bool)
    (hf : ∀ t, Decides (f t) (t ∈ L)) (s : Bytes) :
    Decides (tryTails f slashes s) (s ∈ run (fun c => slashes = true ∨ c ≠ slash) * L) := by
  induction s with
  | nil => exact (hf []).congr nil_mem_run_mul.symm
  | cons c s ih =>
    have hrest : Decides (fun budget => if c = slash ∧ slashes = false then (false, budget)
        else tryTails f slashes s budget)
        ((slashes = true ∨ c ≠ slash) ∧ s ∈ run (fun c => slashes = true ∨ c ≠ slash) * L) := by
      by_cases hstop : c = slash ∧ slashes = false
      · simp only [if_pos hstop]
        exact Decides.const false (by simp [hstop])
      · simp only [if_neg hstop]
        refine ih.congr ?_
        have hgo : slashes = true ∨ c ≠ slash := by
          by_contra hno
          rw [not_or, Bool.not_eq_true, not_not] at hno
          exact hstop ⟨hno.2, hno.1⟩
        simp [hgo]
    exact ((hf (c :: s)).orElse hrest).congr (cons_mem_run_mul (p := fun c => slashes = true ∨ c ≠ slash)).symm

theorem decides_nil (fuel : Nat) (s : Bytes) :
    Decides (loop fuel [] s) (s ∈ language false (tokensFrom true fuel [])) := by
  have hloop : loop fuel [] s = fun budget => (s.isEmpty, budget) := by
    funext budget
    rw [loop]
  have htokens : tokensFrom true fuel [] = [] := by
    rw [tokensFrom]
  rw [hloop, htokens]
  exact Decides.const _ (by simp [language, Language.mem_one])

theorem decides_deep {fuel : Nat} {q : Bytes} (htry : ∀ t, Decides
    (fun budget => if budget ≤ 1 then (false, budget - 1) else loop fuel q t (budget - 1))
    (t ∈ language false (tokensFrom true fuel q))) (s : Bytes) :
    Decides (fun budget => if q.isEmpty then (true, budget)
      else tryTails (fun t budget => if budget ≤ 1 then (false, budget - 1) else loop fuel q t (budget - 1))
        true s budget) (s ∈ run (fun _ => True) * language false (tokensFrom true fuel q)) := by
  cases q with
  | nil =>
    have htokens : tokensFrom true fuel [] = [] := by
      rw [tokensFrom]
    have hrest : s ∈ run (fun _ : UInt8 => True) * language false (tokensFrom true fuel []) := by
      rw [htokens, language, List.map_nil, List.prod_nil, mul_one]
      exact mem_run_true s
    simpa using Decides.const true (by simp [hrest])
  | cons c q => simpa using decides_tryTails true htry s

/-- At the end of a path only wildcards match. -/
theorem nil_notMem_language {fuel : Nat} {c : UInt8} {p : Bytes}
    (hdeep : ¬ (c = Glob.star ∧ p.head? = some Glob.star)) (hstar : c ≠ Glob.star) :
    [] ∉ language false (tokensFrom true (fuel + 1) (c :: p)) := by
  rw [tokensFrom, if_neg hdeep, if_neg hstar]
  split
  · rw [language_cons]
    exact nil_notMem_one_mul
  · split
    · dsimp only
      split
      · rw [language_cons]
        simp [Tok.meaning]
      · rw [language_cons]
        exact nil_notMem_one_mul
    · rw [language_cons]
      exact nil_notMem_one_mul

theorem length_classItems {p rest : Bytes} {items : List ClassItem} (h : classItems p = some (items, rest)) :
    rest.length ≤ p.length := by
  induction p using classItems.induct generalizing items rest with
  | case1 => simp [classItems] at h
  | case2 => simp_all [classItems]
  | case3 c hc => simp [classItems, hc] at h
  | case4 d => simp_all [classItems]
  | case5 c d hc ih =>
    rw [classItems, if_neg hc] at h
    obtain ⟨⟨items, rest⟩, hr, ⟨⟩⟩ := Option.map_eq_some_iff.mp h
    exact (ih hr).trans (Nat.le_succ _)
  | case6 d x q => simp_all [classItems]
  | case7 c d x q hc hrange ih =>
    rw [classItems, if_neg hc, if_pos hrange] at h
    obtain ⟨⟨items, rest⟩, hr, ⟨⟩⟩ := Option.map_eq_some_iff.mp h
    exact (ih hr).trans (by simp only [List.length_cons]; omega)
  | case8 c d x q hc hrange ih =>
    rw [classItems, if_neg hc, if_neg hrange] at h
    obtain ⟨⟨items, rest⟩, hr, ⟨⟩⟩ := Option.map_eq_some_iff.mp h
    exact (ih hr).trans (Nat.le_succ _)

/-- A class in front. -/
theorem decides_class {fuel : Nat} {c d : UInt8} {p s : Bytes}
    (hdeep : ¬ (c = Glob.star ∧ p.head? = some Glob.star)) (hstar : c ≠ Glob.star) (hany : c ≠ question)
    (hclass : c = opening) (hnext : ∀ q : Bytes, q.length ≤ p.length →
      Decides (loop fuel q s) (s ∈ language false (tokensFrom true fuel q))) :
    Decides (loop (fuel + 1) (c :: p) (d :: s))
      (d :: s ∈ language false (tokensFrom true (fuel + 1) (c :: p))) := by
  generalize hq : (if p.head? = some bang ∨ p.head? = some caret then p.drop 1 else p) = q
  have hlen : q.length ≤ p.length := by
    rw [← hq]
    split
    · rw [List.length_drop]
      omega
    · exact Nat.le_refl _
  have hloop : loop (fuel + 1) (c :: p) (d :: s) = fun budget =>
      if d = slash then (false, budget)
      else (scanClass (lower d) q false).elim (false, budget) fun r =>
        if r.1 = decide (p.head? = some bang ∨ p.head? = some caret) then (false, budget)
        else loop fuel r.2 s budget := by
    funext budget
    rw [loop, if_neg hdeep, if_neg hstar]
    dsimp only
    subst hq
    refine ((if_neg hany).trans (if_pos hclass)).trans (if_congr Iff.rfl rfl ?_)
    cases scanClass (lower d) (if p.head? = some bang ∨ p.head? = some caret then p.drop 1 else p) false <;> rfl
  have htokens : tokensFrom true (fuel + 1) (c :: p) =
      (classItems q).elim [.broken] fun r =>
        .cls (decide (p.head? = some bang ∨ p.head? = some caret)) r.1 :: tokensFrom true fuel r.2 := by
    rw [tokensFrom, if_neg hdeep, if_neg hstar, if_neg hany, if_pos hclass]
    simp only [true_and, hq]
    cases classItems q <;> rfl
  rw [hloop, htokens]
  simp only [scanClass_eq]
  cases hitems : classItems q with
  | none =>
    have hno : d :: s ∉ language false [.broken] := by
      rw [language_cons]
      simp [Tok.meaning]
    refine ((Decides.const false (q := False) (by simp)).refuse (d = slash)).congr ?_
    simp [hno]
  | some r =>
    obtain ⟨items, rest⟩ := r
    have hshort := length_classItems hitems
    have hrest := (hnext rest (by omega)).refuse
      (items.any (·.holds d) = decide (p.head? = some bang ∨ p.head? = some caret))
    refine ((hrest.refuse (d = slash)).congr ?_)
    rw [Option.elim_some, language_cons]
    refine Iff.trans ?_ cons_mem_one_mul.symm
    tauto

/-- **The matcher.** It decides the product of the tokens. -/
theorem decides_loop (fuel : Nat) (p s : Bytes) (hfuel : p.length ≤ fuel) :
    Decides (loop fuel p s) (s ∈ language false (tokensFrom true fuel p)) := by
  induction fuel generalizing p s with
  | zero =>
    obtain rfl := List.length_eq_zero_iff.mp (Nat.le_zero.mp hfuel)
    exact decides_nil 0 s
  | succ fuel ih =>
    cases p with
    | nil => exact decides_nil (fuel + 1) s
    | cons c p =>
      rw [List.length_cons] at hfuel
      have htry : ∀ q : Bytes, q.length ≤ p.length → ∀ t, Decides
          (fun budget => if budget ≤ 1 then (false, budget - 1) else loop fuel q t (budget - 1))
          (t ∈ language false (tokensFrom true fuel q)) :=
        fun q hq t => (ih q t (by omega)).guard
      by_cases hdeep : c = Glob.star ∧ p.head? = some Glob.star
      · -- `**`, with a slash or without
        have hdrop : ∀ n, (p.drop n).length ≤ p.length := fun n => by
          rw [List.length_drop]
          omega
        by_cases hslash : (p.drop 1).head? = some slash
        · have htokens : tokensFrom true (fuel + 1) (c :: p) = .deepSlash :: tokensFrom true fuel (p.drop 2) := by
            rw [tokensFrom, if_pos hdeep, if_pos hslash]
          have hloop : loop (fuel + 1) (c :: p) s = fun budget => if (p.drop 2).isEmpty then (true, budget)
              else tryTails (fun t budget => if budget ≤ 1 then (false, budget - 1)
                else loop fuel (p.drop 2) t (budget - 1)) true s budget := by
            funext budget
            rw [loop.eq_def]
            dsimp only
            rw [if_pos hdeep, if_pos hslash]
          rw [htokens, hloop, language_cons]
          exact decides_deep (htry (p.drop 2) (hdrop 2)) s
        · have htokens : tokensFrom true (fuel + 1) (c :: p) = .deep :: tokensFrom true fuel (p.drop 1) := by
            rw [tokensFrom, if_pos hdeep, if_neg hslash]
          have hloop : loop (fuel + 1) (c :: p) s = fun budget => if (p.drop 1).isEmpty then (true, budget)
              else tryTails (fun t budget => if budget ≤ 1 then (false, budget - 1)
                else loop fuel (p.drop 1) t (budget - 1)) true s budget := by
            funext budget
            rw [loop.eq_def]
            dsimp only
            rw [if_pos hdeep, if_neg hslash]
          rw [htokens, hloop, language_cons]
          exact decides_deep (htry (p.drop 1) (hdrop 1)) s
      · by_cases hstar : c = Glob.star
        · have htokens : tokensFrom true (fuel + 1) (c :: p) = .star :: tokensFrom true fuel p := by
            rw [tokensFrom, if_neg hdeep, if_pos hstar]
          have hloop : loop (fuel + 1) (c :: p) s = tryTails (fun t budget => if budget ≤ 1 then
              (false, budget - 1) else loop fuel p t (budget - 1)) false s := by
            funext budget
            rw [loop.eq_def]
            dsimp only
            rw [if_neg hdeep, if_pos hstar]
          rw [htokens, hloop, language_cons]
          have h := decides_tryTails false (htry p (Nat.le_refl _)) s
          simpa [Tok.meaning] using h
        · -- one character for one
          cases s with
          | nil =>
            have hloop : loop (fuel + 1) (c :: p) [] = fun budget => (false, budget) := by
              funext budget
              rw [loop, if_neg hdeep, if_neg hstar]
            rw [hloop]
            refine Decides.const false ?_
            simp only [Bool.false_eq_true, false_iff]
            exact nil_notMem_language hdeep hstar
          | cons d s =>
            have hnext : ∀ q : Bytes, q.length ≤ p.length →
                Decides (loop fuel q s) (s ∈ language false (tokensFrom true fuel q)) :=
              fun q hq => ih q s (by omega)
            by_cases hany : c = question
            · have htokens : tokensFrom true (fuel + 1) (c :: p) = .any :: tokensFrom true fuel p := by
                rw [tokensFrom, if_neg hdeep, if_neg hstar, if_pos hany]
              have hloop : loop (fuel + 1) (c :: p) (d :: s) = fun budget =>
                  if d = slash then (false, budget) else loop fuel p s budget := by
                funext budget
                rw [loop, if_neg hdeep, if_neg hstar]
                dsimp only
                rw [if_pos hany]
              rw [htokens, hloop, language_cons]
              exact ((hnext p (Nat.le_refl _)).refuse (d = slash)).congr
                (cons_mem_one_mul (p := (· ≠ slash))).symm
            · by_cases hclass : c = opening
              · exact decides_class hdeep hstar hany hclass hnext
              · have htokens : tokensFrom true (fuel + 1) (c :: p) = .lit c :: tokensFrom true fuel p := by
                  rw [tokensFrom, if_neg hdeep, if_neg hstar, if_neg hany, if_neg hclass]
                have hloop : loop (fuel + 1) (c :: p) (d :: s) = fun budget =>
                    if lower c = lower d then loop fuel p s budget else (false, budget) := by
                  funext budget
                  rw [loop, if_neg hdeep, if_neg hstar]
                  dsimp only
                  rw [if_neg hany, if_neg hclass]
                rw [htokens, hloop, language_cons]
                exact ((hnext p (Nat.le_refl _)).test (lower c = lower d)).congr
                  (cons_mem_one_mul (p := fun e => lower c = lower e)).symm

theorem language_whole_subset (ts : List Tok) : language true ts ≤ language false ts := by
  induction ts with
  | nil => exact le_refl _
  | cons t ts ih =>
    rw [language_cons, language_cons]
    refine mul_le_mul' ?_ ih
    cases t with
    | deepSlash => exact fun w _ => mem_run_true w
    | _ => exact le_refl _

theorem language_whole_eq {ts : List Tok} (h : Tok.deepSlash ∉ ts) : language true ts = language false ts := by
  induction ts with
  | nil => rfl
  | cons t ts ih =>
    rw [language_cons, language_cons, ih fun hts => h (List.mem_cons_of_mem _ hts)]
    cases t with
    | deepSlash => exact absurd List.mem_cons_self h
    | _ => rfl

theorem decides_globRec (p s : Bytes) : Decides (globRec p s) (Matches ⟨true, false⟩ p s) :=
  (decides_loop p.length p s (Nat.le_refl _)).guard

/-- **Patterns.** What glob_rec accepts matches, components split or not. With budget enough it
accepts all that matches, and nothing else where no `**` has a slash behind it. -/
theorem globRec_matches (p s : Bytes) :
    (∀ budget, (globRec p s budget).1 = true → Matches ⟨true, false⟩ p s ∧
      (Tok.deepSlash ∉ tokens ⟨true, true⟩ p → Matches ⟨true, true⟩ p s)) ∧
    ∃ enough, ∀ budget, enough ≤ budget → Matches ⟨true, true⟩ p s → (globRec p s budget).1 = true := by
  have hsound := (decides_globRec p s).sound
  refine ⟨?_, ?_⟩
  · intro budget hrec
    refine ⟨hsound budget hrec, ?_⟩
    intro hno
    have hmatch : s ∈ language false (tokens ⟨true, true⟩ p) := hsound budget hrec
    rw [← language_whole_eq hno] at hmatch
    exact hmatch
  · obtain ⟨enough, henough⟩ := (decides_globRec p s).eventually
    refine ⟨enough, ?_⟩
    intro budget hbudget hmatch
    exact (henough budget hbudget).mpr (language_whole_subset _ hmatch)

/-- `[^a]` matches `b`, and not by its members. `**/foo` matches `barfoo`. -/
theorem caret_and_part :
    (globRec [91, 94, 97, 93] [98] globBudget).1 = true ∧
      ¬ Matches ⟨false, true⟩ [91, 94, 97, 93] [98] ∧
    (globRec [42, 42, 47, 102, 111, 111] [98, 97, 114, 102, 111, 111] globBudget).1 = true ∧
      ¬ Matches ⟨false, true⟩ [42, 42, 47, 102, 111, 111] [98, 97, 114, 102, 111, 111] := by
  refine ⟨by decide, ?_, by decide, ?_⟩
  · intro h
    have hmem : [98] ∈ one (fun d => d ≠ slash ∧
        [ClassItem.one 94, ClassItem.one 97].any (·.holds d) ≠ false) * (1 : Language UInt8) := h
    have hclass := (cons_mem_one_mul.mp hmem).1.2
    exact hclass (by decide)
  · rintro ⟨a, ha, b, hb, hab⟩
    rcases ha with rfl | ha
    · -- nothing in front
      obtain rfl : b = [98, 97, 114, 102, 111, 111] := hab
      have hlit := (cons_mem_one_mul.mp hb).1
      exact absurd hlit (by decide)
    · have hslash : slash ∈ a ++ b := List.mem_append_left b (List.mem_of_getLast? ha)
      have habs : slash ∈ [98, 97, 114, 102, 111, 111] := by
        rw [← hab]
        exact hslash
      simp [slash] at habs

end Glob

/-! ## Drawers -/

/-- A pattern of a set, on a path. -/
def IgnorePattern.hits (pat : IgnorePattern) (path : Bytes) : Bool :=
  if pat.hasSlash then matchPath pat.glob path else matchSegment pat.glob path

theorem matchPath_below {glob p : Bytes} (q : Bytes) (hp : p.length ≤ ignorePathMax - 1)
    (h : matchPath glob p = true) : matchPath glob (p ++ slash :: q) = true := by
  rw [matchPath, Bool.or_eq_true] at h ⊢
  right
  rw [List.any_eq_true]
  rcases h with h | h
  · -- the drawer is a prefix now
    refine ⟨p.length, by simp, ?_⟩
    rw [globMatchPrefix, List.take_left, h]
    simp [hp]
  · obtain ⟨i, hi, hit⟩ := List.any_eq_true.mp h
    rw [List.mem_range] at hi
    refine ⟨i, List.mem_range.mpr (by rw [List.length_append]; omega), ?_⟩
    rw [globMatchPrefix, List.getElem?_append_left hi, List.take_append_of_le_length (by omega)]
    exact hit

theorem matchSegment_below {glob p : Bytes} (q : Bytes) (h : matchSegment glob p = true) :
    matchSegment glob (p ++ slash :: q) = true := by
  rw [matchSegment, components_append_below, List.any_append]
  rw [matchSegment] at h
  rw [h, Bool.true_or]

theorem IgnorePattern.hits_below {pat : IgnorePattern} {p : Bytes} (q : Bytes)
    (hp : p.length ≤ ignorePathMax - 1) (h : pat.hits p = true) : pat.hits (p ++ slash :: q) = true := by
  rw [IgnorePattern.hits] at h ⊢
  split at h
  · rename_i hslash
    rw [if_pos hslash]
    exact matchPath_below q hp h
  · rename_i hslash
    rw [if_neg hslash]
    exact matchSegment_below q h

theorem ignoreMatch_eq (set : IgnoreSet) (path : Bytes) :
    ignoreMatch set path = match set.pats.find? (·.hits path) with
      | some pat => !pat.negate
      | none => false := rfl

/-- **A drawer and what is in it.** What hits the drawer first is hit again below, and where no
negation comes before it there, what is in an ignored drawer is ignored. -/
theorem ignored_below (set : IgnoreSet) {p : Name} {i : Nat} (q : Name)
    (hp : p.length ≤ 255) (hi : set.pats.findIdx? (·.hits p) = some i) :
    (∃ j ≤ i, ∃ pat ∈ set.pats[j]?, pat.hits (p ++ slash :: q) = true) ∧
    (ignoreMatch set p = true →
      (∀ j < i, ∀ pat ∈ set.pats[j]?, pat.negate = true → pat.hits (p ++ slash :: q) = false) →
      ignoreMatch set (p ++ slash :: q) = true) := by
  obtain ⟨hlt, hit, hfirst⟩ := List.findIdx?_eq_some_iff_getElem.mp hi
  have hbelow : (set.pats[i]).hits (p ++ slash :: q) = true :=
    IgnorePattern.hits_below q (hp.trans (by decide)) hit
  refine ⟨⟨i, Nat.le_refl i, set.pats[i], by rw [List.getElem?_eq_getElem hlt]; rfl, hbelow⟩, ?_⟩
  intro hign hneg
  have hfind : set.pats.find? (·.hits p) = some set.pats[i] := by
    rw [List.find?_eq_some_iff_getElem]
    refine ⟨hit, i, hlt, rfl, ?_⟩
    intro j hj
    simpa using hfirst j hj
  rw [ignoreMatch_eq, hfind] at hign
  rw [ignoreMatch_eq]
  cases hq : set.pats.find? (·.hits (p ++ slash :: q)) with
  | none => exact absurd hbelow (List.find?_eq_none.mp hq _ (List.getElem_mem hlt))
  | some pat =>
    obtain ⟨hpat, j, hj, rfl, hbefore⟩ := List.find?_eq_some_iff_getElem.mp hq
    -- the first that hits below is the same or comes before it
    rcases Nat.lt_trichotomy j i with hji | rfl | hij
    · cases hn : (set.pats[j]).negate with
      | false => simp [hn]
      | true =>
        have := hneg j hji set.pats[j] (by rw [List.getElem?_eq_getElem hj]; rfl) hn
        rw [hpat] at this
        simp at this
    · exact hign
    · have := hbefore i hij
      rw [hbelow] at this
      simp at this

theorem ignored_below_drawer :
    ignoreMatch ⟨[⟨[97], false, false⟩], 0, by decide⟩ [97, 47, 98] = true :=
  (ignored_below ⟨[⟨[97], false, false⟩], 0, by decide⟩ (p := [97]) (i := 0) [98] (by decide)
    (by decide)).2 (by decide) (fun j hj => absurd hj (Nat.not_lt_zero j))

end Amisync

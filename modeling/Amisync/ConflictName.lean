import Amisync.Charset
import Amisync.Civil
import Amisync.DeviceId

/-!
# Names of conflict copies (`sync_make_conflict_name`)

A suffix with the time goes in front of the last extension of a name's last component.

* `conflictSuffix`, `syncMakeConflictName`: the suffix, and the name with it.
* `suffix_conflictSuffix`: the suffix is a dot and what has none, and fits its buffer.
* `syncMakeConflictName_eq`: directory, stem, suffix, extension.
* `splice_injective`: the suffix hides nothing of a component.
* `conflict_names`: what the names keep, and that they are all different.
-/

namespace Amisync

open Ctype

def conflictSuffix (now : Int64) (tag : Bytes) (compact : Bool) : Bytes :=
  let c := civilFromUnix now
  if compact then ascii ".cnfl-" ++ padded 2 c.h ++ padded 2 c.mi ++ padded 2 c.s
  else ascii ".sync-conflict-" ++ padded 4 c.y ++ padded 2 c.mo ++ padded 2 c.d ++ ascii "-" ++
    padded 2 c.h ++ padded 2 c.mi ++ padded 2 c.s ++ ascii "-" ++ tag.take 7

/-- The lengths of the names that the program has fit an `int`. -/
def syncMakeConflictName (cap : Int) (name : Bytes) (now : Int64) (tag : Bytes) (compact : Bool) :
    Option Bytes :=
  let suffix := conflictSuffix now tag compact
  let base := match strrchr slash name with
    | some (dir, _) => dir.length + 1
    | none => 0
  let stem := match strrchr dot (name.drop base) with
    | some (s, _) => base + s.length
    | none => name.length
  if cap ≤ name.length + suffix.length then none
  else some (name.take stem ++ suffix ++ name.drop stem)

/-! ## Parts of a name -/

def dirPart (name : Bytes) : Bytes :=
  match strrchr slash name with
  | some (dir, _) => dir ++ [slash]
  | none => []

def basePart (name : Bytes) : Bytes :=
  match strrchr slash name with
  | some (_, base) => base
  | none => name

def stemPart (base : Bytes) : Bytes :=
  match strrchr dot base with
  | some (stem, _) => stem
  | none => base

/-- The last extension with its dot. -/
def extPart (base : Bytes) : Bytes :=
  match strrchr dot base with
  | some (_, ext) => dot :: ext
  | none => []

section Parts
variable {name base x : Bytes}

theorem dirPart_append_basePart (name : Bytes) : dirPart name ++ basePart name = name := by
  rw [dirPart, basePart]
  rcases strrchr_cases slash name with ⟨h, -⟩ | ⟨dir, base, h, hname, -⟩
  · rw [h, List.nil_append]
  · rw [h, hname]
    simp

theorem slash_notMem_basePart (name : Bytes) : slash ∉ basePart name := by
  rw [basePart]
  rcases strrchr_cases slash name with ⟨h, hmem⟩ | ⟨dir, base, h, -, hmem⟩
  · rw [h]
    exact hmem
  · rw [h]
    exact hmem

/-- The directory stays where the last component changes. -/
theorem parts_append (name : Bytes) (hx : slash ∉ x) :
    dirPart (dirPart name ++ x) = dirPart name ∧ basePart (dirPart name ++ x) = x := by
  rcases strrchr_cases slash name with ⟨h, -⟩ | ⟨dir, base, h, -, -⟩
  · have hdir : dirPart name = [] := by rw [dirPart, h]
    rw [hdir, List.nil_append, dirPart, basePart, strrchr_of_notMem hx]
    exact ⟨rfl, rfl⟩
  · have hdir : dirPart name = dir ++ [slash] := by rw [dirPart, h]
    rw [hdir, List.append_assoc, List.singleton_append, dirPart, basePart, strrchr_append hx]
    exact ⟨rfl, rfl⟩

theorem ext_append {ext : Bytes} (hext : dot ∉ ext) (stem : Bytes) :
    stemPart (stem ++ dot :: ext) = stem ∧ extPart (stem ++ dot :: ext) = dot :: ext := by
  rw [stemPart, extPart, strrchr_append hext]
  exact ⟨rfl, rfl⟩

/-- With an extension or without. -/
theorem ext_cases (base : Bytes) : (dot ∉ base ∧ stemPart base = base ∧ extPart base = []) ∨
    ∃ stem ext, base = stem ++ dot :: ext ∧ dot ∉ ext ∧ stemPart base = stem ∧ extPart base = dot :: ext := by
  rcases strrchr_cases dot base with ⟨h, hmem⟩ | ⟨stem, ext, -, rfl, hmem⟩
  · exact Or.inl ⟨hmem, by rw [stemPart, h], by rw [extPart, h]⟩
  · exact Or.inr ⟨stem, ext, rfl, hmem, ext_append hmem stem⟩

theorem stemPart_append_extPart (base : Bytes) : stemPart base ++ extPart base = base := by
  rcases ext_cases base with ⟨-, hstem, hext⟩ | ⟨stem, ext, hbase, -, hstem, hext⟩
  · rw [hstem, hext, List.append_nil]
  · rw [hstem, hext, hbase]

end Parts

/-! ## The suffix -/

/-- No separator, no volume mark, no dot. -/
def Plain (c : UInt8) : Prop := c ≠ slash ∧ c ≠ colon ∧ c ≠ backslash ∧ c ≠ dot

instance : DecidablePred Plain := fun _ => inferInstanceAs (Decidable (_ ∧ _))

theorem plain_of_all {s : Bytes} (h : s.all (fun c => decide (Plain c)) = true) : ∀ c ∈ s, Plain c :=
  fun c hc => of_decide_eq_true (List.all_eq_true.mp h c hc)

theorem plain_of_digit (c : UInt8) : isdigit c = true → Plain c := by
  revert c
  exact forall_byte (by decide +kernel)

theorem plain_of_padded {w : Nat} {x : Int} : ∀ c ∈ padded w x, Plain c := by
  intro c hc
  rcases mem_padded hc with rfl | hc
  · decide
  · exact plain_of_digit c hc

theorem plain_of_clean (c : UInt8) : Clean c → Plain c := by
  revert c
  exact forall_byte (by decide +kernel)

/-- A dot and what has none. -/
structure Suffix (s : Bytes) : Prop where
  shape : ∃ t, s = dot :: t ∧ ∀ c ∈ t, Plain c
  long : 3 ≤ s.length

theorem length_padded_two {x : Int} (h : 0 ≤ x) (h' : x < 100) : (padded 2 x).length ≤ 2 := by
  have hlen := length_padded_le (k := 2) (x := x) (by decide) (by omega) 2
  rwa [if_neg (by omega)] at hlen

/-- Any year that an `int` holds. -/
theorem length_padded_year (x : Int) : (padded 4 (toInt32 x)).length ≤ 11 := by
  have hlow : -2 ^ 31 ≤ toInt32 x := Int.le_bmod (by decide)
  have hhigh : toInt32 x < 2 ^ 31 := Int.bmod_lt (by decide)
  have hlen := length_padded_le (k := 10) (x := toInt32 x) (by decide) (by omega) 4
  refine hlen.trans ?_
  split <;> decide

theorem length_conflictSuffix (now : Int64) (tag : Bytes) (compact : Bool) :
    (conflictSuffix now tag compact).length < 48 := by
  have hv := Calendar.valid_date (now.toInt / 86400)
  have hday := Calendar.monthDays_le (Calendar.date (now.toInt / 86400)).year (Calendar.date (now.toInt / 86400)).month
  have hmonth_pos := hv.month_pos
  have hmonth_le := hv.month_le
  have hday_pos := hv.day_pos
  have hday_le := hv.day_le
  have hy := length_padded_year (Calendar.date (now.toInt / 86400)).year
  have hmo := length_padded_two (x := (Calendar.date (now.toInt / 86400)).month) (by omega) (by omega)
  have hd := length_padded_two (x := (Calendar.date (now.toInt / 86400)).day) (by omega) (by omega)
  have hh := length_padded_two (x := now.toInt % 86400 / 3600) (by omega) (by omega)
  have hmi := length_padded_two (x := now.toInt % 86400 % 3600 / 60) (by omega) (by omega)
  have hs := length_padded_two (x := now.toInt % 86400 % 60) (by omega) (by omega)
  have htag : (tag.take 7).length ≤ 7 := List.length_take_le 7 tag
  have hcnfl : (ascii ".cnfl-").length = 6 := rfl
  have hsync : (ascii ".sync-conflict-").length = 15 := rfl
  have hdash : (ascii "-").length = 1 := rfl
  rw [conflictSuffix, civilFromUnix_eq]
  split
  · simp only [List.length_append]
    omega
  · simp only [List.length_append]
    omega

theorem suffix_conflictSuffix (now : Int64) {tag : Bytes} (htag : ∀ c ∈ tag, Plain c) (compact : Bool) :
    Suffix (conflictSuffix now tag compact) := by
  have hcnfl : ∀ c ∈ ascii "cnfl-", Plain c := plain_of_all (by decide)
  have hsync : ∀ c ∈ ascii "sync-conflict-", Plain c := plain_of_all (by decide)
  have hdash : ∀ c ∈ ascii "-", Plain c := plain_of_all (by decide)
  have htake : ∀ c ∈ tag.take 7, Plain c := fun c hc => htag c (List.mem_of_mem_take hc)
  generalize hciv : civilFromUnix now = v
  cases compact with
  | true =>
    have hs : conflictSuffix now tag true = dot :: (ascii "cnfl-" ++ padded 2 v.h ++ padded 2 v.mi ++ padded 2 v.s) := by
      rw [conflictSuffix, hciv]
      rfl
    refine ⟨⟨_, hs, ?_⟩, ?_⟩
    · simp only [List.forall_mem_append]
      exact ⟨⟨⟨hcnfl, plain_of_padded⟩, plain_of_padded⟩, plain_of_padded⟩
    · rw [hs]
      simp only [List.length_cons, List.length_append, show (ascii "cnfl-").length = 5 from rfl]
      omega
  | false =>
    have hs : conflictSuffix now tag false = dot :: (ascii "sync-conflict-" ++ padded 4 v.y ++ padded 2 v.mo ++
        padded 2 v.d ++ ascii "-" ++ padded 2 v.h ++ padded 2 v.mi ++ padded 2 v.s ++ ascii "-" ++ tag.take 7) := by
      rw [conflictSuffix, hciv]
      rfl
    refine ⟨⟨_, hs, ?_⟩, ?_⟩
    · simp only [List.forall_mem_append]
      exact ⟨⟨⟨⟨⟨⟨⟨⟨⟨hsync, plain_of_padded⟩, plain_of_padded⟩, plain_of_padded⟩, hdash⟩, plain_of_padded⟩,
        plain_of_padded⟩, plain_of_padded⟩, hdash⟩, htake⟩
    · rw [hs]
      simp only [List.length_cons, List.length_append, show (ascii "sync-conflict-").length = 14 from rfl]
      omega

/-! ## The names -/

/-- **Parts.** -/
theorem syncMakeConflictName_eq (cap : Int) (name : Bytes) (now : Int64) (tag : Bytes) (compact : Bool) :
    syncMakeConflictName cap name now tag compact =
      if cap ≤ name.length + (conflictSuffix now tag compact).length then none
      else some (dirPart name ++ (stemPart (basePart name) ++ conflictSuffix now tag compact ++
        extPart (basePart name))) := by
  have hbase : (match strrchr slash name with
      | some (dir, _) => dir.length + 1
      | none => 0) = (dirPart name).length := by
    rw [dirPart]
    rcases strrchr slash name with _ | ⟨dir, base⟩
    · rfl
    · simp
  have hdrop : name.drop (dirPart name).length = basePart name := by
    conv_lhs => rw [← dirPart_append_basePart name]
    rw [List.drop_left' (by rw [dirPart_append_basePart])]
  have hstem : (match strrchr dot (basePart name) with
      | some (s, _) => (dirPart name).length + s.length
      | none => name.length) = (dirPart name ++ stemPart (basePart name)).length := by
    rw [List.length_append, stemPart]
    rcases strrchr dot (basePart name) with _ | ⟨stem, ext⟩
    · exact (congrArg List.length (dirPart_append_basePart name)).symm.trans List.length_append
    · rfl
  have hname : name = dirPart name ++ stemPart (basePart name) ++ extPart (basePart name) := by
    rw [List.append_assoc, stemPart_append_extPart, dirPart_append_basePart]
  rw [syncMakeConflictName]
  simp only [hbase, hdrop, hstem]
  have htake : name.take (dirPart name ++ stemPart (basePart name)).length =
      dirPart name ++ stemPart (basePart name) :=
    List.prefix_iff_eq_take.mp ⟨_, hname.symm⟩ |>.symm
  have hrest : name.drop (dirPart name ++ stemPart (basePart name)).length = extPart (basePart name) := by
    have h := List.take_append_drop (dirPart name ++ stemPart (basePart name)).length name
    rw [htake] at h
    exact List.append_cancel_left (h.trans hname)
  rw [htake, hrest]
  simp only [List.append_assoc]

section Splice
variable {s base : Bytes}

theorem dot_notMem_tail {t : Bytes} (ht : ∀ c ∈ t, Plain c) : dot ∉ t :=
  fun h => (ht dot h).2.2.2 rfl

/-- The last extension is as it was; where there was none, the suffix is one. -/
theorem extPart_splice (hs : Suffix s) (base : Bytes) :
    extPart (stemPart base ++ s ++ extPart base) = if extPart base = [] then s else extPart base := by
  obtain ⟨t, rfl, ht⟩ := hs.shape
  rcases ext_cases base with ⟨-, hstem, hext⟩ | ⟨stem, ext, -, hmem, hstem, hext⟩
  · rw [hstem, hext, List.append_nil, if_pos rfl]
    exact (ext_append (dot_notMem_tail ht) base).2
  · rw [hstem, hext, if_neg (List.cons_ne_nil _ _)]
    exact (ext_append hmem _).2

/-- **No two components are spliced to one.** -/
theorem splice_injective (hs : Suffix s) {base base' : Bytes}
    (h : stemPart base ++ s ++ extPart base = stemPart base' ++ s ++ extPart base') : base = base' := by
  obtain ⟨t, rfl, ht⟩ := hs.shape
  -- a component without a dot has one after the splice, any other has two
  have hcount : ∀ stem ext : Bytes, (stem ++ dot :: t ++ dot :: ext).count dot ≥ 2 := by
    intro stem ext
    simp only [List.count_append, List.count_cons_self]
    omega
  have hone : ∀ b : Bytes, dot ∉ b → (b ++ dot :: t).count dot = 1 := by
    intro b hb
    rw [List.count_append, List.count_cons_self, List.count_eq_zero_of_not_mem hb,
      List.count_eq_zero_of_not_mem (dot_notMem_tail ht)]
  rcases ext_cases base with ⟨hmem, hstem, hext⟩ | ⟨stem, ext, hbase, hmem, hstem, hext⟩
  · rcases ext_cases base' with ⟨hmem', hstem', hext'⟩ | ⟨stem', ext', -, -, hstem', hext'⟩
    · rw [hstem, hext, hstem', hext', List.append_nil, List.append_nil] at h
      exact List.append_cancel_right h
    · rw [hstem, hext, hstem', hext', List.append_nil] at h
      have hc := hcount stem' ext'
      rw [← h, hone base hmem] at hc
      exact absurd hc (by decide)
  · rcases ext_cases base' with ⟨hmem', hstem', hext'⟩ | ⟨stem', ext', hbase', hmem', hstem', hext'⟩
    · rw [hstem, hext, hstem', hext', List.append_nil] at h
      have hc := hcount stem ext
      rw [h, hone base' hmem'] at hc
      exact absurd hc (by decide)
    · rw [hstem, hext, hstem', hext'] at h
      have hsame := congrArg stemPart h
      rw [(ext_append hmem _).1, (ext_append hmem' _).1] at hsame
      have hstems : stem = stem' := List.append_cancel_right hsame
      rw [hsame] at h
      rw [hbase, hbase', hstems, List.append_cancel_left h]

end Splice

/-- A component that is spliced is safe. -/
theorem componentSafe_splice {s base : Bytes} (hs : Suffix s) (hb : componentSafe base = true) :
    componentSafe (stemPart base ++ s ++ extPart base) = true := by
  obtain ⟨hcolon, hback, -⟩ := componentSafe_iff.mp hb
  have hlong := hs.long
  obtain ⟨t, rfl, ht⟩ := hs.shape
  have hmem : ∀ c, c ∈ stemPart base ++ dot :: t ++ extPart base → c ∈ base ∨ c = dot ∨ Plain c := by
    intro c hc
    simp only [List.mem_append, List.mem_cons] at hc
    rcases hc with (hc | rfl | hc) | hc
    · exact Or.inl (stemPart_append_extPart base ▸ List.mem_append_left _ hc)
    · exact Or.inr (Or.inl rfl)
    · exact Or.inr (Or.inr (ht c hc))
    · exact Or.inl (stemPart_append_extPart base ▸ List.mem_append_right _ hc)
  have hlen : 3 ≤ (stemPart base ++ dot :: t ++ extPart base).length := by
    rw [List.length_append, List.length_append]
    omega
  refine componentSafe_iff.mpr ⟨fun h => ?_, fun h => ?_, ?_, ?_, ?_⟩
  · rcases hmem colon h with h | h | h
    · exact hcolon h
    · exact absurd h (by decide)
    · exact h.2.1 rfl
  · rcases hmem backslash h with h | h | h
    · exact hback h
    · exact absurd h (by decide)
    · exact h.2.2.1 rfl
  · intro h
    rw [h] at hlen
    exact absurd hlen (by decide)
  · intro h
    rw [h] at hlen
    exact absurd hlen (by decide)
  · intro h
    rw [h] at hlen
    exact absurd hlen (by decide)

theorem slash_notMem_splice {s base : Bytes} (hs : Suffix s) (hb : slash ∉ base) :
    slash ∉ stemPart base ++ s ++ extPart base := by
  obtain ⟨t, rfl, ht⟩ := hs.shape
  rw [← stemPart_append_extPart base, List.mem_append, not_or] at hb
  simp only [List.mem_append, List.mem_cons, not_or]
  exact ⟨⟨hb.1, by decide, fun h => (ht slash h).1 rfl⟩, hb.2⟩

/-- Another last component, as safe as the one before. -/
theorem pathNameSafe_append {name x : Bytes} (hx : slash ∉ x)
    (hsafe : componentSafe (basePart name) = true → componentSafe x = true)
    (h : pathNameSafe name = true) : pathNameSafe (dirPart name ++ x) = true := by
  have hbase := slash_notMem_basePart name
  rw [← dirPart_append_basePart name] at h
  rcases strrchr_cases slash name with ⟨hnone, -⟩ | ⟨dir, base, hsome, -, -⟩
  · have hdir : dirPart name = [] := by rw [dirPart, hnone]
    rw [hdir, List.nil_append, pathNameSafe] at h ⊢
    rw [components_of_no_slash hbase] at h
    rw [components_of_no_slash hx]
    simpa using hsafe (by simpa using h)
  · have hdir : dirPart name = dir ++ [slash] := by rw [dirPart, hsome]
    rw [hdir, List.append_assoc, List.singleton_append, pathNameSafe, components_append_below,
      List.all_append, Bool.and_eq_true] at h ⊢
    rw [components_of_no_slash hbase] at h
    rw [components_of_no_slash hx]
    exact ⟨h.1, by simpa using hsafe (by simpa using h.2)⟩

/-- A conflict name has room in its buffer or there is none; it is safe, longer than the name, in
the same directory, with the same last extension; and no two names have the same. The tag is of
an id, or the `AMIGA00` there is without one. -/
theorem conflict_names {tag : Bytes} (htag : ∀ c ∈ tag, Clean c ∨ isdigit c = true) (now : Int64) (compact : Bool) :
    (conflictSuffix now tag compact).length < 48 ∧
    (∀ (cap : Int) (name : Bytes), pathNameSafe name = true →
      ((syncMakeConflictName cap name now tag compact).isSome ↔
        (name.length + (conflictSuffix now tag compact).length : Int) < cap) ∧
      ∀ out, syncMakeConflictName cap name now tag compact = some out →
        out.length = name.length + (conflictSuffix now tag compact).length ∧ (out.length : Int) < cap ∧
        out ≠ name ∧ dirPart out = dirPart name ∧
        (extPart (basePart name) ≠ [] → extPart (basePart out) = extPart (basePart name)) ∧
        pathNameSafe out = true) ∧
    (∀ (cap cap' : Int) (name name' out : Bytes), pathNameSafe name = true → pathNameSafe name' = true →
      syncMakeConflictName cap name now tag compact = some out →
      syncMakeConflictName cap' name' now tag compact = some out → name = name') := by
  have hs := suffix_conflictSuffix now (fun c hc => (htag c hc).elim (plain_of_clean c) (plain_of_digit c)) compact
  have hout : ∀ {cap : Int} {name out : Bytes}, syncMakeConflictName cap name now tag compact = some out →
      (name.length + (conflictSuffix now tag compact).length : Int) < cap ∧
      out = dirPart name ++ (stemPart (basePart name) ++ conflictSuffix now tag compact ++ extPart (basePart name)) := by
    intro cap name out h
    rw [syncMakeConflictName_eq] at h
    split at h
    · cases h
    · rename_i hroom
      exact ⟨Int.not_le.mp hroom, (Option.some.inj h).symm⟩
  have hbase := fun name => slash_notMem_splice hs (slash_notMem_basePart name)
  refine ⟨length_conflictSuffix now tag compact, fun cap name hname => ⟨?_, fun out h => ?_⟩, ?_⟩
  · rw [syncMakeConflictName_eq]
    split
    · rename_i hfull
      simp only [Option.isSome_none, Bool.false_eq_true, false_iff]
      omega
    · rename_i hroom
      simp only [Option.isSome_some, true_iff]
      omega
  · obtain ⟨hroom, rfl⟩ := hout h
    have hparts := parts_append name (hbase name)
    have hlen : (dirPart name ++ (stemPart (basePart name) ++ conflictSuffix now tag compact ++
        extPart (basePart name))).length = name.length + (conflictSuffix now tag compact).length := by
      have hdir := congrArg List.length (dirPart_append_basePart name)
      have hstem := congrArg List.length (stemPart_append_extPart (basePart name))
      rw [List.length_append] at hdir hstem
      simp only [List.length_append]
      omega
    have hlong := hs.long
    refine ⟨hlen, by rw [hlen]; omega, fun h => ?_, hparts.1, fun hext => ?_,
      pathNameSafe_append (hbase name) (componentSafe_splice hs) hname⟩
    · rw [h] at hlen
      omega
    · rw [hparts.2, extPart_splice hs, if_neg hext]
  · intro cap cap' name name' out _ _ h h'
    obtain ⟨-, hname⟩ := hout h
    obtain ⟨-, hname'⟩ := hout h'
    have hdir := (parts_append name (hbase name)).1.symm.trans
      ((congrArg dirPart (hname.symm.trans hname')).trans (parts_append name' (hbase name')).1)
    have hlast := (parts_append name (hbase name)).2.symm.trans
      ((congrArg basePart (hname.symm.trans hname')).trans (parts_append name' (hbase name')).2)
    rw [← dirPart_append_basePart name, hdir, splice_injective hs hlast, dirPart_append_basePart]

theorem conflict_names_report : ∃ out,
    syncMakeConflictName 256 (ascii "dir/report.txt") 1784291696 (ascii "P56IOI7") false = some out ∧
      dirPart out = ascii "dir/" ∧ extPart (basePart out) = ascii ".txt" ∧ pathNameSafe out = true := by
  have hall : (ascii "P56IOI7").all (fun c => decide (Clean c)) = true := by decide
  have htag : ∀ c ∈ ascii "P56IOI7", Clean c ∨ isdigit c = true :=
    fun c hc => Or.inl (of_decide_eq_true (List.all_eq_true.mp hall c hc))
  obtain ⟨hlen, hnames, -⟩ := conflict_names htag 1784291696 false
  obtain ⟨hsome, hfacts⟩ := hnames 256 (ascii "dir/report.txt") (by decide)
  have hname : (ascii "dir/report.txt").length = 14 := rfl
  obtain ⟨out, hout⟩ := Option.isSome_iff_exists.mp (hsome.mpr (by rw [hname]; omega))
  obtain ⟨-, -, -, hdir, hext, hsafe⟩ := hfacts out hout
  exact ⟨out, hout, hdir, hext (by decide), hsafe⟩

example : syncMakeConflictName 256 (ascii "dir/report.txt") 1784291696 (ascii "P56IOI7") false =
    some (ascii "dir/report.sync-conflict-20260717-123456-P56IOI7.txt") := by decide

end Amisync

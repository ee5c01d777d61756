import Amisync.Types
import Amisync.Lib.Calendar
import Mathlib.Tactic.IntervalCases
import Mathlib.Tactic.NormNum

/-!
# Days and dates (`civil_from_unix`, `days_from_civil`)

Both count years from March on, in eras of 400 years.

* `civilFromUnix`, `daysFromCivil`: the two conversions.
* `exists_parts`, `yoe_parts`: a day of an era by its century, its four years, its year and its
  place in it.
* `civilFromDays_eq`: the date of a day is that of the calendar.
-/

namespace Amisync

/-- An `unsigned` result. -/
def toUnsigned (x : Int) : Int := x % 2 ^ 32

/-! ## The conversions -/

/-- What `civil_from_unix` stores. -/
@[ext]
structure Civil where
  y : Int
  mo : Int
  d : Int
  h : Int
  mi : Int
  s : Int
deriving DecidableEq

/-- The date of a day, the year before it is stored in an `int`. -/
def civilFromDays (days : Int) : Calendar.Date :=
  let days := days + 719468
  let era := (if 0 ≤ days then days else days - 146096).tdiv 146097
  let doe := toUnsigned (days - era * 146097)
  let yoe := toUnsigned (doe - doe / 1460 + doe / 36524 - doe / 146096) / 365
  let doy := toUnsigned (doe - (365 * yoe + yoe / 4 - yoe / 100))
  let mp := toUnsigned (5 * doy + 2) / 153
  let d := toInt32 (doy - (153 * mp + 2) / 5 + 1)
  let mo := toInt32 (if mp < 10 then mp + 3 else mp - 9)
  ⟨yoe + era * 400 + if mo ≤ 2 then 1 else 0, mo, d⟩

def civilFromUnix (t : Int64) : Civil :=
  let days := t.toInt.tdiv 86400
  let rem := t.toInt.tmod 86400
  let (rem, days) := if rem < 0 then (rem + 86400, days - 1) else (rem, days)
  let v := civilFromDays days
  ⟨toInt32 v.year, v.month, v.day, rem.tdiv 3600, (rem.tmod 3600).tdiv 60, rem.tmod 60⟩

def daysFromCivil (y m d : Int) : Int :=
  let y := if m ≤ 2 then y - 1 else y
  let era := (if 0 ≤ y then y else y - 399).tdiv 400
  let yoe := y - era * 400
  let doy := (153 * (m + if m > 2 then -3 else 9) + 2).tdiv 5 + d - 1
  let doe := yoe * 365 + yoe.tdiv 4 - yoe.tdiv 100 + doy
  era * 146097 + doe - 719468

/-! ## Division -/

section Division
variable {a n : Int}

/-- Truncation of what was moved down first. -/
theorem tdiv_floor (hn : 0 < n) : (if 0 ≤ a then a else a - (n - 1)).tdiv n = a / n := by
  split
  · rename_i ha
    exact Int.tdiv_eq_ediv_of_nonneg ha
  · rename_i ha
    have hr := Int.emod_nonneg a (Int.ne_of_gt hn)
    have hr' := Int.emod_lt_of_pos a hn
    have hsplit : -(a - (n - 1)) = n - 1 - a % n + n * (-(a / n)) := by
      have := Int.mul_ediv_add_emod a n
      rw [Int.mul_neg]
      omega
    have hneg : (-(a - (n - 1))).tdiv n = -(a / n) := by
      rw [Int.tdiv_eq_ediv_of_nonneg (by omega), hsplit, Int.add_mul_ediv_left _ _ (Int.ne_of_gt hn),
        Int.ediv_eq_zero_of_lt (by omega) (by omega), Int.zero_add]
    rw [Int.neg_tdiv] at hneg
    exact Int.neg_inj.mp hneg

/-- A negative remainder is moved up. -/
theorem tmod_adjust (hn : 0 < n) :
    (if a.tmod n < 0 then (a.tmod n + n, a.tdiv n - 1) else (a.tmod n, a.tdiv n)) = (a % n, a / n) := by
  have hsum := Int.mul_tdiv_add_tmod a n
  have hlow := Int.lt_tmod_of_pos a hn
  have hhigh := Int.tmod_lt_of_pos a hn
  split
  · have hunique := (Int.ediv_emod_unique (a := a) (b := n) (r := a.tmod n + n) (q := a.tdiv n - 1) hn).mpr
      ⟨by rw [Int.mul_sub, Int.mul_one]; omega, by omega, by omega⟩
    rw [hunique.1, hunique.2]
  · have hunique := (Int.ediv_emod_unique (a := a) (b := n) (r := a.tmod n) (q := a.tdiv n) hn).mpr
      ⟨by omega, by omega, by omega⟩
    rw [hunique.1, hunique.2]

end Division

/-! ## Eras -/

/-- Day `doe` of an era is day `e` of year `100 * k + 4 * n + i`. -/
structure Parts (k n i e doe : Int) : Prop where
  k_range : 0 ≤ k ∧ k ≤ 3
  n_range : 0 ≤ n ∧ n ≤ 24
  i_range : 0 ≤ i ∧ i ≤ 3
  e_range : 0 ≤ e ∧ e ≤ 365
  last : e = 365 → i = 3 ∧ (n = 24 → k = 3)
  sum : doe = 36524 * k + 1461 * n + 365 * i + e

section Eras
variable {k n i e doe : Int}

variable (doe) in
theorem exists_parts (h₀ : 0 ≤ doe) (h : doe < 146097) : ∃ k n i e, Parts k n i e doe := by
  have hcentury : ∃ k r, doe = 36524 * k + r ∧ 0 ≤ k ∧ k ≤ 3 ∧ 0 ≤ r ∧ r ≤ 36524 ∧ (r = 36524 → k = 3) := by
    by_cases hlast : doe = 146096
    · exact ⟨3, 36524, by omega⟩
    · exact ⟨doe / 36524, doe % 36524, by omega⟩
  obtain ⟨k, r, rfl, hr⟩ := hcentury
  have hyear : ∃ i e, r % 1461 = 365 * i + e ∧ 0 ≤ i ∧ i ≤ 3 ∧ 0 ≤ e ∧ e ≤ 365 ∧ (e = 365 → i = 3) := by
    by_cases hlast : r % 1461 = 1460
    · exact ⟨3, 365, by omega⟩
    · exact ⟨r % 1461 / 365, r % 1461 % 365, by omega⟩
  obtain ⟨i, e, hie, he⟩ := hyear
  exact ⟨k, r / 1461, i, e, by omega, by omega, by omega, by omega, by omega, by omega⟩

theorem Parts.bound (h : Parts k n i e doe) : 0 ≤ doe ∧ doe < 146097 := by
  obtain ⟨hk, hn, hi, he, last, rfl⟩ := h
  omega

/-- The year of the era. -/
theorem yoe_parts (h : Parts k n i e doe) :
    (doe - doe / 1460 + doe / 36524 - doe / 146096) / 365 = 100 * k + 4 * n + i := by
  obtain ⟨hk, hn, hi, he, last, rfl⟩ := h
  have hleap : (36524 * k + 1461 * n + 365 * i + e) / 1460 =
      25 * k + n + (24 * k + n + 365 * i + e) / 1460 := by omega
  have hcentury : (36524 * k + 1461 * n + 365 * i + e) / 36524 -
      (36524 * k + 1461 * n + 365 * i + e) / 146096 = k := by
    by_cases hlast : e = 365 ∧ n = 24
    · omega
    · have hlt : 1461 * n + 365 * i + e < 36524 := by omega
      have hk : (36524 * k + 1461 * n + 365 * i + e) / 36524 = k := by omega
      omega
  -- a day at the end of four years is one too many, which the division makes good
  have hlow : 0 ≤ e - (24 * k + n + 365 * i + e) / 1460 := by omega
  have hhigh : e - (24 * k + n + 365 * i + e) / 1460 ≤ 364 := by omega
  rw [hleap]
  omega

/-- The day of the year. -/
theorem doy_parts (h : Parts k n i e doe) :
    doe - (365 * (100 * k + 4 * n + i) + (100 * k + 4 * n + i) / 4 - (100 * k + 4 * n + i) / 100) = e := by
  obtain ⟨hk, hn, hi, he, last, rfl⟩ := h
  omega

end Eras

/-- **Date of a day.** -/
theorem civilFromDays_parts {k n i e doe z : Int} (era : Int) (h : Parts k n i e doe)
    (hz : z + 719468 = era * 146097 + doe) :
    civilFromDays z =
      let mp := (5 * e + 2) / 153
      let mo := if mp < 10 then mp + 3 else mp - 9
      ⟨100 * k + 4 * n + i + era * 400 + if mo ≤ 2 then 1 else 0, mo, e - (153 * mp + 2) / 5 + 1⟩ := by
  have hbound := h.bound
  have he := h.e_range
  have hera : (if 0 ≤ z + 719468 then z + 719468 else z + 719468 - 146096).tdiv 146097 = era := by
    have hfloor : (if 0 ≤ z + 719468 then z + 719468 else z + 719468 - (146097 - 1)).tdiv 146097 = _ :=
      tdiv_floor (by decide)
    rw [show (146097 : Int) - 1 = 146096 from rfl] at hfloor
    rw [hfloor]
    omega
  have hdoe : toUnsigned (z + 719468 - era * 146097) = doe := by
    rw [toUnsigned]
    omega
  have hyoe := yoe_parts h
  have hyoe' : toUnsigned (doe - doe / 1460 + doe / 36524 - doe / 146096) / 365 = 100 * k + 4 * n + i := by
    rw [← hyoe, toUnsigned]
    omega
  have hdoy : toUnsigned (doe - (365 * (100 * k + 4 * n + i) + (100 * k + 4 * n + i) / 4 -
      (100 * k + 4 * n + i) / 100)) = e := by
    rw [doy_parts h, toUnsigned]
    omega
  have hmp : toUnsigned (5 * e + 2) / 153 = (5 * e + 2) / 153 := by
    rw [toUnsigned]
    omega
  rw [civilFromDays]
  simp only [hera, hdoe, hyoe', hdoy, hmp]
  have hmo : toInt32 (if (5 * e + 2) / 153 < 10 then (5 * e + 2) / 153 + 3 else (5 * e + 2) / 153 - 9) =
      if (5 * e + 2) / 153 < 10 then (5 * e + 2) / 153 + 3 else (5 * e + 2) / 153 - 9 :=
    toInt32_of_small (by split <;> omega) (by split <;> omega)
  have hd : toInt32 (e - (153 * ((5 * e + 2) / 153) + 2) / 5 + 1) = e - (153 * ((5 * e + 2) / 153) + 2) / 5 + 1 :=
    toInt32_of_small (by omega) (by omega)
  rw [hmo, hd]

/-! ## Dates -/

section Dates
open Calendar (Date Leap monthDays)

/-- The year that began in March, and the months since then. -/
theorem daysFromCivil_eq {y m d : Int} (hm : 1 ≤ m) {Y p : Int} (hY : Y = if m ≤ 2 then y - 1 else y)
    (hmp : p = if m > 2 then m - 3 else m + 9) :
    daysFromCivil y m d =
      Y / 400 * 146097 + ((Y % 400) * 365 + Y % 400 / 4 - Y % 400 / 100 + ((153 * p + 2) / 5 + d - 1)) - 719468 := by
  have hera : (if 0 ≤ Y then Y else Y - 399).tdiv 400 = Y / 400 := by
    have hfloor : (if 0 ≤ Y then Y else Y - (400 - 1)).tdiv 400 = Y / 400 := tdiv_floor (by decide)
    rwa [show (400 : Int) - 1 = 399 from rfl] at hfloor
  have hyoe : Y - Y / 400 * 400 = Y % 400 := by omega
  have hmonth : 153 * (m + if m > 2 then -3 else 9) + 2 = 153 * p + 2 := by
    rw [hmp]
    split <;> omega
  have hmp₀ : 0 ≤ p := by
    rw [hmp]
    split <;> omega
  rw [daysFromCivil]
  simp only [← hY, hera, hyoe, hmonth]
  rw [Int.tdiv_eq_ediv_of_nonneg (by omega), Int.tdiv_eq_ediv_of_nonneg (by omega),
    Int.tdiv_eq_ediv_of_nonneg (by omega)]

theorem valid_civilFromDays (z : Int) : (civilFromDays z).Valid := by
  obtain ⟨k, n, i, e, h⟩ := exists_parts ((z + 719468) % 146097) (by omega) (by omega)
  rw [civilFromDays_parts ((z + 719468) / 146097) h (by omega)]
  obtain ⟨hk, hn, hi, he, hlast, -⟩ := h
  generalize (z + 719468) / 146097 = era
  generalize hmp : (5 * e + 2) / 153 = mp
  have hmp₀ : 0 ≤ mp := by omega
  have hmp₁ : mp ≤ 11 := by omega
  -- month by month, the one of the last day of a leap year among them
  interval_cases mp <;> constructor <;> simp only [monthDays, Leap] <;> norm_num <;> omega

theorem daysFromCivil_civilFromDays (z : Int) :
    daysFromCivil (civilFromDays z).year (civilFromDays z).month (civilFromDays z).day = z := by
  have hmonth := (valid_civilFromDays z).month_pos
  obtain ⟨k, n, i, e, h⟩ := exists_parts ((z + 719468) % 146097) (by omega) (by omega)
  rw [civilFromDays_parts ((z + 719468) / 146097) h (by omega)] at hmonth ⊢
  generalize hera : (z + 719468) / 146097 = era at hmonth ⊢
  have he := h.e_range
  have hdoy := doy_parts h
  have hk := h.k_range
  have hn := h.n_range
  have hi := h.i_range
  dsimp only at hmonth ⊢
  rw [daysFromCivil_eq hmonth (Y := 100 * k + 4 * n + i + era * 400) (p := (5 * e + 2) / 153)
    (by split <;> omega) (by split <;> split <;> omega)]
  have hyoe : (100 * k + 4 * n + i + era * 400) % 400 = 100 * k + 4 * n + i := by omega
  have hdiv : (100 * k + 4 * n + i + era * 400) / 400 = era := by omega
  rw [hyoe, hdiv]
  omega

theorem daysFromCivil_next {v : Date} (hv : v.Valid) :
    daysFromCivil v.next.year v.next.month v.next.day = daysFromCivil v.year v.month v.day + 1 := by
  obtain ⟨y, m, d⟩ := v
  obtain ⟨hm, hm', hd, hd'⟩ := hv
  dsimp only at hm hm' hd hd' ⊢
  rw [Date.next]
  dsimp only
  split
  · dsimp only
    rw [daysFromCivil_eq hm rfl rfl, daysFromCivil_eq hm rfl rfl]
    omega
  split
  · dsimp only
    rw [daysFromCivil_eq (by omega) rfl rfl, daysFromCivil_eq hm rfl rfl]
    rename_i hlen _
    interval_cases m <;> simp only [monthDays, Leap] at hlen hd' <;> norm_num at hlen hd' ⊢ <;> omega
  · dsimp only
    obtain rfl : m = 12 := by omega
    have hlen := Calendar.monthDays_december y
    rw [daysFromCivil_eq (by decide) rfl rfl, daysFromCivil_eq (by decide) rfl rfl]
    norm_num
    omega

/-- The day of a year that began in March. -/
theorem doy_valid {y m d Y mp : Int} (hm : 1 ≤ m) (hm' : m ≤ 12) (hd : 1 ≤ d) (hd' : d ≤ monthDays y m)
    (hY : (if m ≤ 2 then y - 1 else y) = Y) (hmp : (if m > 2 then m - 3 else m + 9) = mp) :
    (153 * mp + 2) / 5 + d - 1 ≤ 365 ∧ ((153 * mp + 2) / 5 + d - 1 = 365 → Leap (Y + 1)) ∧
      (5 * ((153 * mp + 2) / 5 + d - 1) + 2) / 153 = mp := by
  subst hY hmp
  interval_cases m <;> simp only [monthDays, Leap] at hd' ⊢ <;> norm_num at hd' ⊢ <;> omega

theorem civilFromDays_daysFromCivil {v : Date} (hv : v.Valid) :
    civilFromDays (daysFromCivil v.year v.month v.day) = v := by
  obtain ⟨y, m, d⟩ := v
  obtain ⟨hm, hm', hd, hd'⟩ := hv
  dsimp only at hm hm' hd hd' ⊢
  rw [daysFromCivil_eq hm rfl rfl]
  generalize hY : (if m ≤ 2 then y - 1 else y) = Y
  generalize hmp : (if m > 2 then m - 3 else m + 9) = mp
  obtain ⟨hdoy, hlast, hback⟩ := doy_valid hm hm' hd hd' hY hmp
  have hmp₀ : 0 ≤ mp := by
    rw [← hmp]
    split <;> omega
  have hparts : Parts (Y % 400 / 100) (Y % 100 / 4) (Y % 4) ((153 * mp + 2) / 5 + d - 1)
      ((Y % 400) * 365 + Y % 400 / 4 - Y % 400 / 100 + ((153 * mp + 2) / 5 + d - 1)) := by
    refine ⟨by omega, by omega, by omega, by omega, fun h => ?_, by omega⟩
    have hleap := hlast h
    rw [Leap] at hleap
    omega
  rw [civilFromDays_parts (Y / 400) hparts (by omega), hback]
  have hmonth : (if mp < 10 then mp + 3 else mp - 9) = m := by
    rw [← hmp]
    split <;> split <;> omega
  have hyear : (100 * (Y % 400 / 100) + 4 * (Y % 100 / 4) + Y % 4 + Y / 400 * 400 +
      if m ≤ 2 then 1 else 0) = y := by
    rw [← hY]
    split <;> omega
  have hday : (153 * mp + 2) / 5 + d - 1 - (153 * mp + 2) / 5 + 1 = d := by omega
  simp only [hmonth, hyear, hday]

/-- **Calendar.** -/
theorem civilFromDays_eq (z : Int) : civilFromDays z = Calendar.date z := by
  refine Calendar.eq_date (by decide) valid_civilFromDays (fun z => ?_) z
  have hv := (valid_civilFromDays z).next
  have hnext := daysFromCivil_next (valid_civilFromDays z)
  rw [daysFromCivil_civilFromDays] at hnext
  rw [← hnext]
  exact civilFromDays_daysFromCivil hv

/-- The day of a date is where the calendar has it. -/
theorem date_daysFromCivil {v : Date} (hv : v.Valid) :
    Calendar.date (daysFromCivil v.year v.month v.day) = v :=
  (civilFromDays_eq _).symm.trans (civilFromDays_daysFromCivil hv)

end Dates

/-! ## Times -/

namespace Civil

def date (c : Civil) : Calendar.Date := ⟨c.y, c.mo, c.d⟩

structure Valid (c : Civil) : Prop where
  date : c.date.Valid
  h : 0 ≤ c.h ∧ c.h < 24
  mi : 0 ≤ c.mi ∧ c.mi < 60
  s : 0 ≤ c.s ∧ c.s < 60

/-- The time, from the day of the date on. -/
def unix (c : Civil) : Int := daysFromCivil c.y c.mo c.d * 86400 + c.h * 3600 + c.mi * 60 + c.s

def fields (c : Civil) : List Int := [c.y, c.mo, c.d, c.h, c.mi, c.s]

end Civil

/-- The year that a time is in. -/
def yearOf (t : Int64) : Int := (Calendar.date (t.toInt / 86400)).year

theorem civilFromUnix_eq (t : Int64) : civilFromUnix t =
    let v := Calendar.date (t.toInt / 86400)
    let rem := t.toInt % 86400
    ⟨toInt32 v.year, v.month, v.day, rem / 3600, rem % 3600 / 60, rem % 60⟩ := by
  have hrem : 0 ≤ t.toInt % 86400 := Int.emod_nonneg _ (by decide)
  have hrem' : 0 ≤ t.toInt % 86400 % 3600 := Int.emod_nonneg _ (by decide)
  rw [civilFromUnix]
  simp only [tmod_adjust (show (0 : Int) < 86400 by decide), civilFromDays_eq]
  rw [Int.tdiv_eq_ediv_of_nonneg hrem, Int.tmod_eq_emod_of_nonneg hrem, Int.tmod_eq_emod_of_nonneg hrem,
    Int.tdiv_eq_ediv_of_nonneg hrem']

theorem date_civilFromUnix {t : Int64} (ht : (yearOf t).natAbs < 2 ^ 30) :
    (civilFromUnix t).date = Calendar.date (t.toInt / 86400) := by
  have hyear : toInt32 (yearOf t) = yearOf t := toInt32_of_small (by omega) (by omega)
  rw [civilFromUnix_eq, Civil.date]
  dsimp only
  rw [show toInt32 (Calendar.date (t.toInt / 86400)).year = _ from hyear]
  rfl

theorem valid_civilFromUnix {t : Int64} (ht : (yearOf t).natAbs < 2 ^ 30) : (civilFromUnix t).Valid := by
  have hdate := date_civilFromUnix ht
  refine ⟨hdate ▸ Calendar.valid_date _, ?_, ?_, ?_⟩ <;> rw [civilFromUnix_eq] <;> dsimp only <;> omega

theorem unix_civilFromUnix {t : Int64} (ht : (yearOf t).natAbs < 2 ^ 30) :
    (civilFromUnix t).unix = t.toInt := by
  have hdays : daysFromCivil (civilFromUnix t).y (civilFromUnix t).mo (civilFromUnix t).d = t.toInt / 86400 := by
    have h := daysFromCivil_civilFromDays (t.toInt / 86400)
    rwa [civilFromDays_eq, ← date_civilFromUnix ht] at h
  rw [Civil.unix, hdays, civilFromUnix_eq]
  dsimp only
  omega

theorem civilFromUnix_unix {c : Civil} (hc : c.Valid) (hy : c.y.natAbs < 2 ^ 30) :
    civilFromUnix (Int64.ofInt c.unix) = c := by
  obtain ⟨hdate, hh, hmi, hs⟩ := hc
  have hback := date_daysFromCivil hdate
  obtain ⟨y, mo, d, h, mi, s⟩ := c
  obtain ⟨hm, hm', hd, hd'⟩ := hdate
  dsimp only [Civil.date] at hm hm' hd hd' hh hmi hs hy hback
  have hlen := Calendar.monthDays_le y mo
  have hdays := daysFromCivil_eq (y := y) (d := d) hm rfl rfl
  have hbound : -2 ^ 40 ≤ daysFromCivil y mo d ∧ daysFromCivil y mo d < 2 ^ 40 := by
    split at hdays <;> split at hdays <;> omega
  have ht : (Int64.ofInt (Civil.unix ⟨y, mo, d, h, mi, s⟩)).toInt =
      daysFromCivil y mo d * 86400 + h * 3600 + mi * 60 + s :=
    Int64.toInt_ofInt_of_le (by rw [Civil.unix]; dsimp only; omega) (by rw [Civil.unix]; dsimp only; omega)
  have hdiv : (daysFromCivil y mo d * 86400 + h * 3600 + mi * 60 + s) / 86400 = daysFromCivil y mo d := by omega
  rw [civilFromUnix_eq, ht, hdiv, hback]
  dsimp only
  rw [toInt32_of_small (by omega) (by omega), Civil.mk.injEq]
  refine ⟨rfl, rfl, rfl, ?_, ?_, ?_⟩ <;> omega

theorem fields_lt {t t' : Int64} (ht : (yearOf t).natAbs < 2 ^ 30) (ht' : (yearOf t').natAbs < 2 ^ 30)
    (h : t < t') : (civilFromUnix t).fields < (civilFromUnix t').fields := by
  have hdate := date_civilFromUnix ht
  have hdate' := date_civilFromUnix ht'
  have hlt : t.toInt < t'.toInt := Int64.lt_iff_toInt_lt.mp h
  simp only [Civil.fields, List.cons_lt_cons_iff, List.not_lt_nil, and_false, or_false]
  rcases Int.lt_or_eq_of_le (Int.ediv_le_ediv (show (0 : Int) < 86400 by decide) hlt.le) with hday | hday
  · have hbefore := Calendar.before_of_lt hday
    rw [← hdate, ← hdate', Calendar.Date.Before] at hbefore
    dsimp only [Civil.date] at hbefore
    omega
  · -- on the same day the time of day decides
    rw [hday, ← hdate', Civil.date, Civil.date, Calendar.Date.mk.injEq] at hdate
    have htime := civilFromUnix_eq t
    have htime' := civilFromUnix_eq t'
    rw [Civil.ext_iff] at htime htime'
    dsimp only at htime htime'
    omega

/-- **Calendar conversion.** The fields of a time are its date in the calendar and its time of
day; they give the time back, every date and time comes from the time it stands for, and later
times have later fields. -/
theorem civilFromUnix_exact :
    (∀ t : Int64, (yearOf t).natAbs < 2 ^ 30 →
      (civilFromUnix t).Valid ∧ (civilFromUnix t).date = Calendar.date (t.toInt / 86400) ∧
      (civilFromUnix t).unix = t.toInt) ∧
    (∀ c : Civil, c.Valid → c.y.natAbs < 2 ^ 30 → civilFromUnix (Int64.ofInt c.unix) = c) ∧
    (∀ t t' : Int64, (yearOf t).natAbs < 2 ^ 30 → (yearOf t').natAbs < 2 ^ 30 → t < t' →
      (civilFromUnix t).fields < (civilFromUnix t').fields) :=
  ⟨fun _ ht => ⟨valid_civilFromUnix ht, date_civilFromUnix ht, unix_civilFromUnix ht⟩,
    fun _ hc hy => civilFromUnix_unix hc hy, fun _ _ ht ht' h => fields_lt ht ht' h⟩

example : civilFromUnix (-1) = ⟨1969, 12, 31, 23, 59, 59⟩ := by decide

end Amisync

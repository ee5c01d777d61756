import Mathlib.Data.Int.Basic
import Mathlib.Logic.Function.Iterate

/-!
# The Gregorian calendar

The dates one after another, from 1 January 1970 on and back from it.

* `Date.Valid`, `Date.next`, `Date.prev`: a date, the day after it and the day before.
* `date`: the date that is `z` days after the epoch; `date_succ`: the date of the next day.
* `before_of_lt`: a later day has a later date.
* `eq_date`: a sequence of dates that goes from the epoch to the next day is this one.
-/

namespace Calendar

structure Date where
  year : Int
  month : Int
  day : Int
deriving DecidableEq

def Leap (y : Int) : Prop := y % 4 = 0 ∧ (y % 100 ≠ 0 ∨ y % 400 = 0)

instance (y : Int) : Decidable (Leap y) := inferInstanceAs (Decidable (_ ∧ _))

def monthDays (y m : Int) : Int :=
  if m = 2 then if Leap y then 29 else 28
  else if m = 4 ∨ m = 6 ∨ m = 9 ∨ m = 11 then 30
  else 31

def epoch : Date := ⟨1970, 1, 1⟩

namespace Date

structure Valid (v : Date) : Prop where
  month_pos : 1 ≤ v.month
  month_le : v.month ≤ 12
  day_pos : 1 ≤ v.day
  day_le : v.day ≤ monthDays v.year v.month

def next (v : Date) : Date :=
  if v.day < monthDays v.year v.month then ⟨v.year, v.month, v.day + 1⟩
  else if v.month < 12 then ⟨v.year, v.month + 1, 1⟩
  else ⟨v.year + 1, 1, 1⟩

def prev (v : Date) : Date :=
  if 1 < v.day then ⟨v.year, v.month, v.day - 1⟩
  else if 1 < v.month then ⟨v.year, v.month - 1, monthDays v.year (v.month - 1)⟩
  else ⟨v.year - 1, 12, 31⟩

/-- The order of year, month and day. -/
def Before (a b : Date) : Prop :=
  a.year < b.year ∨ a.year = b.year ∧ (a.month < b.month ∨ a.month = b.month ∧ a.day < b.day)

end Date

/-- The date `z` days after the epoch. -/
def date : Int → Date
  | .ofNat n => Date.next^[n] epoch
  | .negSucc n => Date.prev^[n + 1] epoch

section
variable {v : Date}

theorem monthDays_pos (y m : Int) : 28 ≤ monthDays y m := by
  rw [monthDays]
  split
  · split <;> omega
  · split <;> omega

theorem monthDays_le (y m : Int) : monthDays y m ≤ 31 := by
  rw [monthDays]
  split
  · split <;> omega
  · split <;> omega

theorem monthDays_december (y : Int) : monthDays y 12 = 31 := rfl

theorem Date.Valid.next (h : v.Valid) : v.next.Valid := by
  obtain ⟨hm, hm', hd, hd'⟩ := h
  rw [Date.next]
  split
  · constructor <;> dsimp only <;> omega
  split
  · have hlen := monthDays_pos v.year (v.month + 1)
    constructor <;> dsimp only <;> omega
  · have hlen := monthDays_pos (v.year + 1) 1
    constructor <;> dsimp only <;> omega

theorem Date.Valid.prev (h : v.Valid) : v.prev.Valid := by
  obtain ⟨hm, hm', hd, hd'⟩ := h
  rw [Date.prev]
  split
  · constructor <;> dsimp only <;> omega
  split
  · have hlen := monthDays_pos v.year (v.month - 1)
    constructor <;> dsimp only <;> omega
  · have hlen := monthDays_december (v.year - 1)
    constructor <;> dsimp only <;> omega

theorem Date.Valid.next_prev (h : v.Valid) : v.prev.next = v := by
  obtain ⟨y, m, d⟩ := v
  obtain ⟨hm, hm', hd, hd'⟩ := h
  dsimp only at hm hm' hd hd'
  rw [Date.prev]
  dsimp only
  split
  · have hlt : d - 1 < monthDays y m := by omega
    rw [Date.next]
    dsimp only
    rw [if_pos hlt, Int.sub_add_cancel]
  split
  · rw [Date.next]
    dsimp only
    rw [if_neg (Int.lt_irrefl _), if_pos (by omega), Int.sub_add_cancel]
    congr 1
    omega
  · rw [Date.next]
    dsimp only
    rw [monthDays_december, if_neg (Int.lt_irrefl 31), if_neg (Int.lt_irrefl 12), Int.sub_add_cancel]
    congr 1 <;> omega

theorem Date.Valid.prev_next (h : v.Valid) : v.next.prev = v := by
  obtain ⟨y, m, d⟩ := v
  obtain ⟨hm, hm', hd, hd'⟩ := h
  dsimp only at hm hm' hd hd'
  rw [Date.next]
  dsimp only
  split
  · rw [Date.prev]
    dsimp only
    rw [if_pos (by omega), Int.add_sub_cancel]
  split
  · rw [Date.prev]
    dsimp only
    rw [if_neg (Int.lt_irrefl 1), if_pos (by omega), Int.add_sub_cancel]
    congr 1
    omega
  · have hdec : m = 12 := by omega
    subst hdec
    rw [Date.prev]
    dsimp only
    rw [if_neg (Int.lt_irrefl 1), if_neg (Int.lt_irrefl 1), Int.add_sub_cancel]
    have hlen := monthDays_december y
    congr 1
    omega

theorem valid_epoch : epoch.Valid := ⟨by decide, by decide, by decide, by decide⟩

theorem valid_date (z : Int) : (date z).Valid := by
  cases z with
  | ofNat n =>
    show (Date.next^[n] epoch).Valid
    induction n with
    | zero => exact valid_epoch
    | succ n ih =>
      rw [Function.iterate_succ_apply']
      exact ih.next
  | negSucc n =>
    show (Date.prev^[n + 1] epoch).Valid
    induction n with
    | zero => exact valid_epoch.prev
    | succ n ih =>
      rw [Function.iterate_succ_apply']
      exact ih.prev

/-- **Step.** -/
theorem date_succ (z : Int) : date (z + 1) = (date z).next := by
  cases z with
  | ofNat n => exact Function.iterate_succ_apply' Date.next n epoch
  | negSucc n =>
    have hz : date (.negSucc n) = (Date.prev^[n] epoch).prev := Function.iterate_succ_apply' Date.prev n epoch
    have hvalid : (Date.prev^[n] epoch).Valid := by
      cases n with
      | zero => exact valid_epoch
      | succ n => exact valid_date (.negSucc n)
    rw [hz, hvalid.next_prev]
    cases n with
    | zero => rfl
    | succ n => rfl

theorem before_next (v : Date) : v.Before v.next := by
  rw [Date.next]
  split
  · exact Or.inr ⟨rfl, Or.inr ⟨rfl, Int.lt_succ _⟩⟩
  split
  · exact Or.inr ⟨rfl, Or.inl (Int.lt_succ _)⟩
  · exact Or.inl (Int.lt_succ _)

theorem before_trans {a b c : Date} (h : a.Before b) (h' : b.Before c) : a.Before c := by
  rw [Date.Before] at h h' ⊢
  omega

/-- **Order.** -/
theorem before_of_lt {z z' : Int} (h : z < z') : (date z).Before (date z') := by
  induction z', h using Int.leInduction with
  | base =>
    rw [date_succ]
    exact before_next _
  | succ z' hz ih =>
    rw [date_succ]
    exact before_trans ih (before_next _)

/-- **Uniqueness.** -/
theorem eq_date {D : Int → Date} (hzero : D 0 = epoch) (hvalid : ∀ z, (D z).Valid)
    (hsucc : ∀ z, D (z + 1) = (D z).next) (z : Int) : D z = date z := by
  induction z using Int.induction_on with
  | zero => exact hzero
  | succ n ih => rw [hsucc, date_succ, ih]
  | pred n ih =>
    have hD := hsucc (-n - 1)
    have hdate := date_succ (-n - 1)
    rw [Int.sub_add_cancel] at hD hdate
    rw [hD, hdate] at ih
    have h := congrArg Date.prev ih
    rwa [(hvalid _).prev_next, (valid_date _).prev_next] at h

end

end Calendar

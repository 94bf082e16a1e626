import Mathlib.Tactic.IntervalCases
import Mathlib.Tactic.Ring

/-!
# The Gregorian calendar

Dates of the proleptic Gregorian calendar and their numbers, counted from 1 January 1970.

The number of a date is the first day of its year (`yearStart`), the days of the months before its
own (`daysBefore`) and the days before it in the month.  The way back looks for the year first: four
hundred years have 146097 days, so that the year is guessed from the number, at most one year off
(`yearOf`), then for the month among twelve.  That the two are inverse (`ofDays_toDays`,
`toDays_ofDays`) and that the numbers are in the order of the dates (`toDays_lt_iff`) comes from one
fact for each unit: a year's days are those from its start to the next one's, a month's those from
its start to the next one's.
-/

namespace Calendar

open Bool

/-- A year with a 29 February. -/
def isLeap (y : Int) : Bool := y % 4 = 0 ∧ (y % 100 ≠ 0 ∨ y % 400 = 0)

/-- The days of the months before a month of a year. -/
def daysBefore (leap : Bool) (m : Nat) : Int :=
  match m with
  | 0 | 1 => 0
  | 2 => 31
  | 3 => 59 + leap.toInt
  | 4 => 90 + leap.toInt
  | 5 => 120 + leap.toInt
  | 6 => 151 + leap.toInt
  | 7 => 181 + leap.toInt
  | 8 => 212 + leap.toInt
  | 9 => 243 + leap.toInt
  | 10 => 273 + leap.toInt
  | 11 => 304 + leap.toInt
  | 12 => 334 + leap.toInt
  | _ => 365 + leap.toInt

/-- The days of a month. -/
def daysIn (y : Int) (m : Nat) : Nat :=
  (daysBefore (isLeap y) (m + 1) - daysBefore (isLeap y) m).toNat

/-- A date that exists. -/
structure Date where
  year : Int
  month : Nat
  day : Nat
  one_le_month : 1 ≤ month
  month_le : month ≤ 12
  one_le_day : 1 ≤ day
  day_le : day ≤ daysIn year month
deriving DecidableEq

/-- The day of 1 January, from 1 January 1970. -/
def yearStart (y : Int) : Int :=
  365 * (y - 1) + (y - 1) / 4 - (y - 1) / 100 + (y - 1) / 400 - 719162

theorem yearStart_succ (y : Int) : yearStart (y + 1) = yearStart y + 365 + (isLeap y).toInt := by
  by_cases h : isLeap y
  · have hy := of_decide_eq_true h
    rw [h]
    simp only [yearStart, toInt_true]
    omega
  have hy := of_decide_eq_false (eq_false_of_not_eq_true h)
  rw [eq_false_of_not_eq_true h]
  simp only [yearStart, toInt_false]
  omega

/-- The year of a day: the guess, or the year beside it. -/
def yearOf (n : Int) : Int :=
  let y := (n + 719162) * 400 / 146097 + 1
  if n < yearStart y then y - 1 else if yearStart (y + 1) ≤ n then y + 1 else y

theorem yearStart_yearOf (n : Int) : yearStart (yearOf n) ≤ n ∧ n < yearStart (yearOf n + 1) := by
  unfold yearOf
  simp only
  split
  · unfold yearStart at *
    omega
  split
  · unfold yearStart at *
    omega
  omega

theorem yearStart_lt {y y' : Int} (h : y < y') : yearStart (y + 1) ≤ yearStart y' := by
  unfold yearStart
  omega

variable {n : Int}

theorem yearOf_eq {y : Int} (hge : yearStart y ≤ n) (hlt : n < yearStart (y + 1)) :
    yearOf n = y := by
  obtain ⟨hge', hlt'⟩ := yearStart_yearOf n
  rcases lt_trichotomy (yearOf n) y with h | h | h
  · have := yearStart_lt h
    omega
  · exact h
  have := yearStart_lt h
  omega

theorem daysBefore_le_succ (leap : Bool) (m : Nat) :
    daysBefore leap m ≤ daysBefore leap (m + 1) := by
  by_cases hm : m ≤ 12
  · cases leap <;> interval_cases m <;> decide
  obtain ⟨k, rfl⟩ := Nat.exists_eq_add_of_lt (Nat.lt_of_not_le hm)
  exact le_of_eq (by rw [show 12 + k + 1 = k + 13 by omega]; rfl)

variable {m : Nat}

theorem daysBefore_mono (leap : Bool) {m' : Nat} (h : m ≤ m') :
    daysBefore leap m ≤ daysBefore leap m' :=
  monotone_nat_of_le_succ (daysBefore_le_succ leap) h

/-- The first month from `m` on that ends after day `n`. -/
def monthFrom (leap : Bool) (n : Int) : Nat → Nat → Nat
  | 0, m => m
  | fuel + 1, m => if n < daysBefore leap (m + 1) then m else monthFrom leap n fuel (m + 1)

def monthOf (leap : Bool) (n : Int) : Nat := monthFrom leap n 11 1

theorem daysBefore_monthFrom {leap : Bool} {fuel : Nat} (hge : daysBefore leap m ≤ n)
    (hlt : n < daysBefore leap (m + fuel + 1)) :
    m ≤ monthFrom leap n fuel m ∧ monthFrom leap n fuel m ≤ m + fuel ∧
      daysBefore leap (monthFrom leap n fuel m) ≤ n ∧
        n < daysBefore leap (monthFrom leap n fuel m + 1) := by
  induction fuel generalizing m with
  | zero => exact ⟨le_rfl, le_rfl, hge, hlt⟩
  | succ fuel ih =>
    rw [monthFrom]
    split
    · next h => exact ⟨le_rfl, by omega, hge, h⟩
    rename_i h
    rw [show m + (fuel + 1) + 1 = m + 1 + fuel + 1 by omega] at hlt
    obtain ⟨hle, hle', hrest⟩ := ih (le_of_not_gt h) hlt
    exact ⟨by omega, by omega, hrest⟩

theorem daysBefore_monthOf {leap : Bool} (hge : 0 ≤ n) (hlt : n < 365 + leap.toInt) :
    1 ≤ monthOf leap n ∧ monthOf leap n ≤ 12 ∧ daysBefore leap (monthOf leap n) ≤ n ∧
      n < daysBefore leap (monthOf leap n + 1) :=
  daysBefore_monthFrom hge hlt

theorem monthOf_eq {leap : Bool} (hm : 1 ≤ m) (hm' : m ≤ 12)
    (hge : daysBefore leap m ≤ n) (hlt : n < daysBefore leap (m + 1)) : monthOf leap n = m := by
  have hzero : 0 ≤ n := le_trans (daysBefore_mono leap (Nat.zero_le m)) hge
  have hyear : n < 365 + leap.toInt :=
    lt_of_lt_of_le hlt (daysBefore_mono leap (show m + 1 ≤ 13 by omega))
  obtain ⟨-, -, hge', hlt'⟩ := daysBefore_monthOf hzero hyear
  rcases lt_trichotomy (monthOf leap n) m with h | h | h
  · have := daysBefore_mono leap (show monthOf leap n + 1 ≤ m from h)
    omega
  · exact h
  have := daysBefore_mono leap (show m + 1 ≤ monthOf leap n from h)
  omega

theorem daysIn_bounds (hm : 1 ≤ m) (hm' : m ≤ 12) (y : Int) : 7 ≤ daysIn y m ∧ daysIn y m ≤ 31 := by
  unfold daysIn
  cases isLeap y <;> interval_cases m <;> decide

/-! ## Dates and their numbers -/

namespace Date

variable (d : Date)

def toDays : Int := yearStart d.year + daysBefore (isLeap d.year) d.month + d.day - 1

theorem day_le_thirtyOne : d.day ≤ 31 :=
  d.day_le.trans (daysIn_bounds d.one_le_month d.month_le d.year).2

theorem bounds : daysBefore (isLeap d.year) d.month ≤ d.toDays - yearStart d.year ∧
    d.toDays - yearStart d.year < daysBefore (isLeap d.year) (d.month + 1) := by
  have hone := d.one_le_day
  have hle := d.day_le
  unfold daysIn at hle
  unfold toDays
  omega

theorem year_bounds : yearStart d.year ≤ d.toDays ∧ d.toDays < yearStart (d.year + 1) := by
  obtain ⟨hge, hlt⟩ := d.bounds
  have hzero := daysBefore_mono (isLeap d.year) (Nat.zero_le d.month)
  have hyear := daysBefore_mono (isLeap d.year) (show d.month + 1 ≤ 13 from
    Nat.succ_le_succ d.month_le)
  rw [yearStart_succ]
  change daysBefore _ _ ≤ 365 + _ at hyear
  change 0 ≤ _ at hzero
  omega

end Date

theorem ofDays_bounds (n : Int) : 0 ≤ n - yearStart (yearOf n) ∧
    n - yearStart (yearOf n) < 365 + (isLeap (yearOf n)).toInt := by
  obtain ⟨hge, hlt⟩ := yearStart_yearOf n
  rw [yearStart_succ] at hlt
  omega

def monthOfDay (n : Int) : Nat := monthOf (isLeap (yearOf n)) (n - yearStart (yearOf n))

theorem daysBefore_monthOfDay (n : Int) : 1 ≤ monthOfDay n ∧ monthOfDay n ≤ 12 ∧
    daysBefore (isLeap (yearOf n)) (monthOfDay n) ≤ n - yearStart (yearOf n) ∧
      n - yearStart (yearOf n) < daysBefore (isLeap (yearOf n)) (monthOfDay n + 1) :=
  daysBefore_monthOf (ofDays_bounds n).1 (ofDays_bounds n).2

def ofDays (n : Int) : Date where
  year := yearOf n
  month := monthOfDay n
  day := (n - yearStart (yearOf n) - daysBefore (isLeap (yearOf n)) (monthOfDay n) + 1).toNat
  one_le_month := (daysBefore_monthOfDay n).1
  month_le := (daysBefore_monthOfDay n).2.1
  one_le_day := by
    have := (daysBefore_monthOfDay n).2.2.1
    omega
  day_le := by
    have := (daysBefore_monthOfDay n).2.2
    unfold daysIn
    omega

theorem toDays_ofDays (n : Int) : (ofDays n).toDays = n := by
  have h := (daysBefore_monthOfDay n).2.2.1
  simp only [Date.toDays, ofDays]
  omega

theorem ofDays_toDays (d : Date) : ofDays d.toDays = d := by
  obtain ⟨hge, hlt⟩ := d.bounds
  have hyear : yearOf d.toDays = d.year := yearOf_eq d.year_bounds.1 d.year_bounds.2
  have hmonth : monthOf (isLeap d.year) (d.toDays - yearStart d.year) = d.month :=
    monthOf_eq d.one_le_month d.month_le hge hlt
  have hday : (d.toDays - yearStart d.year - daysBefore (isLeap d.year) d.month + 1).toNat =
      d.day := by
    unfold Date.toDays
    omega
  simp only [ofDays, monthOfDay, hyear, hmonth, hday]

theorem toDays_injective : Function.Injective Date.toDays :=
  Function.LeftInverse.injective ofDays_toDays

theorem toDays_lt_iff (d e : Date) : d.toDays < e.toDays ↔ d.year < e.year ∨ d.year = e.year ∧
      (d.month < e.month ∨ d.month = e.month ∧ d.day < e.day) := by
  have hof : ∀ {d e : Date}, (d.year < e.year ∨ d.year = e.year ∧
      (d.month < e.month ∨ d.month = e.month ∧ d.day < e.day)) → d.toDays < e.toDays := by
    intro d e h
    rcases h with h | ⟨hy, h | ⟨hm, h⟩⟩
    · have := yearStart_lt h
      have := d.year_bounds.2
      have := e.year_bounds.1
      omega
    · have hlt := d.bounds.2
      have hge := e.bounds.1
      rw [← hy] at hge
      have := daysBefore_mono (isLeap d.year) (show d.month + 1 ≤ e.month from h)
      omega
    unfold Date.toDays
    rw [hy, hm]
    omega
  refine ⟨fun h => ?_, hof⟩
  by_contra hnot
  have hlex : (e.year < d.year ∨ e.year = d.year ∧
      (e.month < d.month ∨ e.month = d.month ∧ e.day < d.day)) ∨
      d.year = e.year ∧ d.month = e.month ∧ d.day = e.day := by omega
  rcases hlex with hlt | ⟨hy, hm, hd⟩
  · exact lt_asymm h (hof hlt)
  unfold Date.toDays at h
  rw [hy, hm, hd] at h
  exact lt_irrefl _ h

/-! ## The same day in another year -/

end Calendar

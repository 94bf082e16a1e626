import BeSdk.Library.Bisection
import BeSdk.Library.Calendar
import BeSdk.Library.Gather
import Mathlib.Data.Int.LeastGreatest
import Mathlib.Data.List.Range

/-!
# Wall clocks

A time zone and what its clocks show, as `work/cron.go` uses them: an instant is a number of
seconds, a zone an offset for each instant, in whole quarter hours and at most fifteen hours from
UTC.  Clocks are read to the minute (`Zone.wallOf`).  Nothing is assumed of when the offset changes
or how often, so that a clock may be set forward over a time several times, and set back between.

`Zone.wallInstant` is the instant at which a wall time is run.  It asks first whether one of the
possible offsets gives an instant that shows the time at second zero, and otherwise halves the
thirty hours around the time as if it were UTC.  Wall times are in the order of the minutes they
stand for (`less_wallAt`), so that both parts are about one number, `t + offset t`.

What is meant is the first instant that shows the time, or the first one past it where none does
(`Zone.RunsAt`).  The scan finds the first instant with second zero (`scan_eq_some`); the
halving finds an instant right after a jump over the time, which is the first one only where the
clock tells each instant on the way on which side of that one it lies (`wallInstant_runsAt_iff`).
-/

namespace BeSdk.Work

open Option Calendar

/-- A time zone: the offset of each instant, in seconds. -/
structure Zone where
  offset : Int → Int
  -- Zone offsets are whole quarter hours.
  quarter : ∀ t, offset t % 900 = 0
  neg_le : ∀ t, -54000 ≤ offset t
  le : ∀ t, offset t ≤ 54000

structure Wall where
  year : Int
  month : Nat
  day : Nat
  hour : Int
  minute : Int
deriving DecidableEq, Repr

def Wall.fields (w : Wall) : List Int := [w.year, w.month, w.day, w.hour, w.minute]

/-- The first place where the numbers differ decides. -/
def lessFields : List Int → List Int → Bool
  | a :: as, b :: bs => if a ≠ b then a < b else lessFields as bs
  | _, _ => false

def Wall.less (w o : Wall) : Bool := lessFields w.fields o.fields

/-- The wall time of a number of seconds since 1 January 1970, as a clock counts them. -/
def wallAt (l : Int) : Wall where
  year := (ofDays (l / 86400)).year
  month := (ofDays (l / 86400)).month
  day := (ofDays (l / 86400)).day
  hour := l % 86400 / 3600
  minute := l % 3600 / 60

/-- What the clock of a zone counts at an instant. -/
def Zone.clock (z : Zone) (t : Int) : Int := t + z.offset t

def Zone.wallOf (z : Zone) (t : Int) : Wall := wallAt (z.clock t)

def wallAsked (d : Date) (h mi : Int) : Wall := ⟨d.year, d.month, d.day, h, mi⟩

def naive (d : Date) (h mi : Int) : Int := d.toDays * 86400 + h * 3600 + mi * 60

def span : Int := 54000

def offsets : List Int := (List.range 121).map fun i : Nat => -span + 900 * (i : Int)

/-- The first instant that an offset gives and that shows the time. -/
def Zone.scan (z : Zone) (want : Wall) (start : Int) : Option Int :=
  offsets.foldl (fun first off =>
    let t := start - off
    if z.wallOf t = want ∧ t % 60 = 0 ∧ first.all (t < ·) then some t else first) none

/-- wallInstant is the run instant of a local wall time: its first occurrence, or in a gap the first
instant after the jump. -/
def Zone.wallInstant (z : Zone) (d : Date) (h mi : Int) : Int :=
  let want := wallAsked d h mi
  let start := naive d h mi
  (z.scan want start).getD
    (Bisection.search (fun t => (z.wallOf t).less want) (start - span) (start + span))

/-! ## Wall times and minutes -/

theorem lessFields_cons (a b : Int) (as bs : List Int) :
    lessFields (a :: as) (b :: bs) = true ↔ a < b ∨ a = b ∧ lessFields as bs = true := by
  by_cases h : a = b
  · simp [lessFields.eq_1, h]
  simp [lessFields.eq_1, h]

theorem lessFields_nil : lessFields [] [] = true ↔ False := by decide

theorem less_wallAt (l l' : Int) : (wallAt l).less (wallAt l') = true ↔ l / 60 < l' / 60 := by
  have hlt := toDays_lt_iff (ofDays (l / 86400)) (ofDays (l' / 86400))
  have hgt := toDays_lt_iff (ofDays (l' / 86400)) (ofDays (l / 86400))
  rw [toDays_ofDays, toDays_ofDays] at hlt hgt
  simp only [Wall.less, Wall.fields, lessFields_cons, lessFields_nil, wallAt, Nat.cast_lt,
    Nat.cast_inj]
  rcases lt_trichotomy (l / 86400) (l' / 86400) with h | h | h
  · have hless := hlt.1 h
    have hminute : l / 60 < l' / 60 := by omega
    clear hlt hgt
    simp only [hminute, iff_true]
    tauto
  · simp only [h, lt_irrefl, false_or, true_and, and_false, or_false]
    omega
  have hless := hgt.1 h
  have hminute : ¬ l / 60 < l' / 60 := by omega
  clear hlt hgt
  simp only [hminute, iff_false]
  omega

theorem wallAt_eq_iff (l l' : Int) : wallAt l = wallAt l' ↔ l / 60 = l' / 60 := by
  constructor
  · intro h
    have hlt := less_wallAt l l'
    have hgt := less_wallAt l' l
    have hsame : ¬ (wallAt l').less (wallAt l') = true := by simp [less_wallAt]
    rw [h, iff_false_left hsame] at hlt hgt
    omega
  intro h
  have hday : l / 86400 = l' / 86400 := by omega
  have hhour : l % 86400 / 3600 = l' % 86400 / 3600 := by omega
  have hminute : l % 3600 / 60 = l' % 3600 / 60 := by omega
  simp only [wallAt, hday, hhour, hminute]

structure ValidTime (h mi : Int) : Prop where
  hour : 0 ≤ h ∧ h < 24
  minute : 0 ≤ mi ∧ mi < 60

section Shown
variable {z : Zone} {d : Date} {h mi : Int}

theorem naive_mod (d : Date) (h mi : Int) : naive d h mi % 60 = 0 := by
  unfold naive
  omega

section
variable (hv : ValidTime h mi)
include hv

theorem wallAsked_eq : wallAsked d h mi = wallAt (naive d h mi) := by
  obtain ⟨hhour, hminute⟩ := hv
  have hday : naive d h mi / 86400 = d.toDays := by
    unfold naive
    omega
  have hhour' : naive d h mi % 86400 / 3600 = h := by
    unfold naive
    omega
  have hminute' : naive d h mi % 3600 / 60 = mi := by
    unfold naive
    omega
  simp only [wallAsked, wallAt, hday, ofDays_toDays, hhour', hminute']

theorem less_asked_iff (t : Int) :
    (z.wallOf t).less (wallAsked d h mi) = true ↔ z.clock t < naive d h mi := by
  rw [wallAsked_eq hv, Zone.wallOf, less_wallAt]
  have := naive_mod d h mi
  omega

theorem shows_iff (t : Int) : z.wallOf t = wallAsked d h mi ↔
    naive d h mi ≤ z.clock t ∧ z.clock t < naive d h mi + 60 := by
  rw [wallAsked_eq hv, Zone.wallOf, wallAt_eq_iff]
  have := naive_mod d h mi
  omega

end

/-! ## The scan -/

theorem mem_offsets (off : Int) : off ∈ offsets ↔ off % 900 = 0 ∧ -54000 ≤ off ∧ off ≤ 54000 := by
  simp only [offsets, span, List.mem_map, List.mem_range]
  constructor
  · rintro ⟨i, hi, rfl⟩
    omega
  intro h
  exact ⟨((off + 54000) / 900).toNat, by omega, by omega⟩

theorem scan_best (want : Wall) (start : Int) : Gather.IsBest (· < ·) (fun t => ∃ off ∈ offsets,
      (z.wallOf (start - off) = want ∧ (start - off) % 60 = 0) ∧ start - off = t)
      (z.scan want start) := by
  have hfold := Gather.foldl_best (fun a b : Int => a < b) (fun a => lt_irrefl a)
    (fun a b c hab hbc => hab.trans hbc)
    (fun off : Int => z.wallOf (start - off) = want ∧ (start - off) % 60 = 0)
    (fun off => start - off) offsets
  simpa only [Zone.scan, and_assoc] using hfold

/-- An instant is found by the scan when the clock shows the time there, at second zero. -/
theorem scanned_iff (hv : ValidTime h mi) (t : Int) : (∃ off ∈ offsets,
      (z.wallOf (naive d h mi - off) = wallAsked d h mi ∧ (naive d h mi - off) % 60 = 0) ∧
        naive d h mi - off = t) ↔ z.clock t = naive d h mi := by
  have hquarter := z.quarter t
  have hminute := naive_mod d h mi
  constructor
  · rintro ⟨off, hoff, ⟨hshows, -⟩, rfl⟩
    rw [mem_offsets] at hoff
    rw [shows_iff hv] at hshows
    -- the two offsets differ by whole quarters, and the clock by less than a minute
    unfold Zone.clock at *
    omega
  intro ht
  refine ⟨z.offset t, (mem_offsets _).2 ⟨hquarter, z.neg_le t, z.le t⟩, ?_⟩
  have hback : naive d h mi - z.offset t = t := by
    unfold Zone.clock at ht
    omega
  rw [hback, shows_iff hv]
  unfold Zone.clock at *
  omega

variable {t : Int}

theorem scan_eq_some (hv : ValidTime h mi) (h' : z.scan (wallAsked d h mi) (naive d h mi) = some t)
    : z.clock t = naive d h mi ∧ ∀ t', z.clock t' = naive d h mi → t ≤ t' := by
  have hbest := scan_best (z := z) (wallAsked d h mi) (naive d h mi)
  simp only [scanned_iff hv, h'] at hbest
  exact ⟨hbest.1, fun t' ht' => not_lt.1 (hbest.2 t' ht')⟩

theorem scan_eq_none (hv : ValidTime h mi) (h' : z.scan (wallAsked d h mi) (naive d h mi) = none)
    (t : Int) : z.clock t ≠ naive d h mi := by
  have hbest := scan_best (z := z) (wallAsked d h mi) (naive d h mi)
  simp only [scanned_iff hv, h'] at hbest
  exact hbest t

/-- The first instant that shows the time or, where none does, the first one past it. -/
def Zone.RunsAt (z : Zone) (w : Wall) (t : Int) : Prop :=
  (z.wallOf t = w ∧ ∀ t' < t, z.wallOf t' ≠ w) ∨
  ((∀ t', z.wallOf t' ≠ w) ∧ (z.wallOf t).less w = false ∧ ∀ t' < t, (z.wallOf t').less w = true)

theorem Zone.RunsAt.unique {w : Wall} {t' : Int} (ht : z.RunsAt w t) (ht' : z.RunsAt w t') :
    t = t' := by
  rcases ht with ⟨hshows, hfirst⟩ | ⟨hgap, hpast, hfirst⟩ <;>
    rcases ht' with ⟨hshows', hfirst'⟩ | ⟨hgap', hpast', hfirst'⟩
  · rcases lt_trichotomy t t' with hlt | heq | hlt
    · exact absurd hshows (hfirst' t hlt)
    · exact heq
    exact absurd hshows' (hfirst t' hlt)
  · exact absurd hshows (hgap' t)
  · exact absurd hshows' (hgap t')
  rcases lt_trichotomy t t' with hlt | heq | hlt
  · rw [hfirst' t hlt] at hpast
    cases hpast
  · exact heq
  rw [hfirst t' hlt] at hpast'
  cases hpast'

theorem Zone.RunsAt.naive_le (hv : ValidTime h mi)
    (ht : z.RunsAt (wallAsked d h mi) t) : naive d h mi ≤ z.clock t := by
  rcases ht with ⟨hshows, -⟩ | ⟨-, hpast, -⟩
  · exact ((shows_iff hv t).1 hshows).1
  by_contra hlt
  rw [(less_asked_iff hv t).2 (not_le.1 hlt)] at hpast
  cases hpast

theorem Zone.exists_runsAt (z : Zone) (d : Date) (hv : ValidTime h mi) :
    ∃ t, z.RunsAt (wallAsked d h mi) t := by
  by_cases hshown : ∃ t, z.wallOf t = wallAsked d h mi
  · obtain ⟨t, hshows, hfirst⟩ : ∃ t, z.wallOf t = wallAsked d h mi ∧
        ∀ t', z.wallOf t' = wallAsked d h mi → t ≤ t' := by
      refine Int.exists_least_of_bdd ⟨naive d h mi - 54000, fun t ht => ?_⟩ hshown
      have hclock := ((shows_iff hv t).1 ht).1
      have := z.le t
      unfold Zone.clock at hclock
      omega
    exact ⟨t, .inl ⟨hshows, fun t' hlt ht' => absurd (hfirst t' ht') (not_le.2 hlt)⟩⟩
  obtain ⟨t, hpast, hfirst⟩ : ∃ t, naive d h mi ≤ z.clock t ∧
      ∀ t', naive d h mi ≤ z.clock t' → t ≤ t' := by
    refine Int.exists_least_of_bdd ⟨naive d h mi - 54000, fun t ht => ?_⟩ ⟨naive d h mi + 54000, ?_⟩
    · have := z.le t
      unfold Zone.clock at ht
      omega
    have := z.neg_le (naive d h mi + 54000)
    unfold Zone.clock
    omega
  refine ⟨t, .inr ⟨fun t' ht' => hshown ⟨t', ht'⟩, ?_, fun t' hlt => ?_⟩⟩
  · rw [Bool.eq_false_iff, Ne, less_asked_iff hv]
    exact not_lt.2 hpast
  rw [less_asked_iff hv]
  by_contra hge
  exact absurd (hfirst t' (not_lt.1 hge)) (not_le.2 hlt)

/-- The clock tells where the time is.  If it shows the time at second zero, it does not show it
before that at another second; if it does not, each instant in the middle on the way to the one that
is meant is past the time exactly when it is not before that instant. -/
def Zone.Tells (z : Zone) (d : Date) (h mi : Int) : Prop :=
  (∀ t₀, z.clock t₀ = naive d h mi → ∀ t, z.wallOf t = wallAsked d h mi →
    ∃ t' ≤ t, z.clock t' = naive d h mi) ∧
  ((∀ t, z.clock t ≠ naive d h mi) → ∀ t, z.RunsAt (wallAsked d h mi) t →
    t ≤ naive d h mi + span ∧
    ∀ m ∈ Bisection.probes t (naive d h mi - span) (naive d h mi + span),
      ((z.wallOf m).less (wallAsked d h mi) = true ↔ m < t))

theorem wallInstant_of_some
    (h' : z.scan (wallAsked d h mi) (naive d h mi) = some t) : z.wallInstant d h mi = t := by
  simp only [Zone.wallInstant, h', getD_some]

theorem wallInstant_of_none (h' : z.scan (wallAsked d h mi) (naive d h mi) = none) :
    z.wallInstant d h mi = Bisection.search (fun t => (z.wallOf t).less (wallAsked d h mi))
      (naive d h mi - span) (naive d h mi + span) := by
  simp only [Zone.wallInstant, h', getD_none]

theorem window_lt (d : Date) (h mi : Int) : naive d h mi - span < naive d h mi + span := by
  unfold span
  omega

/-- The halving ends right after a jump over the time. -/
theorem wallInstant_crosses (hv : ValidTime h mi)
    (hnone : z.scan (wallAsked d h mi) (naive d h mi) = none) :
    z.clock (z.wallInstant d h mi - 1) < naive d h mi ∧
      naive d h mi ≤ z.clock (z.wallInstant d h mi) := by
  have hcross := Bisection.search_crosses (p := fun t => (z.wallOf t).less (wallAsked d h mi))
    (window_lt d h mi) ?_ ?_
  · rw [← wallInstant_of_none hnone, Bool.eq_false_iff, Ne, less_asked_iff hv, less_asked_iff hv,
      not_lt] at hcross
    exact hcross
  · -- fifteen hours before, the clock is not past the time, and does not show it
    have hne := scan_eq_none hv hnone (naive d h mi - span)
    have hle := z.le (naive d h mi - span)
    rw [less_asked_iff hv]
    unfold Zone.clock span at *
    omega
  have hge := z.neg_le (naive d h mi + span)
  rw [Bool.eq_false_iff, Ne, less_asked_iff hv]
  unfold Zone.clock span at *
  omega

/-- The clock has reached the time at its instant, and shows it there or did not reach it before. -/
theorem clock_wallInstant (hv : ValidTime h mi) : naive d h mi ≤ z.clock (z.wallInstant d h mi) ∧
    (z.clock (z.wallInstant d h mi) = naive d h mi ∨
      z.clock (z.wallInstant d h mi - 1) < naive d h mi) := by
  cases hscan : z.scan (wallAsked d h mi) (naive d h mi) with
  | some t =>
    have hclock := (scan_eq_some hv hscan).1
    rw [wallInstant_of_some hscan]
    exact ⟨hclock.ge, .inl hclock⟩
  | none =>
    obtain ⟨hbefore, hafter⟩ := wallInstant_crosses hv hscan
    exact ⟨hafter, .inr hbefore⟩

end Shown

/-- A wall time is run at the first instant that shows it or, in a gap, at the first instant past
it, exactly when the clock tells where the time is. -/
theorem wallInstant_runsAt_iff (z : Zone) (d : Date) (h : Fin 24) (mi : Fin 60) :
    z.RunsAt (wallAsked d h mi) (z.wallInstant d h mi) ↔ z.Tells d h mi := by
  have hv : ValidTime h mi := ⟨by omega, by omega⟩
  cases hscan : z.scan (wallAsked d h mi) (naive d h mi) with
  | some t =>
    obtain ⟨hclock, hfirst⟩ := scan_eq_some hv hscan
    have hshows : z.wallOf t = wallAsked d h mi := (shows_iff hv t).2 (by omega)
    rw [wallInstant_of_some hscan]
    constructor
    · rintro (⟨-, hfirst'⟩ | ⟨hgap, -⟩)
      · refine ⟨fun _ _ t' ht' => ⟨t, ?_, hclock⟩, fun hne => absurd hclock (hne t)⟩
        exact not_lt.1 fun hlt => hfirst' t' hlt ht'
      exact absurd hshows (hgap t)
    rintro ⟨hzero, -⟩
    refine .inl ⟨hshows, fun t' hlt ht' => ?_⟩
    obtain ⟨t'', hle, hclock''⟩ := hzero t hclock t' ht'
    have := hfirst t'' hclock''
    omega
  | none =>
    have hne := scan_eq_none hv hscan
    obtain ⟨hlo, hhi⟩ := Bisection.search_mem
      (p := fun t => (z.wallOf t).less (wallAsked d h mi)) (window_lt d h mi)
    rw [← wallInstant_of_none hscan] at hlo hhi
    constructor
    · intro hruns
      refine ⟨fun t₀ ht₀ => absurd ht₀ (hne t₀), fun _ t ht => ?_⟩
      cases hruns.unique ht
      exact ⟨hhi, (Bisection.search_eq_iff hlo hhi).1 (wallInstant_of_none hscan).symm⟩
    rintro ⟨-, htells⟩
    obtain ⟨t, ht⟩ := z.exists_runsAt d hv
    obtain ⟨hle, hprobes⟩ := htells hne t ht
    have hlt : naive d h mi - span < t := by
      have hpast := ht.naive_le hv
      have hne' := hne t
      have := z.le t
      unfold Zone.clock span at *
      omega
    rw [wallInstant_of_none hscan, (Bisection.search_eq_iff hlt hle).2 hprobes]
    exact ht

/-- A zone whose clock is an hour ahead between two pairs of instants, and from the last one on. -/
def setForward (ahead : Int) (hahead : ahead % 900 = 0 ∧ 0 ≤ ahead ∧ ahead ≤ 54000)
    (from₁ to₁ from₂ : Int) : Zone where
  offset t := if from₁ ≤ t ∧ t < to₁ ∨ from₂ ≤ t then ahead else 0
  quarter t := by split <;> omega
  neg_le t := by split <;> omega
  le t := by split <;> omega

def firstDay : Date := ofDays 0

/-- Two times half past two is not run when it is meant to be.  A clock that is set an hour ahead at
01:50, back at 03:00 and ahead again at 02:20 jumps over it twice, and it is run after the second
jump.  A clock that is a quarter of an hour ahead from 02:15:30 to 02:35 shows it from second thirty
on, and again in full later: the later time is taken. -/
theorem set_back_not_first :
    ((setForward 3600 (by decide) 6600 7200 8400).wallInstant firstDay 2 30 = 8400 ∧
      ¬ (setForward 3600 (by decide) 6600 7200 8400).RunsAt (wallAsked firstDay 2 30) 8400) ∧
    ((setForward 900 (by decide) 8130 8400 90000).wallInstant firstDay 2 30 = 9000 ∧
      ¬ (setForward 900 (by decide) 8130 8400 90000).RunsAt (wallAsked firstDay 2 30) 9000) := by
  refine ⟨⟨by decide +kernel, ?_⟩, ⟨by decide +kernel, ?_⟩⟩
  · rintro (⟨hshows, -⟩ | ⟨-, -, hfirst⟩)
    · exact absurd hshows (by decide)
    exact absurd (hfirst 6600 (by decide)) (by decide)
  rintro (⟨-, hfirst⟩ | ⟨hgap, -⟩)
  · exact absurd (by decide) (hfirst 8130 (by decide))
  exact absurd (by decide) (hgap 9000)

end BeSdk.Work

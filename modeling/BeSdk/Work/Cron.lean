import BeSdk.Library.Calendar
import BeSdk.Library.Texts
import Mathlib.Data.List.Dedup
import Mathlib.Data.List.Iterate
import Mathlib.Data.List.Sort

/-!
# Cron expressions

`ParseCron` of `work/cron.go`: five fields, each a list of parts with values, ranges and steps.  The
sets of a `Schedule` are lists of what was put into them; `keys` has each value once, in order.

A step is any positive number of 64 bits, and the loop over the values of a part adds it without
looking at an overflow: from `59/9223372036854775807` the loop goes on below zero.  Such values are
kept as they come out (`partValues`), and `Schedule.Plain` says that a schedule has none of them
among its minutes and hours.  What is used of an accepted expression is `Schedule.Parsed`: there are
minutes and hours, and a day field that is not restricted has all days.
-/

namespace BeSdk.Work

open List

/-- Schedule is a parsed 5-field cron expression. -/
structure Schedule where
  minutes : List Int
  hours : List Int
  doms : List Int
  months : List Int
  dows : List Int
  domRestricted : Bool
  dowRestricted : Bool
deriving DecidableEq, Repr

inductive FieldError
  | step (part : List Char)
  | range (part : List Char)
  | value (part : List Char)
  | outside (part : List Char) (lo hi : Int)
deriving DecidableEq, Repr

inductive CronError
  | fiveFields (expr : String)
  | field (expr : String) (error : FieldError)
deriving DecidableEq, Repr

/-- The white space at which `strings.Fields` splits. -/
def isSpace (c : Char) : Bool :=
  let n := c.toNat
  (9 ≤ n ∧ n ≤ 13) ∨ n = 0x20 ∨ n = 0x85 ∨ n = 0xA0 ∨ n = 0x1680 ∨ (0x2000 ≤ n ∧ n ≤ 0x200a) ∨
    n = 0x2028 ∨ n = 0x2029 ∨ n = 0x202f ∨ n = 0x205f ∨ n = 0x3000

def fieldsOf (expr : String) : List (List Char) := (expr.toList.splitOnP isSpace).filter (· ≠ [])

/-- `strconv.Atoi`: a decimal number of 64 bits. -/
def atoi (text : List Char) : Option Int :=
  (Texts.readInt (String.ofList text)).filter fun n => -2 ^ 63 ≤ n ∧ n < 2 ^ 63

/-- The turns that the loop over a part's values is given, more than a field's bounds allow. -/
def valueTurns : Nat := 128

/-- `v += step` in 64 bits. -/
def nextValue (step v : Int) : Int := Int.bmod (v + step) (2 ^ 64)

/-- The values of a part: from `a` on in steps, as long as they are not above `b`. -/
def partValues (a b step : Int) : List Int :=
  (List.iterate (nextValue step) a valueTurns).takeWhile (· ≤ b)

def cutStep (part : List Char) : Except FieldError (Int × List Char) :=
  match part.dropWhile (· ≠ '/') with
  | [] => .ok (1, part)
  | _ :: text =>
    match atoi text with
    | some n => if n < 1 then .error (.step part) else .ok (n, part.takeWhile (· ≠ '/'))
    | none => .error (.step part)

def partBounds (part : List Char) (step lo hi : Int) : Except FieldError (Int × Int) :=
  if part = ['*'] then .ok (lo, hi)
  else if '-' ∈ part then
    match atoi (part.takeWhile (· ≠ '-')), atoi ((part.dropWhile (· ≠ '-')).drop 1) with
    | some a, some b => .ok (a, b)
    | _, _ => .error (.range part)
  else
    match atoi part with
    | some n => .ok (n, if step ≠ 1 then hi else n)
    | none => .error (.value part)

def parsePart (lo hi : Int) (part : List Char) : Except FieldError (List Int) := do
  let (step, part) ← cutStep part
  let (a, b) ← partBounds part step lo hi
  if a < lo ∨ hi < b ∨ b < a then throw (.outside part lo hi)
  return partValues a b step

def field (spec : List Char) (lo hi : Int) : Except FieldError (List Int) :=
  return (← (spec.splitOn ',').mapM (parsePart lo hi)).flatten

/-- ParseCron parses minute, hour, day of month, month and day of week; 0 and 7 are both Sunday. -/
def parseCron (expr : String) : Except CronError Schedule :=
  match fieldsOf expr with
  | [f₀, f₁, f₂, f₃, f₄] =>
    Except.mapError (CronError.field expr) do
      let minutes ← field f₀ 0 59
      let hours ← field f₁ 0 23
      let doms ← field f₂ 1 31
      let months ← field f₃ 1 12
      let dows ← field f₄ 0 7
      return { minutes, hours, doms, months,
               dows := dows.map (·.tmod 7)
               domRestricted := f₂ ≠ ['*'], dowRestricted := f₄ ≠ ['*'] }
  | _ => .error (.fiveFields expr)

example : parseCron "0,30 9-17/4 1 * 7" = .ok
    { minutes := [0, 30], hours := [9, 13, 17], doms := [1],
      months := [1, 2, 3, 4, 5, 6, 7, 8, 9, 10, 11, 12], dows := [0], domRestricted := true,
      dowRestricted := true } := by decide +kernel

def keys (m : List Int) : List Int := m.dedup.insertionSort (· ≤ ·)

/-- The day of the week of a date, from Sunday on. -/
def weekday (d : Calendar.Date) : Int := (d.toDays + 4) % 7

def Schedule.dayOK (s : Schedule) (d : Calendar.Date) : Bool :=
  (d.month : Int) ∈ s.months ∧
    if s.domRestricted ∧ s.dowRestricted then (d.day : Int) ∈ s.doms ∨ weekday d ∈ s.dows
    else (d.day : Int) ∈ s.doms ∧ weekday d ∈ s.dows

/-- The minutes and hours are ones that a clock shows. -/
structure Schedule.Plain (s : Schedule) : Prop where
  minutes : ∀ m ∈ s.minutes, 0 ≤ m ∧ m < 60
  hours : ∀ h ∈ s.hours, 0 ≤ h ∧ h < 24

/-! ## Accepted expressions -/

end BeSdk.Work

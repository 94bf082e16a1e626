import BeSdk.Library.Texts
import Mathlib.Algebra.Order.Ring.Int

/-!
# Durations in texts

The durations of `parseOne` in `config/config.go`, and the time limit that `serve` of
`httpx/engine.go` takes from a request's header.  Both multiply a number of 64 bits by a unit of
nanoseconds, in 64 bits, so that what they use is the written duration exactly when that has 63
bits.
-/

namespace BeSdk.Config

open Texts Option

/-- A number as 64 bits keep it. -/
def wrap (n : Int) : Int := n.bmod (2 ^ 64)

/-- `strconv.ParseInt(s, 10, 64)`, `none` being its error. -/
def parseInt64 (s : String) : Option Int :=
  (readInt s).filter fun n => -2 ^ 63 ≤ n ∧ n < 2 ^ 63

def durUnit : List Char → Option Int
  | ['m', 's'] => some 1000000
  | ['s'] => some 1000000000
  | ['m'] => some 60000000000
  | ['h'] => some 3600000000000
  | _ => none

/-- `durRe`, `^(0|[1-9][0-9]*)(ms|s|m|h)$`: the digits and the unit. -/
def durRe (raw : String) : Option (String × Int) :=
  let digits := raw.toList.takeWhile Char.isDigit
  if digits = ['0'] ∨ digits ≠ [] ∧ digits.head? ≠ some '0' then
    (durUnit (raw.toList.dropWhile Char.isDigit)).map (String.ofList digits, ·)
  else none

/-- parseOne for a key of type Duration, in nanoseconds; its other types give no duration. -/
def parseOne (raw : String) : Except String Int :=
  match durRe raw with
  | none => .error "invalid"
  | some (digits, unit) =>
    match parseInt64 digits with
    | none => .error "invalid"
    | some n => .ok (wrap (n * unit))

/-- `Route`, as far as its deadline goes. -/
structure Route where
  orchestration : Bool := false
  timeout : Int := 0
  timeout_lt : timeout < 2 ^ 63 := by decide

def Route.deadline (r : Route) : Int :=
  if 0 < r.timeout then r.timeout else if r.orchestration then 15000000000 else 10000000000

/-- The limit of a request; `none` when its header is refused. -/
def Route.limit (r : Route) (header : String) : Option Int :=
  if header = "" then some r.deadline
  else ((parseInt64 header).filter (0 < ·)).map fun ms => min r.deadline (wrap (ms * 1000000))

theorem wrap_eq_iff {n : Int} (h : 0 ≤ n) : wrap n = n ↔ n < 2 ^ 63 := by
  rw [wrap]
  constructor
  · intro heq
    have := Int.bmod_lt (x := n) (m := 2 ^ 64) (by decide)
    omega
  intro hlt
  exact Int.bmod_eq_of_le (by omega) (by omega)

/-- The text is the number's digits and the unit. -/
def Writes (raw : String) (n : Nat) (unit : Int) : Prop :=
  ∃ digits text, raw.toList = digits ++ text ∧ readNat digits = some n ∧ durUnit text = some unit

theorem durUnit_nonneg {text : List Char} {unit : Int} (h : durUnit text = some unit) :
    0 ≤ unit := by
  unfold durUnit at h
  split at h <;> cases h <;> decide

theorem writes_of_durRe {raw digits : String} {n unit : Int} (h : durRe raw = some (digits, unit))
    (hn : parseInt64 digits = some n) : ∃ m : Nat, n = m ∧ 0 ≤ unit ∧ Writes raw m unit := by
  obtain ⟨-, h⟩ := ite_none_right_eq_some.1 h
  obtain ⟨u, hunit, ⟨⟩⟩ := map_eq_some_iff.1 h
  have hread := (filter_eq_some_iff.1 hn).1
  have hdigits := List.all_eq_true.1 (List.all_takeWhile (p := Char.isDigit) (l := raw.toList))
  rw [readInt_digits (String.toList_ofList.symm ▸ hdigits), String.toList_ofList,
    map_eq_some_iff] at hread
  obtain ⟨m, hm, rfl⟩ := hread
  exact ⟨m, rfl, durUnit_nonneg hunit, _, _, List.takeWhile_append_dropWhile.symm, hm, hunit⟩

theorem Route.deadline_lt (r : Route) : r.deadline < 2 ^ 63 := by
  have := r.timeout_lt
  rw [deadline]
  split_ifs <;> omega

/-- What a duration key gets from a text that is accepted is the written duration exactly when that
has 63 bits; the same for a header, unless the route's deadline is no longer than what 64 bits keep
of it. -/
theorem durations_exact_iff (r : Route) (raw header : String) :
    (∀ d, parseOne raw = .ok d → ∃ n unit, Writes raw n unit ∧
      (d = n * unit ↔ n * unit < 2 ^ 63)) ∧
    ∀ limit, header ≠ "" → r.limit header = some limit →
      ∃ ms, readInt header = some ms ∧ 0 < ms ∧ (limit = min r.deadline (ms * 1000000) ↔
        ms * 1000000 < 2 ^ 63 ∨
          r.deadline + 2 ^ 63 ≤ (ms * 1000000 + 2 ^ 63) % 2 ^ 64) := by
  constructor
  · intro d h
    unfold parseOne at h
    split at h
    · cases h
    next digits unit hre =>
    split at h <;> cases h
    rename_i n hn
    obtain ⟨m, rfl, hunit, hwrites⟩ := writes_of_durRe hre hn
    exact ⟨m, unit, hwrites, wrap_eq_iff (Int.mul_nonneg (by omega) hunit)⟩
  intro limit hheader h
  rw [Route.limit, if_neg hheader, map_eq_some_iff] at h
  obtain ⟨ms, hms, rfl⟩ := h
  obtain ⟨hms, hpos⟩ := filter_eq_some_iff.1 hms
  have hpos : 0 < ms := by simpa using hpos
  refine ⟨ms, (filter_eq_some_iff.1 hms).1, hpos, ?_⟩
  have hwrap : wrap (ms * 1000000) = (ms * 1000000 + 2 ^ 63) % 2 ^ 64 - 2 ^ 63 := by
    rw [wrap, Int.bmod_def]
    split <;> omega
  have hdeadline := r.deadline_lt
  omega

theorem durations_wrap :
    parseOne "2562048h" = .ok (-9223371273709551616) ∧
    Route.limit {} "9223372036855" = some (-9223372036854551616) := by
  decide +kernel

end BeSdk.Config

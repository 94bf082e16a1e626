import Mathlib.Data.List.Sort
import Mathlib.Data.String.Basic

/-!
# The planning function

What a unit is to do next and what holds it back.  The release, the destruction and the transfer job
ask the same function.
-/

namespace BeSdk.Tiering

inductive UnitState where
  | «open»
  | sealed
  | published
  | released
  | destroyed
deriving DecidableEq, Repr

inductive Category where
  | completed
  | audit
  -- any other text
  | other
deriving DecidableEq, Repr

inductive PlanAction where
  | none
  | seal
  | transfer
  | release
  | destroy
deriving DecidableEq, Repr

def day : Int := 86400000000000

/-- A `time.Duration` of whole days: a product of 64-bit integers, which wraps. -/
def duration (days : Int) : Int := (days * day).bmod (2 ^ 64)

/-- BlockedAlertAfter is how long past its residence a unit may stay blocked before an alert. -/
def blockedAlertAfter : Int := 30 * day

/-- What the plan needs of a class; `residenceDays` is `none` for a class that stays online. -/
structure PlanClass where
  category : Category
  residenceDays : Option Int
  retentionPending : Bool := false
  erasable : Bool := false

structure PlanUnit where
  state : UnitState
  anchorMax : Int := 0
  blockers : List String := []
  routeImmutable : Bool := false
  publishedAt : Int := 0
  newestCreated : Int := 0
  oldLeases : Nat := 0
  backupAfterPublish : Bool := false
  retentionDue : Bool := false
  approved : Bool := false
  holds : Nat := 0

structure PlanDecision where
  action : PlanAction
  reasons : List String
  alert : Bool := false
deriving DecidableEq, Repr

/-- held is the action when nothing holds it back, else none with the reasons sorted. -/
def held (action : PlanAction) (why : List String) : PlanDecision :=
  if why = [] then { action := action, reasons := [] }
  else { action := .none, reasons := why.insertionSort (· ≤ ·) }

/-- The reasons of a list whose condition holds, in order. -/
def reasonsOf (whys : List (Bool × String)) : List String := (whys.filter (·.1)).map (·.2)

/-- Plan decides one unit's next action at `now`, with `n` (the list's default range) and the grace
after a publish. -/
def Plan (now n grace : Int) (c : PlanClass) (u : PlanUnit) : PlanDecision :=
  if c.category = .other then { action := .none, reasons := ["not_tierable"] }
  else if c.residenceDays.any fun days => duration days < n then
    { action := .none, reasons := ["residence_below_n"] }
  else if u.state = .destroyed then { action := .none, reasons := [] }
  else if u.state ≠ .open ∧ u.retentionDue = true then
    held .destroy (reasonsOf [(c.retentionPending, "retention_pending"), (0 < u.holds, "held"),
      (!u.approved, "approval")])
  else
    match u.state with
    | .open =>
      match c.residenceDays with
      | none => { action := .none, reasons := ["never"] }
      | some days =>
        let due := u.anchorMax + duration days
        if now < due then { action := .none, reasons := ["residence"] }
        else if u.blockers ≠ [] then
          { held .seal u.blockers with alert := due + blockedAlertAfter ≤ now }
        else { action := .seal, reasons := [] }
    | .sealed =>
      if u.routeImmutable ∧ c.erasable then { action := .none, reasons := ["immutable_route"] }
      else { action := .transfer, reasons := [] }
    | .published =>
      held .release (reasonsOf [(now < u.publishedAt + grace, "grace"),
        (now - n < u.newestCreated, "recent_records"), (0 < u.oldLeases, "lease"),
        (!u.backupAfterPublish, "no_backup")])
    | _ => { action := .none, reasons := [] }

/-- What `held` decides to do it does because nothing holds it back. -/
theorem held_action {action a : PlanAction} {why : List String} (h : (held action why).action = a)
    (hacts : a ≠ .none) : a = action ∧ why = [] := by
  unfold held at h
  split at h
  · next hnone => exact ⟨h.symm, hnone⟩
  exact absurd h.symm hacts

theorem reasonsOf_eq_nil {whys : List (Bool × String)} (h : reasonsOf whys = []) :
    ∀ why ∈ whys, why.1 = false := by
  simpa [reasonsOf, List.filter_eq_nil_iff] using h

/-- A unit is destroyed only with no hold over it and an approval, when its retention is due and not
pending. -/
theorem plan_destroy {now n grace : Int} {c : PlanClass} {u : PlanUnit}
    (h : (Plan now n grace c u).action = .destroy) :
    u.state ≠ .open ∧ u.state ≠ .destroyed ∧ u.retentionDue = true ∧ c.retentionPending = false ∧
      u.holds = 0 ∧ u.approved = true := by
  unfold Plan at h
  split at h
  · cases h
  split at h
  · cases h
  split at h
  · cases h
  rename_i hdestroyed
  split at h
  next hdue =>
    obtain ⟨-, hwhy⟩ := held_action h (by simp)
    have hnone := reasonsOf_eq_nil hwhy
    simp only [List.forall_mem_cons, Bool.not_eq_eq_eq_not, decide_eq_false_iff_not,
      Nat.not_lt, Nat.le_zero] at hnone
    exact ⟨hdue.1, hdestroyed, hdue.2, hnone.1, hnone.2.1, by simpa using hnone.2.2.1⟩
  -- not due: the states' own actions
  split at h
  · split at h
    · cases h
    dsimp only at h
    split at h
    · cases h
    split at h
    · exact absurd (held_action h (by simp)).1 (by simp)
    cases h
  · split at h <;> cases h
  · exact absurd (held_action h (by simp)).1 (by simp)
  cases h

end BeSdk.Tiering

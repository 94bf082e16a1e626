import Mathlib.Tactic.Common

/-!
# The life of a branch

`reserve/lifecycle.go`: the states of a reservation participant's branch, the commands that arrive
on it, and `Decide`, the table of what each does in each state.  The texts are the ones the source
stores and answers.
-/

namespace BeSdk.Reserve

/-- A stored branch's state; `absent` is the answer for a branch not stored, never stored itself. -/
inductive BranchState
  | held | committed | consumed | released | expired | rejected | cancelled | absent
deriving DecidableEq, Repr

/-- Ended reports a final state: nothing moves it any more. -/
def BranchState.ended (s : BranchState) : Bool := s ≠ .held ∧ s ≠ .committed ∧ s ≠ .absent

inductive Command
  | query | confirm | cancel | expire
  -- a new branch, its resources enough or short
  | holdEnough | holdShort
  -- an existing one with the same or other content
  | holdSame | holdOther
  -- a new consumption ID within, exactly at or beyond what is left
  | consumeWithin | consumeExact | consumeBeyond
  -- a used one with the same or other content
  | consumeUsedSame | consumeUsedOther
deriving DecidableEq, Repr

/-- What a transition does to the component's resource. -/
inductive Resource
  | untouched | takes | givesBack | consumes
deriving DecidableEq, Repr

inductive Refusal
  | noBranch | notCommitted | beyondRemaining
deriving DecidableEq, Repr

/-- One cell of the table. -/
structure Decision where
  to_ : BranchState
  conflict : Bool := false
  refused : Option Refusal := none
  resource : Resource := .untouched
  changed : Bool := false
deriving DecidableEq, Repr

/-- Decide: what the command does to a branch in this state, `past` telling whether a held branch's
hold period is over. -/
def BranchState.decide (s : BranchState) (past : Bool) : Command → Decision
  | .query => { to_ := s }
  | .holdEnough =>
    if s ≠ .absent then { to_ := s } else { to_ := .held, resource := .takes, changed := true }
  | .holdShort => if s ≠ .absent then { to_ := s } else { to_ := .rejected, changed := true }
  | .holdSame => { to_ := s }
  -- a tombstone answers cancelled whatever the content; else a conflict
  | .holdOther => if s = .cancelled then { to_ := s } else { to_ := s, conflict := true }
  | .confirm =>
    if s ≠ .held then { to_ := s }
    else if past then { to_ := .expired, resource := .givesBack, changed := true }
    else { to_ := .committed, changed := true }
  | .cancel =>
    match s with
    | .absent => { to_ := .cancelled, changed := true }
    | .held | .committed => { to_ := .released, resource := .givesBack, changed := true }
    | _ => { to_ := s }
  -- under the lock, judged again
  | .expire =>
    if s = .held ∧ past then { to_ := .expired, resource := .givesBack, changed := true }
    else { to_ := s }
  | .consumeUsedSame => { to_ := s }
  | .consumeUsedOther => { to_ := s, conflict := true }
  | .consumeWithin =>
    if s = .absent then { to_ := s, refused := some .noBranch }
    else if s ≠ .committed then { to_ := s, refused := some .notCommitted }
    else { to_ := .committed, resource := .consumes, changed := true }
  | .consumeExact =>
    if s = .absent then { to_ := s, refused := some .noBranch }
    else if s ≠ .committed then { to_ := s, refused := some .notCommitted }
    else { to_ := .consumed, resource := .consumes, changed := true }
  | .consumeBeyond =>
    if s = .absent then { to_ := s, refused := some .noBranch }
    else if s ≠ .committed then { to_ := s, refused := some .notCommitted }
    else { to_ := s, refused := some .beyondRemaining }

variable {s : BranchState} {past : Bool} {c : Command}

/-- A decision that changes nothing leaves the state and the resource alone. -/
theorem decide_unchanged (h : (s.decide past c).changed = false) :
    (s.decide past c).to_ = s ∧ (s.decide past c).resource = .untouched := by
  cases c <;> simp only [BranchState.decide] at h ⊢ <;> grind

end BeSdk.Reserve

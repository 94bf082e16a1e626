import Mathlib.Tactic.MkIffOfInductiveProp

/-!
# The functions after a transaction

`db/tx.go`: `run` makes up to three attempts and redoes one only for a serialization failure or a
deadlock.  AfterCommit functions run when Commit answers without an error, AfterRollback functions
when the last attempt ended with one.  An error does not say that nothing was committed: where the
commit took effect and its answer was lost, the wrong functions run.

The loop is a recursion on the attempts that it may make, and the proof an induction on them.
-/

namespace BeSdk.Db.Hooks

open List

inductive Err
  | pg (code : String)
  | other (text : String)

def retryable : Err → Bool
  | .pg code => code = "40001" ∨ code = "40P01"
  | .other _ => false

/-- A lost answer shows as an error of the connection, never as one of PostgreSQL. -/
inductive Commit
  | done
  | failed (e : Err)
  | lost (text : String)

/-- What an attempt meets, and the functions that `fn` registers until it returns. -/
structure Attempt (α : Type) where
  -- the connection, BEGIN and the settings
  begins : Option Err := none
  after : List α := []
  rolled : List α := []
  fn : Option Err := none
  cutoff : Option Err := none
  commit : Commit := .done

/-- What an attempt leaves; `committed` says what the database did. -/
structure Once (α : Type) where
  err : Option Err
  committed : Bool := false
  after : List α := []
  rolled : List α := []
  ran : List α := []

variable {α : Type}

/-- The first error of an attempt that has begun. -/
def Attempt.failure (a : Attempt α) : Option Err :=
  a.fn <|> a.cutoff <|>
    match a.commit with
    | .failed e => some e
    | _ => none

def once (a : Attempt α) : Once α :=
  match a.begins, a.failure, a.commit with
  | some e, _, _ => { err := some e }
  | none, some e, _ => { err := some e, after := a.after, rolled := a.rolled }
  | none, none, .lost text => ⟨some (.other text), true, a.after, a.rolled, []⟩
  | none, none, _ => ⟨none, true, a.after, a.rolled, a.after⟩

def maxAttempts : Nat := 3

/-- The attempts that were made, and the AfterRollback functions that ran. -/
structure Done (α : Type) where
  made : List (Once α)
  rolledBack : List α

/-- The loop of `run`: the attempt at hand, and those it may still make. -/
def loop : List (Attempt α) → Done α
  | [] => ⟨[], []⟩
  | a :: as =>
    let o := once a
    match o.err with
    | none => ⟨[o], []⟩
    | some e =>
      if retryable e ∧ as ≠ [] then { loop as with made := o :: (loop as).made }
      else ⟨[o], o.rolled⟩

def run (attempts : Nat → Attempt α) : Done α := loop ((range maxAttempts).map attempts)

/-- At most one attempt committed; the functions that ran are those that fit what was committed. -/
@[mk_iff]
structure Right (d : Done α) : Prop where
  atMostOne : (d.made.filter (·.committed)).length ≤ 1
  committed : ∀ o ∈ d.made, o.committed = true →
    d.made.flatMap (·.ran) = o.after ∧ d.rolledBack = []
  rolledBack : (∀ o ∈ d.made, o.committed = false) →
    d.made.flatMap (·.ran) = [] ∧ ∃ last ∈ d.made.getLast?, d.rolledBack = last.rolled

/-- The attempt meets an error to redo it for. -/
def Attempt.retries (a : Attempt α) : Bool := (a.begins <|> a.failure).any retryable

/-- The attempts that are made: the next one where the last is redone. -/
def reached : List (Attempt α) → List (Attempt α)
  | [] => []
  | a :: as => a :: if a.retries then reached as else []

/-- The commit took effect, its answer was lost, and functions wait for the end. -/
def Attempt.Misled (a : Attempt α) : Prop :=
  a.begins = none ∧ a.fn = none ∧ a.cutoff = none ∧ (∃ text, a.commit = .lost text) ∧
    (a.after ≠ [] ∨ a.rolled ≠ [])

/-- An attempt that is redone has committed nothing and run nothing. -/
theorem once_of_retries {a : Attempt α} (h : a.retries = true) :
    (once a).committed = false ∧ (once a).ran = [] ∧ ¬ a.Misled := by
  unfold Attempt.retries Attempt.Misled once Attempt.failure at *
  grind [retryable]

theorem any_retryable_once (a : Attempt α) : (once a).err.any retryable = a.retries := by
  unfold Attempt.retries once
  grind [retryable]

theorem right_last (a : Attempt α) :
    Right ⟨[once a], if (once a).err.isNone then [] else (once a).rolled⟩ ↔ ¬ a.Misled := by
  unfold Attempt.Misled once Attempt.failure
  cases a.begins with
  | some e => simp [right_iff]
  | none =>
    cases a.fn with
    | some e => simp [right_iff]
    | none =>
      cases a.cutoff with
      | some e => simp [right_iff]
      | none => cases a.commit <;> simp [right_iff, eq_comm (a := [])]

theorem right_cons {o : Once α} {d : Done α} (hcommitted : o.committed = false) (hran : o.ran = [])
    (hmade : d.made ≠ []) : Right { d with made := o :: d.made } ↔ Right d := by
  simp [right_iff, hcommitted, hran, getLast?_cons_of_ne_nil hmade]

theorem loop_made_ne_nil {as : List (Attempt α)} (h : as ≠ []) : (loop as).made ≠ [] := by
  cases as with
  | nil => contradiction
  | cons a as => grind [loop]

theorem loop_cons (a : Attempt α) (as : List (Attempt α)) : loop (a :: as) =
      if a.retries ∧ as ≠ [] then { loop as with made := once a :: (loop as).made }
      else ⟨[once a], if (once a).err.isNone then [] else (once a).rolled⟩ := by
  rw [loop, ← any_retryable_once]
  grind

theorem right_loop {as : List (Attempt α)} (h : as ≠ []) :
    Right (loop as) ↔ ∀ a ∈ reached as, ¬ a.Misled := by
  induction as with
  | nil => contradiction
  | cons a as ih =>
    rw [loop_cons, reached, forall_mem_cons]
    cases hretries : a.retries with
    | false => simpa using right_last a
    | true =>
      obtain ⟨hcommitted, hran, hclear⟩ := once_of_retries hretries
      by_cases has : as = []
      · subst has
        simpa [reached] using right_last a
      · simp only [has, not_false_eq_true, and_self, if_true, hclear, true_and, ne_eq]
        rw [right_cons hcommitted hran (loop_made_ne_nil has), ih has]

/-- At most one attempt commits, and the functions that run are the ones that fit, exactly when no
attempt that is made has its commit take effect, loses the answer and has registered functions. -/
theorem hooks_fit_iff (attempts : Nat → Attempt α) :
    Right (run attempts) ↔ ∀ a ∈ reached ((range maxAttempts).map attempts), ¬ a.Misled :=
  right_loop (by simp [maxAttempts])

/-- The write is committed, and the function for a failed one runs. -/
theorem lost_answer_rolls_back :
    let d := run fun _ => { after := ["wake"], rolled := ["count"], commit := .lost "EOF" }
    d.made.map (·.committed) = [true] ∧ d.made.flatMap (·.ran) = [] ∧ d.rolledBack = ["count"] ∧
      ¬ Right d :=
  ⟨rfl, rfl, rfl, fun h => absurd (h.committed _ (.head _) rfl).2 (by decide)⟩

end BeSdk.Db.Hooks

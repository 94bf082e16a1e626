import BeSdk.Library.Runs
import BeSdk.Library.Tables

/-!
# Denials past the budget

`audit/audit.go`: a denial is a detail row while its window's budget lasts and counts in the window
after that; Flush writes one summary of a window's count, once, when the window's minute has ended.
A denial takes its minute before its transaction, so one may come to a window that was summarized:
its count is in no row then.

The transactions are atomic.  The rows of `be_audit_log` are kept by the window they are about; the
times of a window's first and last denial are left out.
-/

namespace BeSdk.Audit

open Runs Function

def denialBudget : Nat := 20

/-- What a budget row is about; the minute as a number. -/
structure WindowKey where
  principal : String
  reason : String
  minute : Int
deriving DecidableEq, Repr

/-- A row of `be_audit_denial_budget`. -/
structure Window where
  detailed : Nat := 0
  overflow : Nat := 0
  summarized : Bool := false

/-- A row of `be_audit_log` about a window. -/
inductive DenialRow
  | detail
  | summary (count : Nat)

structure System where
  windows : WindowKey → Window := fun _ => {}
  rows : WindowKey → List DenialRow := fun _ => []
  -- the denials that committed
  committed : WindowKey → Nat := fun _ => 0

inductive Action
  | denial (k : WindowKey)
  | flush (minute : Int)

namespace System

variable (s : System)

/-- `Denial`, its transaction. -/
def denial (k : WindowKey) : System :=
  let detailed := (s.windows k).detailed + 1
  let within := detailed ≤ denialBudget
  { windows := update s.windows k { s.windows k with
      detailed := detailed
      overflow := if within then (s.windows k).overflow else (s.windows k).overflow + 1 }
    rows := update s.rows k (if within then s.rows k ++ [.detail] else s.rows k)
    committed := update s.committed k (s.committed k + 1) }

/-- The windows that Flush takes, in a minute. -/
def due (minute : Int) (k : WindowKey) : Bool :=
  (s.windows k).overflow > 0 ∧ !(s.windows k).summarized ∧ k.minute < minute

/-- `Flush`. -/
def flush (minute : Int) : System :=
  { s with
    windows := fun k =>
      if s.due minute k then { s.windows k with summarized := true } else s.windows k
    rows := fun k =>
      if s.due minute k then s.rows k ++ [.summary (s.windows k).overflow] else s.rows k }

end System

def step (s : System) : Action → Option System
  | .denial k => some (s.denial k)
  | .flush minute => some (s.flush minute)

/-- The denials that a row stands for. -/
def DenialRow.count : DenialRow → Nat
  | .detail => 1
  | .summary count => count

/-- The detail rows of a window, and the counts of its summaries. -/
def recorded : List DenialRow → Nat
  | [] => 0
  | row :: rows => row.count + recorded rows

/-- A denial past the budget comes while its window is not summarized. -/
def System.inTime (s : System) : Action → Bool
  | .denial k => (s.windows k).detailed < denialBudget ∨ !(s.windows k).summarized
  | .flush _ => true

variable {s t : System} {a : Action}

/-- A window's rows have all its denials, but those that Flush has still to count. -/
structure WindowOk (w : Window) (rows : List DenialRow) (committed : Nat) : Prop where
  detailed : w.detailed = committed
  recorded : recorded rows + (if w.summarized then 0 else w.overflow) = committed

theorem recorded_append (rows : List DenialRow) (row : DenialRow) :
    recorded (rows ++ [row]) = recorded rows + row.count := by
  induction rows with
  | nil => simp [recorded]
  | cons r rows ih => simp only [List.cons_append, recorded, ih, Nat.add_assoc]

theorem step_windowOk (h : ∀ k, WindowOk (s.windows k) (s.rows k) (s.committed k))
    (htime : s.inTime a = true) (hstep : step s a = some t) (k : WindowKey) :
    WindowOk (t.windows k) (t.rows k) (t.committed k) := by
  obtain ⟨hdetailed, hrecorded⟩ := h k
  cases a with cases hstep
  | denial k' =>
    by_cases hk : k = k'
    · subst hk
      simp only [System.inTime, decide_eq_true_eq] at htime
      simp only [System.denial, update_self]
      by_cases hwithin : (s.windows k).detailed + 1 ≤ denialBudget
      · simp only [hwithin, if_true]
        refine ⟨by rw [hdetailed], ?_⟩
        rw [recorded_append, DenialRow.count]
        dsimp only
        omega
      have hopen : (s.windows k).summarized = false := by
        rcases htime with hlt | hopen
        · omega
        simpa using hopen
      simp only [hwithin, if_false, hopen, Bool.false_eq_true] at hrecorded ⊢
      exact ⟨by rw [hdetailed], by grind⟩
    simp only [System.denial, update_of_ne hk]
    exact h k
  | flush minute =>
    simp only [System.flush]
    by_cases hdue : s.due minute k = true
    · have hopen : (s.windows k).summarized = false := by simp_all [System.due]
      simp only [hdue, hopen, if_true, if_false, Bool.false_eq_true] at hrecorded ⊢
      exact ⟨hdetailed, by rw [recorded_append, DenialRow.count]; grind⟩
    simp only [hdue]
    exact h k

/-- **Conservation.**  In every run in which no denial past the budget comes to a summarized window,
after a flush that follows every window's minute the rows of a window stand for its denials. -/
theorem denials_recorded (acts : List Action) (s : System)
    (hmeets : Meets step (fun s a => s.inTime a = true) {} acts) (hrun : run step {} acts = some s)
    (minute : Int) (k : WindowKey) (hended : k.minute < minute) :
    recorded ((s.flush minute).rows k) = (s.flush minute).committed k := by
  have hinit : ∀ k, WindowOk (({} : System).windows k) (({} : System).rows k)
      (({} : System).committed k) := fun _ => ⟨rfl, rfl⟩
  have h : ∀ k, WindowOk (s.windows k) (s.rows k) (s.committed k) :=
    run_invariant (fun _ _ _ => step_windowOk) hinit hmeets hrun
  have hflushed := (step_windowOk h (a := .flush minute) rfl rfl k).recorded
  -- what is not summarized has nothing past the budget
  have hnone : (if ((s.flush minute).windows k).summarized then 0
      else ((s.flush minute).windows k).overflow) = 0 := by
    simp only [System.flush, System.due]
    grind
  omega

/-- Two denials past the budget, and a flush in the next minute. -/
theorem twenty_two_denials_recorded :
    let k : WindowKey := ⟨"p", "FORBIDDEN", 7⟩
    ∃ s, run step {} (List.replicate 22 (.denial k)) = some s ∧
      recorded ((s.flush 8).rows k) = (s.flush 8).committed k ∧ (s.flush 8).committed k = 22 := by
  intro k
  refine exists_of_run rfl fun hrun => ⟨denials_recorded _ _ (by decide) hrun 8 k (by decide), ?_⟩
  decide

/-- A denial took its minute and is delayed: the window is summarized with one past the budget, and
the delayed one counts in no row, whatever is flushed after it. -/
theorem delayed_denial_is_lost :
    let k : WindowKey := ⟨"p", "FORBIDDEN", 7⟩
    (run step {} (List.replicate 21 (.denial k) ++ [.flush 8, .denial k, .flush 9])).map
      (fun s => (recorded (s.rows k), s.committed k)) = some (21, 22) := by
  decide +kernel

end BeSdk.Audit

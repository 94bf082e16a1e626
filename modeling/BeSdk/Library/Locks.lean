import Mathlib.Data.List.Basic

/-!
# Locks held to the end of a transaction

A transaction takes locks one by one and gives them back all at once, when it ends.  What a lock is
(a table in a mode, a row) is up to the user of this file, who says which two of them conflict when
different transactions hold them.  A lock that conflicts with one another transaction holds is not
taken: the transaction waits.  So two conflicting locks are never held by different transactions
(`Exclusive`), whatever is taken and given back.
-/

abbrev Locks (τ ρ : Type*) := List (τ × ρ)

namespace Locks

variable {τ ρ : Type*} [DecidableEq τ] {conflicts : ρ → ρ → Bool} {locks : Locks τ ρ} {t t' : τ}
  {r r' : ρ}

/-- No other transaction holds a lock that conflicts with this one. -/
def free (conflicts : ρ → ρ → Bool) (locks : Locks τ ρ) (t : τ) (r : ρ) : Bool :=
  locks.all fun held => held.1 = t ∨ conflicts r held.2 = false

/-- The transaction takes the lock, or has to wait. -/
def take (conflicts : ρ → ρ → Bool) (locks : Locks τ ρ) (t : τ) (r : ρ) : Option (Locks τ ρ) :=
  if locks.free conflicts t r then some ((t, r) :: locks) else none

def release (locks : Locks τ ρ) (t : τ) : Locks τ ρ := locks.filter fun held => held.1 ≠ t

/-- Conflicting locks are held by one transaction only. -/
def Exclusive (conflicts : ρ → ρ → Bool) (locks : Locks τ ρ) : Prop :=
  ∀ t r t' r', (t, r) ∈ locks → (t', r') ∈ locks → conflicts r r' = true → t = t'

omit [DecidableEq τ] in
theorem exclusive_nil : Exclusive conflicts ([] : Locks τ ρ) := by simp [Exclusive]

theorem free_iff : locks.free conflicts t r = true ↔
    ∀ t' r', (t', r') ∈ locks → conflicts r r' = true → t' = t := by
  simp only [free, List.all_eq_true, decide_eq_true_eq, Prod.forall]
  refine forall_congr' fun t' => forall_congr' fun r' => imp_congr_right fun _ => ?_
  cases conflicts r r' <;> simp

theorem take_eq_some {locks' : Locks τ ρ} : locks.take conflicts t r = some locks' ↔
    locks.free conflicts t r = true ∧ locks' = (t, r) :: locks := by
  unfold take
  split
  · next hfree => simp [hfree, eq_comm]
  next hfree => simp [hfree]

@[simp] theorem mem_release : (t', r) ∈ locks.release t ↔ (t', r) ∈ locks ∧ t' ≠ t := by
  simp [release]

theorem Exclusive.take (h : Exclusive conflicts locks)
    (hsymm : ∀ r r', conflicts r r' = conflicts r' r) (hfree : locks.free conflicts t r = true) :
    Exclusive conflicts ((t, r) :: locks) := by
  rw [free_iff] at hfree
  intro t₁ r₁ t₂ r₂ h₁ h₂ hconflict
  rcases List.mem_cons.1 h₁ with h₁ | h₁ <;> rcases List.mem_cons.1 h₂ with h₂ | h₂
  · cases h₁
    cases h₂
    rfl
  · cases h₁
    exact (hfree t₂ r₂ h₂ hconflict).symm
  · cases h₂
    exact hfree t₁ r₁ h₁ (hsymm r₁ r ▸ hconflict)
  exact h t₁ r₁ t₂ r₂ h₁ h₂ hconflict

theorem Exclusive.release (h : Exclusive conflicts locks) (t : τ) :
    Exclusive conflicts (locks.release t) := by
  intro t₁ r₁ t₂ r₂ h₁ h₂ hconflict
  exact h t₁ r₁ t₂ r₂ (mem_release.1 h₁).1 (mem_release.1 h₂).1 hconflict

end Locks

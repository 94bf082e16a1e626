import Mathlib.Logic.Function.Basic

/-!
# Rows and the transactions that write them

A table whose rows are locked one by one, read and written at READ COMMITTED.  A transaction that
has locked a row, or writes it, holds it to its end, and holds its own version of it; a row that is
not there can be held too, by the transaction that inserts it.  What others have written is seen
once they commit.  A transaction that needs a row another one holds waits, which is a step it cannot
take (`free`); a plain read takes what is committed and waits for nobody.

Committing puts the versions of the rows a transaction holds in the place of the committed ones,
which is what the transaction sees of the whole table (`commit_committed`), and rolling back leaves
the committed rows as they are.
-/

namespace RowLocks

open Function

variable {κ ρ : Type*}

/-- A table: its committed rows, and for each row that is held by whom and in which version. -/
structure Table (κ ρ : Type*) where
  committed : κ → Option ρ
  held : κ → Option (Nat × Option ρ)

namespace Table

variable (s : Table κ ρ) (w : Nat) (k : κ)

def atRest (committed : κ → Option ρ) : Table κ ρ where
  committed := committed
  held := fun _ => none

/-- It has the row locked. -/
def holds : Bool := (s.held k).any fun h => h.1 = w

/-- No other transaction has the row. -/
def free : Bool := (s.held k).all fun h => h.1 = w

/-- Its own write, else the committed row. -/
def sees : Option ρ :=
  match s.held k with
  | some (w', v) => if w' = w then v else s.committed k
  | none => s.committed k

section
variable [DecidableEq κ]

/-- Locks the row for a write. -/
def put (v : Option ρ) : Table κ ρ := { s with held := update s.held k (some (w, v)) }

def lock : Table κ ρ := s.put w k (s.sees w k)

end

def release : Table κ ρ := { s with held := fun k => if s.holds w k then none else s.held k }

def rollback : Table κ ρ := s.release w

/-- The rows it holds become as it sees them. -/
def commit : Table κ ρ := { s.release w with committed := fun k => s.sees w k }

variable {s w k} {w' : Nat} {k' : κ} {v : Option ρ}

theorem holds_iff : s.holds w k = true ↔ ∃ v, s.held k = some (w, v) := by
  unfold holds
  cases h : s.held k with
  | none => simp
  | some p =>
    obtain ⟨w', v⟩ := p
    simp

theorem free_iff : s.free w k = true ↔ ∀ w' v, s.held k = some (w', v) → w' = w := by
  unfold free
  cases h : s.held k with
  | none => simp
  | some p =>
    obtain ⟨w', v⟩ := p
    simp

theorem sees_of_held (h : s.held k = some (w, v)) : s.sees w k = v := by simp [sees, h]

theorem sees_of_not_held (h : ∀ v, s.held k ≠ some (w, v)) : s.sees w k = s.committed k := by
  unfold sees
  split
  next w' v hheld =>
    split
    · next hw => exact absurd (hw ▸ hheld) (h v)
    rfl
  rfl

theorem sees_cases (s : Table κ ρ) (w : Nat) (k : κ) :
    (∃ v, s.held k = some (w, v) ∧ s.sees w k = v) ∨
      (∀ v, s.held k ≠ some (w, v)) ∧ s.sees w k = s.committed k := by
  by_cases h : ∃ v, s.held k = some (w, v)
  · obtain ⟨v, hv⟩ := h
    exact .inl ⟨v, hv, sees_of_held hv⟩
  have hnot : ∀ v, s.held k ≠ some (w, v) := fun v hv => h ⟨v, hv⟩
  exact .inr ⟨hnot, sees_of_not_held hnot⟩

theorem sees_of_not_holds (h : s.holds w k = false) : s.sees w k = s.committed k :=
  sees_of_not_held fun v hv => by simp [holds_iff.2 ⟨v, hv⟩] at h

theorem not_holds_of_free (hfree : s.free w k = true) (hne : w' ≠ w) : s.holds w' k = false := by
  rw [Bool.eq_false_iff]
  intro hholds
  obtain ⟨v, hv⟩ := holds_iff.1 hholds
  exact hne (free_iff.1 hfree w' v hv)

theorem not_holds_of_holds (hw : s.holds w k = true) (hne : w' ≠ w) : s.holds w' k = false := by
  obtain ⟨v, hv⟩ := holds_iff.1 hw
  refine not_holds_of_free (free_iff.2 fun w'' v' hv' => ?_) hne
  cases hv.symm.trans hv'
  rfl

section
variable [DecidableEq κ]

@[simp] theorem put_committed : (s.put w k v).committed = s.committed := rfl

@[simp] theorem put_held_self : (s.put w k v).held k = some (w, v) := update_self ..

theorem put_held_of_ne (h : k' ≠ k) : (s.put w k v).held k' = s.held k' := update_of_ne h ..

@[simp] theorem put_sees_self : (s.put w k v).sees w k = v := sees_of_held put_held_self

@[simp] theorem put_holds_self : (s.put w k v).holds w k = true := holds_iff.2 ⟨v, put_held_self⟩

theorem put_holds_of_ne (h : k' ≠ k) : (s.put w k v).holds w' k' = s.holds w' k' := by
  simp only [holds, put_held_of_ne h]

theorem put_sees_of_ne (h : k' ≠ k) : (s.put w k v).sees w' k' = s.sees w' k' := by
  simp only [sees, put_held_of_ne h, put_committed]

/-- A row that is written is not held by another transaction, before as after. -/
theorem put_holds_other (hfree : s.free w k = true) (hne : w' ≠ w) :
    (s.put w k v).holds w' k' = s.holds w' k' := by
  by_cases hk : k' = k
  · subst hk
    rw [not_holds_of_free hfree hne, not_holds_of_holds put_holds_self hne]
  exact put_holds_of_ne hk

theorem put_sees_other (hfree : s.free w k = true) (hne : w' ≠ w) :
    (s.put w k v).sees w' k' = s.sees w' k' := by
  by_cases hk : k' = k
  · subst hk
    rw [sees_of_not_holds (not_holds_of_free hfree hne),
      sees_of_not_holds (not_holds_of_holds put_holds_self hne), put_committed]
  exact put_sees_of_ne hk

end

@[simp] theorem release_committed : (s.release w).committed = s.committed := rfl

theorem release_held : (s.release w).held k = some (w', v) ↔ s.held k = some (w', v) ∧ w' ≠ w := by
  have hheld : (s.release w).held k = if s.holds w k then none else s.held k := rfl
  rw [hheld]
  by_cases hw : s.holds w k = true
  · obtain ⟨v', hv'⟩ := holds_iff.1 hw
    rw [if_pos hw, hv']
    constructor
    · nofun
    rintro ⟨h, hne⟩
    cases h
    exact absurd rfl hne
  rw [if_neg hw]
  exact ⟨fun h => ⟨h, fun heq => hw (holds_iff.2 ⟨v, heq ▸ h⟩)⟩, fun h => h.1⟩

@[simp] theorem commit_committed : (s.commit w).committed k = s.sees w k := rfl

theorem commit_held : (s.commit w).held k = some (w', v) ↔ s.held k = some (w', v) ∧ w' ≠ w :=
  release_held

@[simp] theorem release_holds_self : (s.release w).holds w k = false := by
  rw [Bool.eq_false_iff]
  intro hholds
  obtain ⟨v, hv⟩ := holds_iff.1 hholds
  exact (release_held.1 hv).2 rfl

section
variable (hne : w' ≠ w)
include hne

theorem release_held_other (hw : s.holds w' k = true) : (s.release w).held k = s.held k := by
  have hself := not_holds_of_holds hw (Ne.symm hne)
  simp [release, hself]

theorem release_holds_other : (s.release w).holds w' k = s.holds w' k := by
  rw [Bool.eq_iff_iff, holds_iff, holds_iff]
  exact exists_congr fun v => by rw [release_held, and_iff_left hne]

theorem rollback_sees_other : (s.rollback w).sees w' k = s.sees w' k := by
  cases hw : s.holds w' k with
  | true => simp only [sees, rollback, release_held_other hne hw, release_committed]
  | false =>
    have hw' : (s.rollback w).holds w' k = false := (release_holds_other hne).trans hw
    rw [sees_of_not_holds hw, sees_of_not_holds hw']
    rfl

/-- A transaction still sees the rows it holds when another one commits. -/
theorem commit_sees_of_holds (hw : s.holds w' k = true) : (s.commit w).sees w' k = s.sees w' k := by
  obtain ⟨v, hv⟩ := holds_iff.1 hw
  rw [sees_of_held hv, sees_of_held (commit_held.2 ⟨hv, hne⟩)]

/-- The committed row of one that another transaction holds stays. -/
theorem commit_committed_of_holds (hw : s.holds w' k = true) :
    (s.commit w).committed k = s.committed k :=
  sees_of_not_holds (not_holds_of_holds hw (Ne.symm hne))

end
end Table
end RowLocks

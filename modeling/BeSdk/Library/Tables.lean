import Mathlib.Logic.Function.Basic

/-!
# Tables as functions

A table is a function from keys to rows, `none` where there is no row, and a map of processes is
one from their names to where they are.  A step changes one entry.  What an entry is after that is
the new one or the one it was.  A table whose rows only get more may also be a list, with the rows
by their position.
-/

namespace Tables

open Function

variable {κ β : Type*} [DecidableEq κ]

theorem update_cases (f : κ → β) (x : κ) (b : β) (y : κ) :
    y = x ∧ update f x b y = b ∨ y ≠ x ∧ update f x b y = f y := by
  by_cases hy : y = x
  · subst hy
    exact .inl ⟨rfl, update_self ..⟩
  exact .inr ⟨hy, update_of_ne hy ..⟩

/-- A row that is there after one was written. -/
theorem update_eq_some {f : κ → Option β} {x y : κ} {b r : β} (h : update f x (some b) y = some r) :
    y = x ∧ r = b ∨ y ≠ x ∧ f y = some r := by
  rcases update_cases f x (some b) y with ⟨hy, hself⟩ | ⟨hy, hother⟩
  · rw [hself, Option.some.injEq] at h
    exact .inl ⟨hy, h.symm⟩
  exact .inr ⟨hy, hother ▸ h⟩

/-- A key without a row had none. -/
theorem update_eq_none {f : κ → Option β} {x y : κ} {b : β} (h : update f x (some b) y = none) :
    y ≠ x ∧ f y = none := by
  rcases update_cases f x (some b) y with ⟨-, hself⟩ | ⟨hy, hother⟩
  · rw [hself] at h
    cases h
  exact ⟨hy, hother ▸ h⟩

section Lists
variable {ρ : Type*} {l : List ρ} {j : Nat} {b r : ρ}

/-- The rows that are there after one was added at the end. -/
theorem append_eq_some (h : (l ++ [b])[j]? = some r) : j = l.length ∧ r = b ∨ l[j]? = some r := by
  rw [List.getElem?_append] at h
  split at h
  · exact .inr h
  rename_i hle
  rw [List.getElem?_singleton] at h
  split at h <;> cases h
  exact .inl ⟨by omega, rfl⟩

end Lists
end Tables

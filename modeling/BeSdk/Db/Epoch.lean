import Mathlib.Tactic.Linarith

/-!
# Database epochs, and how transactions end

An epoch is a pair of the deployment's recovery generation and the write
timeline, compared in that order (`events.Epoch`).  What `be_current_db_epoch()`
answers is one of them; numbering, claims and the watermark protocol all read it.

A transaction ends in one of three ways, whatever ran in it: it commits, it commits and
the answer is lost on the way back, or it fails and changes nothing.
-/

namespace BeSdk

/-- `events.Epoch`. -/
@[ext] structure Epoch where
  generation : Int
  timeline : Int
deriving DecidableEq, Repr

namespace Epoch

/-- `Epoch.Less`: generation first, then timeline. -/
def less (e o : Epoch) : Bool :=
  e.generation < o.generation || (e.generation == o.generation && e.timeline < o.timeline)

instance : LT Epoch := ⟨fun e o => e.less o = true⟩

instance : LE Epoch := ⟨fun e o => ¬ o < e⟩

instance (e o : Epoch) : Decidable (e < o) := inferInstanceAs (Decidable (e.less o = true))

instance (e o : Epoch) : Decidable (e ≤ o) := inferInstanceAs (Decidable (¬ o < e))

theorem lt_iff {e o : Epoch} : e < o ↔ e.generation < o.generation ∨
      (e.generation = o.generation ∧ e.timeline < o.timeline) := by
  change e.less o = true ↔ _
  simp [less]

theorem le_iff {e o : Epoch} : e ≤ o ↔ e.generation < o.generation ∨
      (e.generation = o.generation ∧ e.timeline ≤ o.timeline) := by
  change ¬ o < e ↔ _
  rw [lt_iff]
  omega

/-- `Less` is the strict part of a linear order. -/
instance : LinearOrder Epoch where
  le_refl e := by rw [le_iff]; omega
  le_trans e o f h₁ h₂ := by rw [le_iff] at *; omega
  lt_iff_le_not_ge e o := by rw [lt_iff, le_iff, le_iff]; omega
  le_antisymm e o h₁ h₂ := by
    rw [le_iff] at h₁ h₂
    ext <;> omega
  le_total e o := by rw [le_iff, le_iff]; omega
  toDecidableLE := inferInstance
  toDecidableEq := inferInstance
  toDecidableLT := inferInstance

end Epoch

/-- How a transaction ended, for the database and for its caller. -/
inductive TxResult
  | committed | answerLost | failed
deriving DecidableEq, Repr

/-- Whether the transaction's writes are in the database. -/
def TxResult.applied : TxResult → Bool
  | .failed => false
  | _ => true

end BeSdk

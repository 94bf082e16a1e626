import Mathlib.Data.List.Sort

/-!
# Lists compared row by row

`List.Forall₂ R` says that two lists have related rows, one by one.  Queries keep it: a filter that
takes related rows alike, and a sort that orders them alike.
-/

namespace Pairwise

open List

variable {α β : Type*} {R : α → β → Prop} {l₁ : List α} {l₂ : List β}

/-- Filters that take related rows alike; the rows that are left were taken. -/
theorem forall₂_filter {p : α → Bool} {q : β → Bool} (hpq : ∀ a b, R a b → p a = q b)
    (h : Forall₂ R l₁ l₂) :
    Forall₂ (fun a b => R a b ∧ p a = true) (l₁.filter p) (l₂.filter q) := by
  induction h with
  | nil => exact .nil
  | @cons a b l₁ l₂ hab _ ih =>
    have hq := hpq a b hab
    cases hp : p a with
    | false =>
      rw [filter_cons_of_neg (by simp [hp]), filter_cons_of_neg (by simp [← hq, hp])]
      exact ih
    | true =>
      rw [filter_cons_of_pos hp, filter_cons_of_pos (hq ▸ hp)]
      exact .cons ⟨hab, hp⟩ ih

/-- Sorts that order related rows alike. -/
theorem forall₂_mergeSort {le : α → α → Bool} {le' : β → β → Bool}
    (hle : ∀ a b a' b', R a b → R a' b' → le a a' = le' b b') (h : Forall₂ R l₁ l₂) :
    Forall₂ R (l₁.mergeSort le) (l₂.mergeSort le') := by
  -- both are the sort of the list of pairs
  obtain ⟨hlength, hzip⟩ := forall₂_iff_zip.1 h
  have hpair : ∀ x ∈ l₁.zip l₂, R x.1 x.2 := fun x hx => hzip hx
  have hfst := map_mergeSort (f := Prod.fst) (l := l₁.zip l₂) (r := fun x y => le x.1 y.1) (s := le)
    fun x _ y _ => rfl
  have hsnd := map_mergeSort (f := Prod.snd) (l := l₁.zip l₂) (r := fun x y => le x.1 y.1)
    (s := le')
    fun x hx y hy => hle _ _ _ _ (hpair x hx) (hpair y hy)
  rw [map_fst_zip hlength.le] at hfst
  rw [map_snd_zip hlength.ge] at hsnd
  rw [← hfst, ← hsnd, forall₂_map_left_iff, forall₂_map_right_iff, forall₂_same]
  exact fun x hx => hpair x (mem_mergeSort.1 hx)

theorem forall₂_getLast? (h : Forall₂ R l₁ l₂) : Option.Rel R l₁.getLast? l₂.getLast? := by
  have hreverse := forall₂_reverse_iff.2 h
  rw [getLast?_eq_head?_reverse, getLast?_eq_head?_reverse]
  generalize l₁.reverse = k₁ at hreverse ⊢
  generalize l₂.reverse = k₂ at hreverse ⊢
  cases hreverse with
  | nil => exact .none
  | cons hab _ => exact .some hab

/-- Rows with the same value of a function of theirs. -/
theorem map_eq_of_forall₂ {γ : Type*} {g : α → γ} {g' : β → γ} (hg : ∀ a b, R a b → g a = g' b)
    (h : Forall₂ R l₁ l₂) : l₁.map g = l₂.map g' := by
  induction h with
  | nil => rfl
  | cons hab _ ih => rw [map_cons, map_cons, hg _ _ hab, ih]

end Pairwise

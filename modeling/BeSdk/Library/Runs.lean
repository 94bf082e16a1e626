import Mathlib.Data.List.Basic

/-!
# Runs of a system given by a partial step function

All nondeterminism of a system sits in the action it takes: who moves, which
answer arrives, which transaction fails.  A step function then says what the
action does, or that it is not possible in this state, and a run is a list of
actions.  This file is about any such system.

`Meets ok s as` says that every action of the run meets `ok` in the state it is
taken in.  Safety under a condition on the steps is `run_invariant`; an
unconditional invariant is the same rule with `ok` always true
(`run_invariant_of_step`).
-/

namespace Runs

open Option

variable {σ α : Type*}

/-- The state a list of actions leads to; `none` when one of them is not possible. -/
def run (step : σ → α → Option σ) : σ → List α → Option σ
  | s, [] => some s
  | s, a :: as => (step s a).bind fun s' => run step s' as

/-- Every action of the run meets `ok` in the state it is taken in. -/
def Meets (step : σ → α → Option σ) (ok : σ → α → Prop) : σ → List α → Prop
  | _, [] => True
  | s, a :: as => ok s a ∧ ∀ s', step s a = some s' → Meets step ok s' as

variable {step : σ → α → Option σ} {ok : σ → α → Prop} {s s' : σ} {a : α} {as bs : List α}
  {P : σ → Prop}

@[simp] theorem run_nil (s : σ) : run step s [] = some s := rfl

theorem run_cons (s : σ) (a : α) (as : List α) :
    run step s (a :: as) = (step s a).bind fun s' => run step s' as := rfl

theorem run_cons_eq_some :
    run step s (a :: as) = some s' ↔ ∃ t, step s a = some t ∧ run step t as = some s' := by
  rw [run_cons, bind_eq_some_iff]

theorem run_append (s : σ) (as bs : List α) :
    run step s (as ++ bs) = (run step s as).bind fun s' => run step s' bs := by
  induction as generalizing s with
  | nil => simp
  | cons a as ih =>
    rw [List.cons_append, run_cons, run_cons, bind_assoc]
    congr 1
    funext t
    exact ih t

theorem run_append_eq_some :
    run step s (as ++ bs) = some s' ↔ ∃ t, run step s as = some t ∧ run step t bs = some s' := by
  rw [run_append, bind_eq_some_iff]

theorem run_trans {t : σ} (hrun : run step s as = some t) (hrest : run step t bs = some s') :
    run step s (as ++ bs) = some s' :=
  run_append_eq_some.mpr ⟨t, hrun, hrest⟩

/-- What holds of the state a run leads to. -/
theorem exists_of_run (hrun : run step s as = some s')
    (h : run step s as = some s' → P s') : ∃ t, run step s as = some t ∧ P t :=
  ⟨s', hrun, h hrun⟩

/-- A run on fixed actions, for what is computed of the state it leads to. -/
theorem exists_of_map_run {β : Type*} {f : σ → β} {b : β} (hf : (run step s as).map f = some b)
    (h : ∀ t, run step s as = some t → P t) :
    ∃ t, run step s as = some t ∧ f t = b ∧ P t := by
  obtain ⟨t, hrun, hb⟩ := Option.map_eq_some_iff.1 hf
  exact ⟨t, hrun, hb, h t hrun⟩

theorem run_singleton (s : σ) (a : α) : run step s [a] = step s a := by
  rw [run_cons]
  cases step s a <;> rfl

@[simp] theorem meets_nil (s : σ) : Meets step ok s [] := trivial

theorem Meets.cons {t : σ} (hok : ok s a) (hstep : step s a = some t)
    (hrest : Meets step ok t as) : Meets step ok s (a :: as) := by
  refine ⟨hok, fun u hu => ?_⟩
  rw [hstep, some.injEq] at hu
  exact hu ▸ hrest

instance decidableMeets [∀ s a, Decidable (ok s a)] :
    ∀ (s : σ) (as : List α), Decidable (Meets step ok s as)
  | _, [] => isTrue trivial
  | s, a :: as =>
    match hstep : step s a with
    | none => decidable_of_iff (ok s a) (by simp [Meets, hstep])
    | some t =>
      have := decidableMeets t as
      decidable_of_iff (ok s a ∧ Meets step ok t as) (by simp [Meets, hstep])

/-- Actions that meet `ok` in any state. -/
theorem Meets.of_always (hall : ∀ a ∈ as, ∀ s, ok s a) : Meets step ok s as := by
  induction as generalizing s with
  | nil => trivial
  | cons a as ih =>
    rw [List.forall_mem_cons] at hall
    exact ⟨hall.1 s, fun t _ => ih hall.2⟩

theorem Meets.of_forall {ok : α → Prop} (hall : ∀ a ∈ as, ok a) :
    Meets step (fun _ a => ok a) s as :=
  of_always fun a ha _ => hall a ha

theorem Meets.append (hfirst : Meets step ok s as)
    (hrest : ∀ t, run step s as = some t → Meets step ok t bs) : Meets step ok s (as ++ bs) := by
  induction as generalizing s with
  | nil => exact hrest s rfl
  | cons a as ih =>
    refine ⟨hfirst.1, fun t ht => ih (hfirst.2 t ht) fun u hu => hrest u ?_⟩
    exact run_cons_eq_some.mpr ⟨t, ht, hu⟩

theorem Meets.and {ok' : σ → α → Prop} (hmeets : Meets step ok s as)
    (hmeets' : Meets step ok' s as) : Meets step (fun s a => ok s a ∧ ok' s a) s as := by
  induction as generalizing s with
  | nil => trivial
  | cons a as ih => exact ⟨⟨hmeets.1, hmeets'.1⟩, fun t ht => ih (hmeets.2 t ht) (hmeets'.2 t ht)⟩

/-- The first part of a run that meets `ok` meets it, and so does the rest from
the state in between. -/
theorem Meets.of_append (hmeets : Meets step ok s (as ++ bs)) :
    Meets step ok s as ∧ ∀ t, run step s as = some t → Meets step ok t bs := by
  induction as generalizing s with
  | nil =>
    refine ⟨trivial, fun t ht => ?_⟩
    rw [run_nil, some.injEq] at ht
    exact ht ▸ hmeets
  | cons a as ih =>
    obtain ⟨hok, hrest⟩ := hmeets
    refine ⟨⟨hok, fun t ht => (ih (hrest t ht)).1⟩, fun t ht => ?_⟩
    obtain ⟨u, hu, ht⟩ := run_cons_eq_some.mp ht
    exact (ih (hrest u hu)).2 t ht

/-- **Invariants under a condition.**  A property that every step meeting `ok`
preserves holds after every run that meets `ok`. -/
theorem run_invariant (hstep : ∀ s a s', P s → ok s a → step s a = some s' → P s') (hinit : P s)
    (hmeets : Meets step ok s as) (hrun : run step s as = some s') : P s' := by
  induction as generalizing s with
  | nil =>
    rw [run_nil, some.injEq] at hrun
    exact hrun ▸ hinit
  | cons a as ih =>
    obtain ⟨t, ht, hrun⟩ := run_cons_eq_some.mp hrun
    exact ih (hstep s a t hinit hmeets.1 ht) (hmeets.2 t ht) hrun

/-- **Invariants.**  A property that every step preserves holds after every run. -/
theorem run_invariant_of_step (hstep : ∀ s a s', P s → step s a = some s' → P s') (hinit : P s)
    (hrun : run step s as = some s') : P s' :=
  have hmeets : Meets step (fun _ _ => True) s as := Meets.of_forall fun _ _ => trivial
  run_invariant (fun s a s' hs _ => hstep s a s' hs) hinit hmeets hrun

end Runs

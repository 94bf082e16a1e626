import Mathlib.Data.List.Basic

/-!
# Conditions of a query

The WHERE clause of a query, with its tests left open: a test is true, false or NULL on a row, or
the query fails at it.  A condition fails where one of its tests does, since the query as a whole
does; otherwise AND and OR are those of three-valued logic.

Two readings are enough for most purposes: that a condition goes through (`Through`), and that it
is true (`Holds`).  NULL is then whatever is neither.  `Means` keeps both for a list of conditions,
and conditions are described by composing it.  `Over` says which tests a condition is made of: it
gives the same where they do.
-/

namespace Condition

open List

/-- What a test gives: nothing when the query fails, NULL as the inner `none`. -/
abbrev Outcome := Option (Option Bool)

/-- Conditions over tests of type `L`. -/
inductive Cond (L : Type*)
  | lit (b : Bool)
  | test (l : L)
  | and (p q : Cond L)
  | or (p q : Cond L)
  | paren (p : Cond L)
  -- `COALESCE(p, FALSE)`
  | coalesce (p : Cond L)
deriving DecidableEq, Repr

/-- AND of three values. -/
def and3 : Option Bool → Option Bool → Option Bool
  | some false, _ => some false
  | _, some false => some false
  | some true, some true => some true
  | _, _ => none

/-- OR of three values. -/
def or3 : Option Bool → Option Bool → Option Bool
  | some true, _ => some true
  | _, some true => some true
  | some false, some false => some false
  | _, _ => none

namespace Cond

variable {L : Type*}

/-- A failing test fails the query, whatever stands beside it. -/
def eval (val : L → Outcome) : Cond L → Outcome
  | .lit b => some (some b)
  | .test l => val l
  | .and p q =>
    match p.eval val, q.eval val with
    | some a, some b => some (and3 a b)
    | _, _ => none
  | .or p q =>
    match p.eval val, q.eval val with
    | some a, some b => some (or3 a b)
    | _, _ => none
  | .paren p => p.eval val
  | .coalesce p => (p.eval val).map fun b => some (b.getD false)

def joinAnd (p : Cond L) (ps : List (Cond L)) : Cond L := ps.foldl .and p

def joinOr (p : Cond L) (ps : List (Cond L)) : Cond L := ps.foldl .or p

def map {M : Type*} (g : L → M) : Cond L → Cond M
  | .lit b => .lit b
  | .test l => .test (g l)
  | .and p q => .and (p.map g) (q.map g)
  | .or p q => .or (p.map g) (q.map g)
  | .paren p => .paren (p.map g)
  | .coalesce p => .coalesce (p.map g)

/-- Every test satisfies `P`. -/
def Over (P : L → Prop) : Cond L → Prop
  | .lit _ => True
  | .test l => P l
  | .and p q => p.Over P ∧ q.Over P
  | .or p q => p.Over P ∧ q.Over P
  | .paren p => p.Over P
  | .coalesce p => p.Over P

/-- The query does not fail. -/
def Through (val : L → Outcome) (p : Cond L) : Prop := ∃ b, p.eval val = some b

def Holds (val : L → Outcome) (p : Cond L) : Prop := p.eval val = some (some true)

variable {val : L → Outcome} {p q : Cond L} {ps : List (Cond L)}

attribute [local simp] eval

theorem Holds.through (h : Holds val p) : Through val p := ⟨_, h⟩

@[simp] theorem through_lit (b : Bool) : Through val (.lit b) := ⟨_, rfl⟩

@[simp] theorem holds_lit {b : Bool} : Holds val (.lit b) ↔ b = true := by simp [Holds]

@[simp] theorem through_paren : Through val (.paren p) ↔ Through val p := Iff.rfl

@[simp] theorem holds_paren : Holds val (.paren p) ↔ Holds val p := Iff.rfl

@[simp] theorem through_and : Through val (.and p q) ↔ Through val p ∧ Through val q := by
  unfold Through
  cases hp : p.eval val <;> cases hq : q.eval val <;> simp [hp, hq]

@[simp] theorem through_or : Through val (.or p q) ↔ Through val p ∧ Through val q := by
  unfold Through
  cases hp : p.eval val <;> cases hq : q.eval val <;> simp [hp, hq]

theorem and3_eq_true {a b : Option Bool} :
    and3 a b = some true ↔ a = some true ∧ b = some true := by
  rcases a with _ | _ | _ <;> rcases b with _ | _ | _ <;> simp [and3]

theorem or3_eq_true {a b : Option Bool} : or3 a b = some true ↔ a = some true ∨ b = some true := by
  rcases a with _ | _ | _ <;> rcases b with _ | _ | _ <;> simp [or3]

@[simp] theorem holds_and : Holds val (.and p q) ↔ Holds val p ∧ Holds val q := by
  unfold Holds
  cases hp : p.eval val <;> cases hq : q.eval val <;> simp [hp, hq, and3_eq_true]

theorem holds_or (hp : Through val p) (hq : Through val q) :
    Holds val (.or p q) ↔ Holds val p ∨ Holds val q := by
  obtain ⟨a, ha⟩ := hp
  obtain ⟨b, hb⟩ := hq
  simp [Holds, ha, hb, or3_eq_true]

@[simp] theorem holds_coalesce : Holds val (.coalesce p) ↔ Holds val p := by
  unfold Holds
  cases hp : p.eval val with
  | none => simp [hp]
  | some b => rcases b with _ | _ | _ <;> simp [hp]

/-- What a joined condition has exactly when both parts have it, a joined list has when all have. -/
theorem foldl_iff {op : Cond L → Cond L → Cond L} {S : Cond L → Prop}
    (hop : ∀ p q, S (op p q) ↔ S p ∧ S q) : S (ps.foldl op p) ↔ S p ∧ ∀ q ∈ ps, S q := by
  induction ps generalizing p with
  | nil => simp
  | cons q ps ih => rw [foldl_cons, ih, hop, forall_mem_cons, and_assoc]

theorem through_joinAnd : Through val (joinAnd p ps) ↔ Through val p ∧ ∀ q ∈ ps, Through val q :=
  foldl_iff fun _ _ => through_and

theorem holds_joinAnd : Holds val (joinAnd p ps) ↔ Holds val p ∧ ∀ q ∈ ps, Holds val q :=
  foldl_iff fun _ _ => holds_and

theorem through_joinOr : Through val (joinOr p ps) ↔ Through val p ∧ ∀ q ∈ ps, Through val q :=
  foldl_iff fun _ _ => through_or

theorem holds_joinOr (hp : Through val p) (hps : ∀ q ∈ ps, Through val q) :
    Holds val (joinOr p ps) ↔ Holds val p ∨ ∃ q ∈ ps, Holds val q := by
  induction ps generalizing p with
  | nil => simp [joinOr]
  | cons q ps ih =>
    rw [forall_mem_cons] at hps
    have hcons : joinOr p (q :: ps) = joinOr (.or p q) ps := rfl
    rw [hcons, ih (through_or.2 ⟨hp, hps.1⟩) hps.2, holds_or hp hps.1, or_assoc]
    simp

/-! ## Conditions over some of the tests -/

section Over
variable {M : Type*} {P Q : L → Prop} {val' : L → Outcome}

theorem eval_map {g : L → M} {val : M → Outcome} : (p.map g).eval val = p.eval (val ∘ g) := by
  induction p with
  | lit b => rfl
  | test l => rfl
  | and p q hp hq | or p q hp hq => simp only [map, eval, hp, hq]
  | paren p hp => exact hp
  | coalesce p hp => simp only [map, eval, hp]

theorem over_map {g : L → M} {P : M → Prop} : (p.map g).Over P ↔ p.Over (P ∘ g) := by
  induction p with
  | lit b | test l => exact Iff.rfl
  | and p q hp hq | or p q hp hq => exact and_congr hp hq
  | paren p hp | coalesce p hp => exact hp

theorem Over.mono (h : p.Over P) (himp : ∀ l, P l → Q l) : p.Over Q := by
  induction p with
  | lit b => trivial
  | test l => exact himp l h
  | and p q hp hq | or p q hp hq => exact ⟨hp h.1, hq h.2⟩
  | paren p hp => exact hp h
  | coalesce p hp => exact hp h

theorem over_joinAnd : (joinAnd p ps).Over P ↔ p.Over P ∧ ∀ q ∈ ps, q.Over P :=
  foldl_iff fun _ _ => Iff.rfl

theorem over_joinOr : (joinOr p ps).Over P ↔ p.Over P ∧ ∀ q ∈ ps, q.Over P :=
  foldl_iff fun _ _ => Iff.rfl

/-- A condition gives the same where its tests do. -/
theorem Over.eval_congr (h : p.Over P) (hval : ∀ l, P l → val l = val' l) :
    p.eval val = p.eval val' := by
  induction p with
  | lit b => rfl
  | test l => exact hval l h
  | and p q hp hq | or p q hp hq => simp only [eval, hp h.1, hq h.2]
  | paren p hp => exact hp h
  | coalesce p hp => simp only [eval, hp h]

theorem holds_congr (h : p.eval val = p.eval val') :
    Holds val p ↔ Holds val' p := by
  unfold Holds
  rw [h]

theorem Over.isSome_congr (h : p.Over P) (hval : ∀ l, P l → (val l).isSome = (val' l).isSome) :
    (p.eval val).isSome = (p.eval val').isSome := by
  induction p with
  | lit b => rfl
  | test l => exact hval l h
  | and p q hp hq | or p q hp hq =>
    have hp := hp h.1
    have hq := hq h.2
    simp only [eval]
    cases h₁ : p.eval val <;> cases h₂ : p.eval val' <;> cases h₃ : q.eval val <;>
      cases h₄ : q.eval val' <;> simp_all
  | paren p hp => exact hp h
  | coalesce p hp => simpa [eval] using hp h

end Over

/-! ## What conditions mean

A list of conditions that all have to hold is described by two propositions: when none of them
fails the query (`reads`), and when, none failing, all of them hold (`asks`). -/

instance : Decidable (Holds val p) := inferInstanceAs (Decidable (_ = _))

structure Means (val : L → Outcome) (ps : List (Cond L)) (reads asks : Prop) : Prop where
  through : (∀ p ∈ ps, Through val p) ↔ reads
  holds : reads → ((∀ p ∈ ps, Holds val p) ↔ asks)

namespace Means

variable {qs : List (Cond L)} {reads asks reads' asks' : Prop}

theorem nil : Means val [] True True := ⟨by simp, by simp⟩

theorem append (hps : Means val ps reads asks) (hqs : Means val qs reads' asks') :
    Means val (ps ++ qs) (reads ∧ reads') (asks ∧ asks') := by
  constructor
  · rw [forall_mem_append, hps.through, hqs.through]
  rintro ⟨hreads, hreads'⟩
  rw [forall_mem_append, hps.holds hreads, hqs.holds hreads']

theorem test {l : L} (hreads : (∃ b, val l = some b) ↔ reads)
    (hasks : reads → (val l = some (some true) ↔ asks)) : Means val [.test l] reads asks := by
  refine ⟨?_, fun h => ?_⟩
  · rw [forall_mem_singleton]
    exact hreads
  rw [forall_mem_singleton]
  exact hasks h

theorem congr (h : Means val ps reads asks) (hreads : reads ↔ reads')
    (hasks : reads → (asks ↔ asks')) : Means val ps reads' asks' :=
  ⟨h.through.trans hreads, fun hr => (h.holds (hreads.2 hr)).trans (hasks (hreads.2 hr))⟩

end Means
end Cond
end Condition

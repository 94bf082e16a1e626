import BeSdk.Authz.Rows

/-!
# Decisions grow with what is known

Two evaluations of one operation are compared segment by segment.  One grows into the other where
every true segment stays true there with its fields (`Grows`), and lasts where a segment that is not
false has one that is not false (`Lasts`).  Whatever is built by OR over the segments and AND of the
two operations follows, so that facts obtained later, further segments and another order are three
cases of it.
-/

namespace BeSdk.Authz

open Canon List Tri Authz

variable {apd : String → Option Decimal} {parse : String → Option Int} {principal : String}
  {at_ : Int} {segs segs' : List Segment} {facts facts' : String → Fact} {r : Resource}
  {op : String}

/-- False below unknown below true. -/
def Tri.rank : Tri → Nat
  | .false => 0
  | .unknown => 1
  | .true => 2

/-- Facts that were not obtained are replaced. -/
def Refines (facts facts' : String → Fact) : Prop :=
  ∀ dim, facts dim = .unobtained ∨ facts' dim = facts dim

/-- The segment with its atoms in another order. -/
def Segment.Reordered (s s' : Segment) : Prop :=
  s'.operation = s.operation ∧ s'.readFields = s.readFields ∧ s'.valid = s.valid ∧
    s'.pairs.Perm s.pairs

/-- The same segments in any order, each with its atoms in any order. -/
def Reordered (segs segs' : List Segment) : Prop :=
  (∀ s ∈ segs, ∃ s' ∈ segs', s.Reordered s') ∧ ∀ s' ∈ segs', ∃ s ∈ segs, s.Reordered s'

/-! ## One segment -/

theorem evalAtoms_eq_false {pairs : List (String × Atom)} :
    evalAtoms apd principal facts pairs .true = .false ↔
      ∃ p ∈ pairs, p.2.eval apd principal (facts p.1) = .false := by
  suffices hloop : ∀ out ≠ .false, evalAtoms apd principal facts pairs out = .false ↔
      ∃ p ∈ pairs, p.2.eval apd principal (facts p.1) = .false from hloop _ nofun
  induction pairs with
  | nil => simp [evalAtoms]
  | cons p pairs ih =>
    intro out hout
    rw [evalAtoms]
    cases hp : p.2.eval apd principal (facts p.1) <;> simp [hp, ih, hout]

theorem Atom.eval_refines {a : Atom} {dim : String} (h : Refines facts facts')
    (hne : a.eval apd principal (facts dim) ≠ .unknown) :
    a.eval apd principal (facts' dim) = a.eval apd principal (facts dim) := by
  rcases h dim with hnone | hsame
  · by_cases hall : a.kind = .all
    · simp [Atom.eval, hall]
    simp [Atom.eval, hall, hnone] at hne
  rw [hsame]

theorem Segment.eval_refines {s : Segment} (h : Refines facts facts')
    (hne : s.eval apd parse facts principal at_ ≠ .unknown) :
    s.eval apd parse facts' principal at_ = s.eval apd parse facts principal at_ := by
  unfold Segment.eval at hne ⊢
  split
  next hactive =>
    rw [if_pos hactive] at hne
    cases heval : evalAtoms apd principal facts s.pairs .true with
    | unknown => exact absurd heval hne
    | true =>
      rw [evalAtoms_eq_true] at heval ⊢
      refine ⟨rfl, fun p hp => ?_⟩
      rw [Atom.eval_refines h (by simp [heval.2 p hp]), heval.2 p hp]
    | false =>
      rw [evalAtoms_eq_false] at heval ⊢
      obtain ⟨p, hp, heval⟩ := heval
      exact ⟨p, hp, by rw [Atom.eval_refines h (by simp [heval]), heval]⟩
  rfl

theorem Tri.eq_of {t u : Tri} (htrue : t = .true ↔ u = .true) (hfalse : t = .false ↔ u = .false) :
    t = u := by
  cases t <;> cases u <;> simp_all

theorem Segment.Reordered.eval {s s' : Segment} (h : s.Reordered s') :
    s'.eval apd parse facts principal at_ = s.eval apd parse facts principal at_ := by
  obtain ⟨-, -, hvalid, hperm⟩ := h
  simp only [Segment.eval, Segment.activeAt, hvalid]
  congr 1
  apply eq_of
  · simp only [evalAtoms_eq_true, hperm.mem_iff]
  simp only [evalAtoms_eq_false, hperm.mem_iff]

/-! ## Two evaluations -/

section Compare
variable (apd parse principal at_)

/-- Every true segment is true in the other evaluation, with its fields. -/
def Grows (segs : List Segment) (facts : String → Fact) (segs' : List Segment)
    (facts' : String → Fact) : Prop :=
  ∀ s ∈ segs, s.eval apd parse facts principal at_ = .true →
    ∃ s' ∈ segs', s'.operation = s.operation ∧ s'.eval apd parse facts' principal at_ = .true ∧
      s'.readFields = s.readFields

/-- Every segment that is not false has one in the other evaluation. -/
def Lasts (segs : List Segment) (facts : String → Fact) (segs' : List Segment)
    (facts' : String → Fact) : Prop :=
  ∀ s ∈ segs, s.eval apd parse facts principal at_ ≠ .false →
    ∃ s' ∈ segs', s'.operation = s.operation ∧ s'.eval apd parse facts' principal at_ ≠ .false

end Compare

theorem entitled_eq_false : (entitled apd parse segs op facts principal at_).1 = .false ↔
      ∀ s ∈ segs, s.operation = op → s.eval apd parse facts principal at_ = .false := by
  have hfold : ∀ (l : List Segment) (acc : Tri × List String),
      (l.foldl (entitledNext apd parse facts principal at_) acc).1 = .false ↔
        acc.1 = .false ∧ ∀ s ∈ l, s.eval apd parse facts principal at_ = .false := by
    intro l
    induction l with
    | nil => simp
    | cons s l ih =>
      intro acc
      rw [foldl_cons, ih]
      cases heval : s.eval apd parse facts principal at_ with
      | unknown => by_cases hacc : acc.1 = .false <;> simp [entitledNext, heval, hacc]
      | _ => simp [entitledNext, heval]
  rw [entitled, hfold]
  simp

theorem Grows.entitled (h : Grows apd parse principal at_ segs facts segs' facts')
    (htrue : (entitled apd parse segs op facts principal at_).1 = .true) :
    (entitled apd parse segs' op facts' principal at_).1 = .true := by
  rw [Authz.entitled, entitled_fold.1] at htrue ⊢
  simp only [reduceCtorEq, false_or, mem_filter, decide_eq_true_eq] at htrue ⊢
  obtain ⟨s, ⟨hs, hop⟩, heval⟩ := htrue
  obtain ⟨s', hs', hop', heval', -⟩ := h s hs heval
  exact ⟨s', ⟨hs', hop'.trans hop⟩, heval'⟩

theorem Grows.fields (h : Grows apd parse principal at_ segs facts segs' facts') {f : String}
    (hf : f ∈ (Authz.entitled apd parse segs op facts principal at_).2) :
    f ∈ (Authz.entitled apd parse segs' op facts' principal at_).2 := by
  rw [Authz.entitled, entitled_fold.2] at hf ⊢
  simp only [not_mem_nil, false_or, mem_filter, decide_eq_true_eq] at hf ⊢
  obtain ⟨s, ⟨hs, hop⟩, heval, hf⟩ := hf
  obtain ⟨s', hs', hop', heval', hread⟩ := h s hs heval
  exact ⟨s', ⟨hs', hop'.trans hop⟩, heval', hread ▸ hf⟩

theorem Lasts.entitled (h : Lasts apd parse principal at_ segs facts segs' facts')
    (hfalse : (entitled apd parse segs' op facts' principal at_).1 = .false) :
    (entitled apd parse segs op facts principal at_).1 = .false := by
  rw [entitled_eq_false] at hfalse ⊢
  intro s hs hop
  by_contra hne
  obtain ⟨s', hs', hop', hne'⟩ := h s hs hne
  exact hne' (hfalse s' hs' (hop'.trans hop))

theorem Tri.and_eq_false {a b : Tri} : a.and b = .false ↔ a = .false ∨ b = .false := by
  cases a <;> cases b <;> simp [Tri.and]

/-- The view operation is no special case: AND of one result with itself is that result. -/
theorem evaluate_eq : evaluate apd parse r segs op facts principal at_ =
      let view := entitled apd parse segs r.viewOperation facts principal at_
      let asked := entitled apd parse segs op facts principal at_
      { visible := view.1
        action := view.1.and asked.1
        fields := if view.1 = .true then sortedKeys (asked.2.filter r.shows) else [] } := by
  have hself : ∀ t : Tri, t.and t = t := fun t => by cases t <;> rfl
  by_cases hop : op = r.viewOperation
  · simp [evaluate, hop, hself]
  simp [evaluate, hop]

/-- What is granted is granted where the evaluation grows. -/
theorem Grows.evaluate (r : Resource) (op : String)
    (h : Grows apd parse principal at_ segs facts segs' facts') :
    let d := evaluate apd parse r segs op facts principal at_
    let d' := evaluate apd parse r segs' op facts' principal at_
    (d.visible = .true → d'.visible = .true) ∧ (d.action = .true → d'.action = .true) ∧
      ∀ f ∈ d.fields, f ∈ d'.fields := by
  simp only [evaluate_eq, and_eq_true]
  refine ⟨h.entitled, And.imp h.entitled h.entitled, fun f hf => ?_⟩
  split at hf
  next hvisible =>
    rw [if_pos (h.entitled hvisible), mem_sortedKeys, mem_filter]
    rw [mem_sortedKeys, mem_filter] at hf
    exact ⟨h.fields hf.1, hf.2⟩
  cases hf

/-- What is denied was denied before, where the evaluation lasts. -/
theorem Lasts.evaluate (r : Resource) (op : String)
    (h : Lasts apd parse principal at_ segs facts segs' facts') :
    let d := evaluate apd parse r segs op facts principal at_
    let d' := evaluate apd parse r segs' op facts' principal at_
    (d'.visible = .false → d.visible = .false) ∧ (d'.action = .false → d.action = .false) := by
  simp only [evaluate_eq, and_eq_false]
  exact ⟨h.entitled, Or.imp h.entitled h.entitled⟩

/-! ## Facts, segments and orders -/

theorem Tri.rank_le {t u : Tri} (htrue : t = .true → u = .true) (hfalse : u = .false → t = .false) :
    t.rank ≤ u.rank := by
  cases t <;> cases u <;> simp_all [Tri.rank]

theorem Segment.Reordered.symm {s s' : Segment} (h : s.Reordered s') : s'.Reordered s :=
  ⟨h.1.symm, h.2.1.symm, h.2.2.1.symm, h.2.2.2.symm⟩

variable (apd parse principal at_ facts) in
theorem compares_of_reordered (h : ∀ s ∈ segs, ∃ s' ∈ segs', s.Reordered s') :
    Grows apd parse principal at_ segs facts segs' facts ∧
      Lasts apd parse principal at_ segs facts segs' facts := by
  constructor
  · intro s hs htrue
    obtain ⟨s', hs', h⟩ := h s hs
    exact ⟨s', hs', h.1, h.eval.trans htrue, h.2.1⟩
  intro s hs hne
  obtain ⟨s', hs', h⟩ := h s hs
  exact ⟨s', hs', h.1, h.eval ▸ hne⟩

/-- A fact obtained later changes no decision that was made and takes no field; a further segment
lowers no decision and takes no field; and the order of segments and atoms does not count. -/
theorem evaluate_grows (apd : String → Option Decimal) (parse : String → Option Int) (r : Resource)
    (segs : List Segment) (op : String) (facts : String → Fact) (principal : String) (at_ : Int) :
    let d := evaluate apd parse r segs op facts principal at_
    (∀ facts', Refines facts facts' →
      let d' := evaluate apd parse r segs op facts' principal at_
      (d.visible ≠ .unknown → d'.visible = d.visible) ∧
        (d.action ≠ .unknown → d'.action = d.action) ∧ ∀ f ∈ d.fields, f ∈ d'.fields) ∧
    (∀ segs', segs ⊆ segs' →
      let d' := evaluate apd parse r segs' op facts principal at_
      d.visible.rank ≤ d'.visible.rank ∧ d.action.rank ≤ d'.action.rank ∧
        ∀ f ∈ d.fields, f ∈ d'.fields) ∧
    ∀ segs', Reordered segs segs' → evaluate apd parse r segs' op facts principal at_ = d := by
  refine ⟨fun facts' href => ?_, fun segs' hsub => ?_, fun segs' hre => ?_⟩
  · have hgrows : Grows apd parse principal at_ segs facts segs facts' := fun s hs htrue =>
      ⟨s, hs, rfl, by rw [Segment.eval_refines href (by simp [htrue]), htrue], rfl⟩
    have hlasts : Lasts apd parse principal at_ segs facts' segs facts := fun s hs hne =>
      ⟨s, hs, rfl, fun hfalse => hne (by rw [Segment.eval_refines href (by simp [hfalse]), hfalse])⟩
    have hsame : ∀ t t' : Tri, (t = .true → t' = .true) → (t = .false → t' = .false) →
        t ≠ .unknown → t' = t := by
      intro t t' htrue hfalse hne
      cases t <;> simp_all
    have hg := hgrows.evaluate r op
    have hl := hlasts.evaluate r op
    exact ⟨hsame _ _ hg.1 hl.1, hsame _ _ hg.2.1 hl.2, hg.2.2⟩
  · have hgrows : Grows apd parse principal at_ segs facts segs' facts := fun s hs htrue =>
      ⟨s, hsub hs, rfl, htrue, rfl⟩
    have hlasts : Lasts apd parse principal at_ segs facts segs' facts := fun s hs hne =>
      ⟨s, hsub hs, rfl, hne⟩
    have hg := hgrows.evaluate r op
    have hl := hlasts.evaluate r op
    exact ⟨rank_le hg.1 hl.1, rank_le hg.2.1 hl.2, hg.2.2⟩
  obtain ⟨hgrows, hlasts⟩ := compares_of_reordered apd parse principal at_ facts hre.1
  obtain ⟨hgrows', hlasts'⟩ := compares_of_reordered apd parse principal at_ facts fun s' hs' =>
    (hre.2 s' hs').imp fun s => And.imp_right Segment.Reordered.symm
  have hresult : ∀ op, (entitled apd parse segs' op facts principal at_).1 =
      (entitled apd parse segs op facts principal at_).1 := fun op =>
    eq_of ⟨hgrows'.entitled, hgrows.entitled⟩ ⟨hlasts.entitled, hlasts'.entitled⟩
  have hkeys : ∀ op,
      sortedKeys ((entitled apd parse segs' op facts principal at_).2.filter r.shows) =
        sortedKeys ((entitled apd parse segs op facts principal at_).2.filter r.shows) := by
    intro op
    have hfields : ∀ f, f ∈ (entitled apd parse segs' op facts principal at_).2 ↔
        f ∈ (entitled apd parse segs op facts principal at_).2 := fun f =>
      ⟨hgrows'.fields, hgrows.fields⟩
    rw [sortedKeys, sortedKeys]
    congr 1
    ext f
    simp only [mem_toFinset, mem_filter, hfields]
  simp only [evaluate_eq, hresult, hkeys]

end BeSdk.Authz

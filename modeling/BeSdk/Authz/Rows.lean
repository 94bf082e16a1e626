import BeSdk.Authz.Sql

/-!
# Rows and what they match

The same segments decide one record (`evaluate`) and a list (`compile`).  Both can be compared once
it is said what a segment asks of a table row: `Segment.Matches`, over the row's columns and with
amounts as numbers.  This file reads a record's facts from a row and shows that `evaluate` decides
exactly that.

A NULL column is a known null, and an amount is one when its currency is.  The value of an amount is
the text of its `numeric`.
-/

namespace BeSdk.Authz

open Canon List

section
variable (num : Numbers) (row : String → Cell)

def Dimension.fact (d : Dimension) : Fact :=
  match d.kind, row d.column, row d.currencyColumn with
  | .amount, .numeric (some n), .text (some currency) => .value (num.out n) currency
  | .amount, _, _ => .null
  | _, .text (some v), _ | _, .typed _ (some v), _ => .value v
  | _, _, _ => .null

def Resource.facts (r : Resource) (dim : String) : Fact :=
  match r.dimensions.lookup dim with
  | none => .unobtained
  | some d => d.fact num row

/-- The text of a column's value. -/
def Cell.shown : Cell → Option String
  | .text v | .typed _ v => v
  | .numeric v => v.map num.out

/-- An amount is read back from its text, by PostgreSQL and by apd. -/
def Numbers.ReadsBack (n : Numeric) : Prop :=
  num.numeric (num.out n) = some (n.value : WithTop Number) ∧
    ∃ d, num.apd (num.out n) = some d ∧ d.value = n.value

/-- The columns of a dimension have the types the dimension needs: a `numeric` and a text for an
amount, a text for a path, and otherwise a text or another type whose values are read back. -/
structure Dimension.Stored (d : Dimension) : Prop where
  amount : d.kind = .amount → (∃ v, row d.column = .numeric v ∧ ∀ n ∈ v, num.ReadsBack n) ∧
    ∃ currency, row d.currencyColumn = .text currency
  tree : d.kind = .orgTree → ∃ v, row d.column = .text v
  other : d.kind ≠ .amount → ∃ v, row d.column = .text v ∨
    ∃ type, row d.column = .typed type v ∧ ∀ t ∈ v, num.read type t = some t

def Resource.Stored (r : Resource) : Prop :=
  ∀ dim d, r.dimensions.lookup dim = some d → d.Stored num row

theorem Resource.dimension_eq {r : Resource} {dim : String} {d : Dimension}
    (hdim : r.dimensions.lookup dim = some d) : r.dimension dim = d := by
  rw [Resource.dimension, hdim, Option.getD_some]

theorem Resource.facts_eq {r : Resource} {dim : String} {d : Dimension}
    (hdim : r.dimensions.lookup dim = some d) : r.facts num row dim = d.fact num row := by
  rw [Resource.facts, hdim]

/-! ## What is asked of a row -/

def Atom.Contains (a : Atom) (x : Number) : Prop :=
  (∀ b ∈ a.lo, ∃ d, num.apd b = some d ∧ (d.value < x ∨ a.loClosed = some true ∧ x = d.value)) ∧
    ∀ b ∈ a.hi, ∃ d, num.apd b = some d ∧ (x < d.value ∨ a.hiClosed = some true ∧ x = d.value)

variable (principal : String)

/-- What an atom asks of its dimension's columns. -/
def Atom.Matches (a : Atom) (d : Dimension) : Prop :=
  match a.kind with
  | .all => True
  | .within => ∃ v currency, d.fact num row = .value v currency ∧ v ∈ a.values
  | .self => ∃ currency, d.fact num row = .value principal currency
  | .tree => ∃ v currency, d.fact num row = .value v currency ∧ v ≠ "" ∧
      ∃ it ∈ a.items, it.covers v = true
  | .interval => ∃ n, row d.column = .numeric (some n) ∧
      row d.currencyColumn = .text (some a.currency) ∧ a.Contains num n.value
  | .unknown _ => False

def Segment.Matches (s : Segment) (r : Resource) : Prop :=
  ∀ p ∈ s.pairs, p.2.Matches num row principal (r.dimension p.1)

end

/-! ## One atom -/

section
variable {num : Numbers} {row : String → Cell} {principal : String}

@[simp] theorem Tri.ofBool_eq_true {b : Bool} : Tri.ofBool b = .true ↔ b = Bool.true := by
  cases b <;> simp [Tri.ofBool]

variable {d : Dimension}

/-- An amount is obtained where its column and its currency's are not NULL. -/
theorem Dimension.fact_amount (hkind : d.kind = .amount)
    (hstored : d.Stored num row) (v currency : String) :
    d.fact num row = .value v currency ↔ ∃ n, row d.column = .numeric (some n) ∧
      row d.currencyColumn = .text (some currency) ∧ num.out n = v := by
  obtain ⟨⟨amount, hamount, -⟩, cur, hcur⟩ := hstored.amount hkind
  unfold Dimension.fact
  rw [hkind, hamount, hcur]
  rcases amount with _ | n <;> rcases cur with _ | cur <;> simp
  exact and_comm

theorem Dimension.fact_shown (hkind : d.kind ≠ .amount)
    (hstored : d.Stored num row) (v currency : String) :
    d.fact num row = .value v currency ↔ (row d.column).shown num = some v ∧ currency = "" := by
  unfold Dimension.fact
  obtain ⟨cell, hcell | ⟨type, hcell, -⟩⟩ := hstored.other hkind
  all_goals
    rw [hcell]
    cases hk : d.kind with
    | amount => contradiction
    | _ => cases cell <;> simp [Cell.shown, eq_comm]

theorem withinBound_iff {amount : Decimal} {inner : Ordering} {b : Option String}
    {closed : Option Bool} :
    withinBound num.apd amount inner b closed = .true ↔ ∀ t ∈ b, ∃ d, num.apd t = some d ∧
      (compare amount.value d.value = inner ∨ closed = some true ∧ amount.value = d.value) := by
  cases b with
  | none => simp [withinBound]
  | some t =>
    cases hd : num.apd t with
    | none => simp [withinBound, hd]
    | some d =>
      have hclosed : closed.getD false = true ↔ closed = some true := by cases closed <;> simp
      simp only [withinBound, hd, Tri.ofBool_eq_true, Decimal.cmp, compare_eq_iff_eq, hclosed,
        decide_eq_true_eq]
      simp [and_comm, hd]

theorem Atom.interval_eq_true {a : Atom} {n : Numeric} {currency : String}
    (hback : num.ReadsBack n) : a.interval num.apd (num.out n) currency = .true ↔
      currency = a.currency ∧ a.Contains num n.value := by
  obtain ⟨-, d, hd, hvalue⟩ := hback
  unfold Atom.interval Atom.Contains
  have hlo : withinBound num.apd d .gt a.lo a.loClosed = .true ↔ _ := withinBound_iff
  have hhi : withinBound num.apd d .lt a.hi a.hiClosed = .true ↔ _ := withinBound_iff
  simp only [compare_gt_iff_gt, compare_lt_iff_lt, hvalue] at hlo hhi
  rw [← hlo, ← hhi, hd]
  by_cases hcur : currency = a.currency
  · simp only [hcur, ne_eq, not_true_eq_false, if_false, true_and]
    cases withinBound num.apd d .gt a.lo a.loClosed <;> simp
  simp [hcur]

/-- **One atom.**  It is true on the row's fact when the row is as it asks. -/
theorem Atom.eval_eq_true {a : Atom} (hfits : a.Fits d)
    (hstored : d.Stored num row) : a.eval num.apd principal (d.fact num row) = .true ↔
      a.Matches num row principal d := by
  unfold Atom.eval Atom.Matches
  cases hkind : a.kind with
  | all => simp
  | unknown text => exact absurd hkind (hfits.known text)
  | within | self => cases hfact : d.fact num row <;> simp
  | tree =>
    cases hfact : d.fact num row with
    | value v currency =>
      by_cases hempty : v = ""
      · simp [hempty]
      simp [hempty]
    | _ => simp
  | interval =>
    have hamount := (hfits.interval hkind).1
    have hfact := Dimension.fact_amount hamount hstored
    cases hd : d.fact num row with
    | value v currency =>
      obtain ⟨n, hn, hcur, rfl⟩ := (hfact v currency).1 hd
      have hback := (hstored.amount hamount).1
      rw [hn] at hback
      obtain ⟨_, ⟨rfl⟩, hback⟩ := hback
      simp [hn, hcur, Atom.interval_eq_true (hback n rfl)]
    | _ =>
      simp only [if_false, reduceCtorEq, false_iff]
      rintro ⟨n, hn, hcur, -⟩
      rw [(hfact _ _).2 ⟨n, hn, hcur, rfl⟩] at hd
      cases hd

end

/-! ## Segments and subjects -/

section
variable {num : Numbers} {row : String → Cell} {r : Resource} {principal : String} {s : Segment}

theorem Tri.and_eq_true {a b : Tri} : a.and b = .true ↔ a = .true ∧ b = .true := by
  cases a <;> cases b <;> simp [Tri.and]

theorem mem_sortedKeys {keys : List String} {f : String} : f ∈ sortedKeys keys ↔ f ∈ keys := by
  simp [sortedKeys]

theorem evalAtoms_eq_true {apd : String → Option Decimal} {facts : String → Fact}
    {pairs : List (String × Atom)} {out : Tri} : evalAtoms apd principal facts pairs out = .true ↔
      out = .true ∧ ∀ p ∈ pairs, p.2.eval apd principal (facts p.1) = .true := by
  induction pairs generalizing out with
  | nil => simp [evalAtoms]
  | cons p pairs ih =>
    rw [evalAtoms]
    cases hp : p.2.eval apd principal (facts p.1) <;> simp [hp, ih]

theorem Segment.eval_eq_true {parse : String → Option Int} {at_ : Int} (hs : s.Fits r)
    (hrow : r.Stored num row) : s.eval num.apd parse (r.facts num row) principal at_ = .true ↔
      s.activeAt parse at_ = true ∧ s.Matches num row principal r := by
  unfold Segment.eval Segment.Matches
  by_cases hactive : s.activeAt parse at_ = true
  · simp only [hactive, if_true, evalAtoms_eq_true, true_and]
    refine forall₂_congr fun p hp => ?_
    obtain ⟨d, hd, hfits⟩ := hs.atom hp
    rw [Resource.facts_eq num row hd, Resource.dimension_eq hd]
    exact Atom.eval_eq_true hfits (hrow _ _ hd)
  simp [hactive]

/-- The loop of entitled: entitled before, or by one of the segments still to come. -/
theorem entitled_fold {apd : String → Option Decimal} {parse : String → Option Int}
    {facts : String → Fact} {at_ : Int} {segs : List Segment} {acc : Tri × List String} :
    let out := segs.foldl (entitledNext apd parse facts principal at_) acc
    (out.1 = .true ↔ acc.1 = .true ∨ ∃ s ∈ segs, s.eval apd parse facts principal at_ = .true) ∧
      ∀ f, f ∈ out.2 ↔ f ∈ acc.2 ∨
        ∃ s ∈ segs, s.eval apd parse facts principal at_ = .true ∧ f ∈ s.readFields := by
  induction segs generalizing acc with
  | nil => simp
  | cons s segs ih =>
    obtain ⟨hout, hfields⟩ := @ih (entitledNext apd parse facts principal at_ acc s)
    refine ⟨hout.trans ?_, fun f => (hfields f).trans ?_⟩
    · cases heval : s.eval apd parse facts principal at_ with
      | unknown => by_cases hacc : acc.1 = .false <;> simp [entitledNext, heval, hacc]
      | _ => simp [entitledNext, heval]
    · cases heval : s.eval apd parse facts principal at_ <;>
        simp [entitledNext, heval, or_assoc]

variable {parse : String → Option Int} {segs : List Segment} {at_ : Int}

variable (num row r principal parse segs at_) in
def Entitled (op : String) : Prop :=
  ∃ s ∈ activeFor parse segs at_ op, s.Matches num row principal r

variable {op : String}

theorem mem_activeFor : s ∈ activeFor parse segs at_ op ↔
      s ∈ segs ∧ s.operation = op ∧ s.activeAt parse at_ = true := by
  simp [activeFor]

variable (hsegs : ∀ s ∈ segs, s.Fits r) (hrow : r.Stored num row)
include hsegs hrow

theorem mem_segs_eval : (s ∈ segs ∧ s.operation = op) ∧
      s.eval num.apd parse (r.facts num row) principal at_ = .true ↔
    s ∈ activeFor parse segs at_ op ∧ s.Matches num row principal r := by
  rw [mem_activeFor]
  constructor
  · rintro ⟨⟨hmem, hop⟩, heval⟩
    obtain ⟨hactive, hmatches⟩ := (Segment.eval_eq_true (hsegs s hmem) hrow).1 heval
    exact ⟨⟨hmem, hop, hactive⟩, hmatches⟩
  rintro ⟨⟨hmem, hop, hactive⟩, hmatches⟩
  exact ⟨⟨hmem, hop⟩, (Segment.eval_eq_true (hsegs s hmem) hrow).2 ⟨hactive, hmatches⟩⟩

theorem entitled_iff : (entitled num.apd parse segs op (r.facts num row) principal at_).1 = .true ↔
      Entitled num row r principal parse segs at_ op := by
  rw [entitled, entitled_fold.1]
  simp only [reduceCtorEq, false_or, mem_filter, decide_eq_true_eq]
  exact exists_congr fun s => mem_segs_eval hsegs hrow

theorem mem_entitled {f : String} :
    f ∈ (entitled num.apd parse segs op (r.facts num row) principal at_).2 ↔
      ∃ s ∈ activeFor parse segs at_ op, s.Matches num row principal r ∧ f ∈ s.readFields := by
  rw [entitled, entitled_fold.2]
  simp only [not_mem_nil, false_or, mem_filter, decide_eq_true_eq, ← and_assoc]
  exact exists_congr fun s => and_congr_left fun _ => mem_segs_eval hsegs hrow

/-- **One record.**  It is visible and permitted when the subject is entitled to both operations. -/
theorem evaluate_iff :
    (let d := evaluate num.apd parse r segs op (r.facts num row) principal at_
     d.visible = .true ∧ d.action = .true) ↔
      Entitled num row r principal parse segs at_ r.viewOperation ∧
        Entitled num row r principal parse segs at_ op := by
  rw [← entitled_iff hsegs hrow, ← entitled_iff hsegs hrow]
  by_cases hop : op = r.viewOperation
  · simp [evaluate, hop]
  simp [evaluate, hop, Tri.and_eq_true]

/-- The fields of a visible record: those of the operation's segments that match. -/
theorem mem_evaluate_fields (op : String)
    (hview : Entitled num row r principal parse segs at_ r.viewOperation) (f : String) :
    f ∈ (evaluate num.apd parse r segs op (r.facts num row) principal at_).fields ↔
      ∃ s ∈ activeFor parse segs at_ op, s.Matches num row principal r ∧ f ∈ s.readFields ∧
        r.shows f = true := by
  rw [← entitled_iff hsegs hrow] at hview
  have hasked : (if op ≠ r.viewOperation then
      entitled num.apd parse segs op (r.facts num row) principal at_
      else entitled num.apd parse segs r.viewOperation (r.facts num row) principal at_) =
      entitled num.apd parse segs op (r.facts num row) principal at_ := by
    split
    · rfl
    next hop => rw [not_not.mp hop]
  simp only [evaluate, hview, if_true, hasked, mem_sortedKeys, mem_filter]
  rw [mem_entitled hsegs hrow]
  constructor
  · rintro ⟨⟨s, hs, hmatches, hf⟩, hshows⟩
    exact ⟨s, hs, hmatches, hf, hshows⟩
  rintro ⟨s, hs, hmatches, hf, hshows⟩
  exact ⟨⟨s, hs, hmatches, hf⟩, hshows⟩

theorem evaluate_fields_iff
    (hview : Entitled num row r principal parse segs at_ r.viewOperation) (keys : List String) :
    sortedKeys keys = (evaluate num.apd parse r segs op (r.facts num row) principal at_).fields ↔
      ∀ f, f ∈ keys ↔ ∃ s ∈ activeFor parse segs at_ op, s.Matches num row principal r ∧
        f ∈ s.readFields ∧ r.shows f = true := by
  have hmem := mem_evaluate_fields hsegs hrow op hview
  obtain ⟨shown, hshown⟩ : ∃ shown, (evaluate num.apd parse r segs op (r.facts num row) principal
      at_).fields = sortedKeys shown := by
    rw [← entitled_iff hsegs hrow] at hview
    simp only [evaluate, hview, if_true]
    exact ⟨_, rfl⟩
  rw [hshown] at hmem ⊢
  simp only [← hmem, mem_sortedKeys]
  constructor
  · intro heq f
    rw [← mem_sortedKeys, heq, mem_sortedKeys]
  intro hkeys
  have hsets : keys.toFinset = shown.toFinset := Finset.ext fun f => by simp [hkeys f]
  rw [sortedKeys, hsets, sortedKeys]

end
end BeSdk.Authz

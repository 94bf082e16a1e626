import BeSdk.Authz.Columns
import BeSdk.Library.Pairwise
import BeSdk.Listing.Page

/-!
# Lists tell nothing of what they do not show

Two tables that differ only in the values of a field, in rows that do not show it, give the same
page: the same rows in the same order, with the same next cursor.  Nothing a caller may ask of a
list tells the two apart, whatever the filters, sort keys, search and cursor.

The argument is a dichotomy.  The columns that hold the field are read by no condition of the
authorization.  If a filter, a sort key or a search column reads one of them, Build has made sure
that the list is narrowed to rows that show the field, or that every segment reads it (`Granted`);
then a row that does not show the field is not listed, in neither table.  Otherwise no condition
and no sort key reads them, and every row is listed and ordered in one table as in the other.

* **Build.**  `Allows` is what the checks of Build leave: which columns a filter, a search or a
  sort key may read.  Each part of the query keeps to them, and `build_ok` collects what the
  comparison needs.
* **Rows.**  `Built.lists_congr` and `Built.agree` compare a row with its counterpart.
* **Pages.**  A filter, a sort and a cut keep the rows related one by one.

A value that cannot be read fails the query for both tables, since reading it depends on the column
and not on the row.
-/

namespace BeSdk.Listing

open Condition Cond List

variable {C V : Type}

/-! ## Tests and their columns -/

def Test.column : Test → String
  | .plan t => t.column
  | .compare _ col _ _ | .eqAny col _ _ | .like col _ => col.name

theorem Test.eval_congr {db : Database C V} {args : List Authz.Arg} {row row' : Row C} {t : Test}
    (h : row t.column = row' t.column) : t.eval db args row = t.eval db args row' := by
  cases t with
  | plan t =>
    exact @Authz.Test.eval_congr db.num (fun c => db.cell (row c))
      (fun c => db.cell (row' c)) args
      t (congrArg db.cell h)
  | compare op col n kind | eqAny col n kind | like col n =>
    simp only [Test.eval, show row col.name = row' col.name from h]

/-- A test of the list's own, on one of these columns. -/
def Test.Own (P : String → Prop) : Test → Prop
  | .plan _ => False
  | t => P t.column

/-- A test of the authorization on a column of `P`, or one of the list's own on a column of `Q`. -/
def Test.On (P Q : String → Prop) : Test → Prop
  | .plan t => P t.column
  | t => Q t.column

/-- Whether a test of the list's own fails is a matter of its arguments. -/
theorem Test.On.isSome_congr {P Q : String → Prop} {db : Database C V} {args : List Authz.Arg}
    {row row' : Row C} (hsame : ∀ c, P c → row c = row' c) {t : Test} (ht : t.On P Q) :
    (t.eval db args row).isSome = (t.eval db args row').isSome := by
  cases t with
  | plan t => rw [Test.eval_congr (t := .plan t) (hsame t.column ht)]
  | compare op col n kind | eqAny col n kind =>
    simp only [Test.eval]
    split <;> simp
  | like col n =>
    simp only [Test.eval]
    split <;> rfl

variable {ps : List (Cond Test)} {spec : Spec} {texts : Texts} {f : String} {holds : String → Prop}

theorem over_joinAll {P : Test → Prop} : (joinAll ps).Over P ↔ ∀ p ∈ ps, p.Over P := by
  cases ps with
  | nil => simp [joinAll, Cond.Over]
  | cons p ps =>
    rw [forall_mem_cons]
    exact over_joinAnd

theorem over_joinAny {P : Test → Prop} : (joinAny ps).Over P ↔ ∀ p ∈ ps, p.Over P := by
  cases ps with
  | nil => simp [joinAny, Cond.Over]
  | cons p ps =>
    rw [forall_mem_cons]
    exact over_joinOr

/-! ## What the parts of a query read -/

/-- The columns that filters, searches and sort keys may read. -/
structure Allows (spec : Spec) (usable : String → Bool) (P : String → Prop) : Prop where
  column : ∀ c ∈ spec.columns, usable c.field = true → P c.column
  search : ∀ c ∈ spec.search, c.fields.all usable = true → P c.column
  id : P spec.idColumn

theorem Spec.column_eq_some {field : String} {c : Column}
    (h : spec.column field = some c) : c ∈ spec.columns ∧ c.field = field := by
  refine ⟨mem_reverse.1 (mem_of_find?_eq_some h), ?_⟩
  simpa using find?_some h

section Parts
variable {spec : Spec} {usable : String → Bool} {P : String → Prop} {args args' : List Authz.Arg}

theorem filter_own {c : Column} {f : Filter} {p : Cond Test} (hc : P c.column)
    (hfilter : filter spec c f args = .ok (p, args')) : p.Over (Test.Own P) := by
  unfold filter at hfilter
  dsimp only at hfilter
  split at hfilter
  · split at hfilter <;> cases hfilter
    · trivial
    exact hc
  split at hfilter <;> cases hfilter
  exact hc

section
variable (hallows : Allows spec usable P)
include hallows

theorem filters_own {fs : List Filter} (hfilters : filters spec usable fs args = .ok (ps, args')) :
    ∀ p ∈ ps, p.Over (Test.Own P) := by
  induction fs generalizing args ps with
  | nil =>
    cases hfilters
    simp
  | cons f fs ih =>
    simp only [filters] at hfilters
    split at hfilters
    · cases hfilters
    rename_i c hcolumn
    obtain ⟨hmem, hfield⟩ := Spec.column_eq_some hcolumn
    split at hfilters
    · cases hfilters
    split at hfilters
    · cases hfilters
    rename_i husable
    have hc : P c.column := hallows.column c hmem (by simpa [hfield] using husable)
    split at hfilters
    · cases hfilters
    rename_i p _ hfilter
    split at hfilters <;> cases hfilters
    rename_i ps' _ hrest
    exact forall_mem_cons.2 ⟨filter_own hc hfilter, ih hrest⟩

theorem searched_own {pattern : String} {cs : List SearchColumn}
    (hcs : ∀ c ∈ cs, c ∈ spec.search) (args : List Authz.Arg) :
    ∀ p ∈ (searched spec usable pattern cs args).1, p.Over (Test.Own P) := by
  induction cs generalizing args with
  | nil => simp [searched]
  | cons c cs ih =>
    rw [forall_mem_cons] at hcs
    rw [searched]
    split
    · next hall => exact forall_mem_cons.2 ⟨hallows.search c hcs.1 hall, ih hcs.2 _⟩
    exact ih hcs.2 _

theorem search_own (q : String) (args : List Authz.Arg) :
    ∀ p ∈ (search spec usable q args).1, p.Over (Test.Own P) := by
  unfold search
  split
  · simp
  rw [forall_mem_singleton]
  exact over_joinAny.2 (searched_own hallows (fun c hc => hc) args)

theorem sortKeys_own {os : List Order} {keys : List SortKey}
    (hkeys : sortKeys spec usable os = .ok keys) : ∀ k ∈ keys, P k.column.column := by
  induction os generalizing keys with
  | nil =>
    cases hkeys
    simp
  | cons o os ih =>
    simp only [sortKeys] at hkeys
    split at hkeys
    · cases hkeys
    rename_i c hcolumn
    obtain ⟨hmem, hfield⟩ := Spec.column_eq_some hcolumn
    split at hkeys
    · cases hkeys
    split at hkeys
    · cases hkeys
    rename_i husable
    split at hkeys <;> cases hkeys
    rename_i keys' hrest
    have hc := hallows.column c hmem (by simpa [hfield] using husable)
    exact forall_mem_cons.2 ⟨hc, ih hrest⟩

end

theorem equals_own {ks : List (SortKey × String)} (hks : ∀ k ∈ ks, P k.1.column.column)
    (args : List Authz.Arg) : ∀ p ∈ (equals spec ks args).1, p.Over (Test.Own P) := by
  induction ks generalizing args with
  | nil => simp [equals]
  | cons k ks ih =>
    rw [forall_mem_cons] at hks
    exact forall_mem_cons.2 ⟨hks.1, ih hks.2 _⟩

theorem after_own (hid : P spec.idColumn) {id : String} {before ks : List (SortKey × String)}
    (hbefore : ∀ k ∈ before, P k.1.column.column) (hks : ∀ k ∈ ks, P k.1.column.column)
    (args : List Authz.Arg) : ∀ p ∈ (after spec id before ks args).1, p.Over (Test.Own P) := by
  -- a key's condition: the keys before are equal, and the test of its own
  have hstep : ∀ (before : List (SortKey × String)), (∀ k ∈ before, P k.1.column.column) →
      ∀ (t : Test) (args : List Authz.Arg), t.Own P →
        (joinAll ((equals spec before args).1 ++ [.test t])).Over (Test.Own P) := by
    intro before hbefore t args ht
    refine over_joinAll.2 (forall_mem_append.2 ⟨equals_own hbefore args, ?_⟩)
    rw [forall_mem_singleton]
    exact ht
  induction ks generalizing before args with
  | nil =>
    refine forall_mem_singleton.2 ?_
    exact hstep before hbefore (.compare .gt (spec.col spec.idColumn) _ spec.idKind) args hid
  | cons k ks ih =>
    rw [forall_mem_cons] at hks
    refine forall_mem_cons.2 ⟨?_, ?_⟩
    · exact hstep before hbefore (.compare _ (spec.col k.1.column.column) _ k.1.column.kind) args
        hks.1
    refine ih (forall_mem_append.2 ⟨hbefore, ?_⟩) hks.2 _
    rw [forall_mem_singleton]
    exact hks.1

theorem resume_own {keys : List SortKey} {filterHash planHash raw : String}
    (hid : P spec.idColumn) (hkeys : ∀ k ∈ keys, P k.column.column)
    (hresume : resume texts spec keys filterHash planHash raw args = .ok (ps, args')) :
    ∀ p ∈ ps, p.Over (Test.Own P) := by
  unfold resume at hresume
  split at hresume
  · cases hresume
    simp
  split at hresume
  · cases hresume
  rename_i c _
  split at hresume
  · cases hresume
  split at hresume
  · cases hresume
  split at hresume <;> cases hresume
  rw [forall_mem_singleton]
  refine over_joinAny.2 (after_own hid (by simp) (fun k hk => ?_) _)
  exact hkeys k.1 (of_mem_zip hk).1

end Parts

/-! ## What Build makes sure of -/

/-- The columns with the values of a field (`holds`), apart from what else a list reads: the
dimensions of the authorization, the ID and the other fields.  A search column with its values
names it, and no column has an empty name. -/
structure Apart (r : Authz.Resource) (spec : Spec) (f : String) (holds : String → Prop) : Prop where
  named : ¬ holds ""
  dimension : ∀ dim d, r.dimensions.lookup dim = some d →
    ¬ holds d.column ∧ ¬ holds d.currencyColumn
  id : ¬ holds spec.idColumn
  listed : ∀ c ∈ spec.columns, holds c.column → c.field = f
  search : ∀ c ∈ spec.search, holds c.column → f ∈ c.fields

/-- Every row of the list shows the field: it is narrowed to those that do, or every segment reads
it. -/
def Granted (plan : Authz.Plan) (narrowed : List String) (f : String) : Prop :=
  f ∈ narrowed ∨ plan.readableEverywhere f = true

variable {r : Authz.Resource}

theorem granted_of_usable {plan : Authz.Plan} {narrowed : List String}
    (hclass : r.fields.lookup f ≠ some .ordinary)
    (husable : usable r plan narrowed f = true) : Granted plan narrowed f := by
  unfold usable restricted at husable
  unfold Granted
  by_cases hmem : f ∈ narrowed
  · exact .inl hmem
  simp [hclass, hmem] at husable
  exact .inr husable

theorem Apart.allows (hapart : Apart r spec f holds) (hclass : r.fields.lookup f ≠ some .ordinary)
    (plan : Authz.Plan) (narrowed : List String) :
    Allows spec (usable r plan narrowed) fun c => holds c → Granted plan narrowed f where
  column := fun c hc husable hholds =>
    granted_of_usable hclass (hapart.listed c hc hholds ▸ husable)
  search := fun c hc hall hholds =>
    granted_of_usable hclass (all_eq_true.1 hall f (hapart.search c hc hholds))
  id := fun hholds => absurd hholds hapart.id

theorem Apart.dimensions {spec : Spec} {f : String} {holds : String → Prop}
    (hapart : Apart r spec f holds) (dim : String) :
    ¬ holds (r.dimension dim).column ∧ ¬ holds (r.dimension dim).currencyColumn := by
  unfold Authz.Resource.dimension
  cases hlookup : r.dimensions.lookup dim with
  | none => exact ⟨hapart.named, hapart.named⟩
  | some d => exact hapart.dimension dim d hlookup

/-- What the comparison needs of a query: `granted` tells whether every row of the list shows the
field. -/
structure Built (spec : Spec) (f : String) (holds : String → Prop) (granted : Prop) (q : Query) :
    Prop where
  spec_eq : q.spec = spec
  hits_eq : q.hits = q.plan.hits.map fun h => h.map .plan
  plan : q.plan.Ok fun c => ¬ holds c
  where_ : q.where_.Over (Test.On (fun c => ¬ holds c) fun c => holds c → granted)
  keys : ∀ k ∈ q.keys, holds k.column.column → granted
  shows : granted → ∀ val, q.where_.Holds val → f ∈ q.plan.fields (q.plan.rowHits (val ∘ .plan))

theorem build_ok {subject : Subject} {req : Request} {q : Query}
    (hapart : Apart subject.resource spec f holds)
    (hclass : subject.resource.fields.lookup f ≠ some .ordinary)
    (hbuild : build texts subject spec req = .ok q) : ∃ granted, Built spec f holds granted q := by
  unfold build at hbuild
  dsimp only at hbuild
  generalize (if req.limit = 0 then defaultLimit else req.limit) = limit at hbuild
  split at hbuild
  · cases hbuild
  split at hbuild
  · cases hbuild
  next segs _ =>
  split at hbuild
  · cases hbuild
  next plan hplan =>
  split at hbuild
  · cases hbuild
  next narrowed _ =>
  split at hbuild
  · cases hbuild
  next filtered _ hfiltered =>
  split at hbuild
  · cases hbuild
  next keys hkeys =>
  split at hbuild <;> cases hbuild
  next resumed _ hresumed =>
  have hallows := hapart.allows hclass plan narrowed
  have hok : plan.Ok fun c => ¬ holds c := Authz.compile_reads hapart.dimensions hplan
  have hsorted := sortKeys_own hallows hkeys
  have hown : ∀ p : Cond Test, p.Over (Test.Own fun c => holds c → Granted plan narrowed f) →
      p.Over (Test.On (fun c => ¬ holds c) fun c => holds c → Granted plan narrowed f) := by
    intro p hp
    refine hp.mono fun t ht => ?_
    cases t with
    | plan t => exact ht.elim
    | compare op col n kind => exact ht
    | eqAny col n kind => exact ht
    | like col n => exact ht
  refine ⟨Granted plan narrowed f, rfl, rfl, hok, ?_, hsorted, ?_⟩
  · refine over_joinAnd.2 ⟨over_map.2 hok.where_, fun p hp => ?_⟩
    simp only [mem_append, mem_map] at hp
    rcases hp with ((⟨g, -, rfl⟩ | hp) | hp) | hp
    · exact over_map.2 (hok.readableWhere g)
    · exact hown p (filters_own hallows hfiltered p hp)
    · exact hown p (search_own hallows _ _ p hp)
    exact hown p (resume_own hallows.id hsorted hresumed p hp)
  intro hgranted val hholds
  obtain ⟨hwhere, hrest⟩ := holds_joinAnd.1 hholds
  rcases hgranted with hmem | heverywhere
  · have hnarrow : ((plan.readableWhere f).map Test.plan).Holds val := by
      refine hrest _ ?_
      simp only [mem_append, mem_map]
      exact .inl (.inl (.inl ⟨f, hmem, rfl⟩))
    exact Authz.readableWhere_shows (eval_map.symm.trans hnarrow)
  exact hok.everywhere heverywhere (eval_map.symm.trans hwhere)

/-! ## Rows -/

/-- Two rows that differ only in the values of a field, and not where it is shown. -/
structure SameBut (db : Database C V) (q : Query) (f : String) (holds : String → Prop)
    (r₁ r₂ : Row C) : Prop where
  same : ∀ c, ¬ holds c → r₁ c = r₂ c
  shown : f ∈ q.fields db r₁ → r₁ = r₂

variable {spec : Spec} {f : String} {holds : String → Prop} {granted : Prop} {q : Query}
  {db : Database C V} {r₁ r₂ : Row C}

namespace Built

theorem rowHits_eq (hq : Built spec f holds granted q) (row : Row C) :
    q.rowHits db row = q.plan.rowHits (q.val db row ∘ .plan) := by
  unfold Query.rowHits Authz.Plan.rowHits
  rw [hq.hits_eq, map_map]
  refine map_congr_left fun h _ => decide_eq_decide.2 ?_
  unfold Cond.Holds
  rw [eval_map]

/-- The authorization's tests give the same on both. -/
theorem plan_val_congr (hsame : ∀ c, ¬ holds c → r₁ c = r₂ c) {t : Authz.Test}
    (ht : ¬ holds t.column) : (q.val db r₁ ∘ .plan) t = (q.val db r₂ ∘ .plan) t :=
  Test.eval_congr (t := .plan t) (hsame t.column ht)

section
variable (hq : Built spec f holds granted q)
include hq

section
variable (hsame : ∀ c, ¬ holds c → r₁ c = r₂ c)
include hsame

theorem hit_congr {h : Cond Authz.Test} (hh : h ∈ q.plan.hits) :
    h.eval (q.val db r₁ ∘ .plan) = h.eval (q.val db r₂ ∘ .plan) :=
  (hq.plan.hits h hh).eval_congr fun _ ht => plan_val_congr hsame ht

theorem fields_congr : q.fields db r₁ = q.fields db r₂ := by
  unfold Query.fields
  rw [hq.rowHits_eq, hq.rowHits_eq]
  unfold Authz.Plan.rowHits
  congr 1
  exact map_congr_left fun h hh => decide_eq_decide.2 (holds_congr (hq.hit_congr hsame hh))

theorem failsAt_congr : q.failsAt db r₁ = q.failsAt db r₂ := by
  have hwhere : (q.where_.eval (q.val db r₁)).isSome = (q.where_.eval (q.val db r₂)).isSome :=
    hq.where_.isSome_congr fun t ht => ht.isSome_congr hsame
  have hhits : (q.hits.any fun h => (h.eval (q.val db r₁)).isNone) =
      q.hits.any fun h => (h.eval (q.val db r₂)).isNone := by
    rw [hq.hits_eq, any_map, any_map]
    rw [Bool.eq_iff_iff, any_eq_true, any_eq_true]
    refine exists_congr fun h => and_congr_right fun hh => ?_
    simp only [Function.comp_apply, eval_map, hq.hit_congr hsame hh]
  unfold Query.failsAt
  rw [hhits, ← Option.not_isSome, ← Option.not_isSome, hwhere]

end

/-- A list that reads the field shows it in every row. -/
theorem shown_of_lists (hgranted : granted)
    (hlists : q.lists db r₁ = true) : f ∈ q.fields db r₁ := by
  unfold Query.fields
  rw [hq.rowHits_eq]
  exact hq.shows hgranted _ (of_decide_eq_true hlists)

theorem lists_congr (h : SameBut db q f holds r₁ r₂) : q.lists db r₁ = q.lists db r₂ := by
  by_cases hgranted : granted
  · -- a row that does not show the field is in neither list
    by_cases hshown : f ∈ q.fields db r₁
    · rw [h.shown hshown]
    have h₁ : q.lists db r₁ ≠ true := fun hlists => hshown (hq.shown_of_lists hgranted hlists)
    have h₂ : q.lists db r₂ ≠ true := by
      intro hlists
      apply hshown
      rw [hq.fields_congr h.same]
      exact hq.shown_of_lists hgranted hlists
    rw [Bool.eq_false_of_not_eq_true h₁, Bool.eq_false_of_not_eq_true h₂]
  have heval : q.where_.eval (q.val db r₁) = q.where_.eval (q.val db r₂) := by
    refine hq.where_.eval_congr fun t ht => Test.eval_congr (h.same t.column fun hholds => ?_)
    cases t with
    | plan t => exact ht hholds
    | compare op col n kind | eqAny col n kind | like col n => exact hgranted (ht hholds)
  exact decide_eq_decide.2 (holds_congr heval)

theorem keys_congr (h : SameBut db q f holds r₁ r₂) (hlists : q.lists db r₁ = true) :
    ∀ k ∈ q.keys, r₁ k.column.column = r₂ k.column.column := by
  intro k hk
  by_cases hholds : holds k.column.column
  · rw [h.shown (hq.shown_of_lists (hq.keys k hk hholds) hlists)]
  exact h.same _ hholds

end
end Built

/-! ## Pages -/

/-- Two pages with the same rows by their IDs, with the same fields shown and the same values of
them, and the same next cursor. -/
structure SamePage (db : Database C V) (q : Query) (f : String) (holds : String → Prop)
    (p₁ p₂ : List (Row C) × String) : Prop where
  rows : Forall₂ (SameBut db q f holds) p₁.1 p₂.1
  ids : p₁.1.map (fun row => row q.spec.idColumn) = p₂.1.map fun row => row q.spec.idColumn
  fields : p₁.1.map (q.fields db) = p₂.1.map (q.fields db)
  next : p₁.2 = p₂.2

section Pages
variable {t₁ t₂ : List (Row C)}

/-- Rows with the same values of what a page is ordered by and continued from. -/
structure Agree (db : Database C V) (q : Query) (f : String) (holds : String → Prop)
    (r₁ r₂ : Row C) : Prop where
  but : SameBut db q f holds r₁ r₂
  keys : ∀ k ∈ q.keys, r₁ k.column.column = r₂ k.column.column
  id : r₁ q.spec.idColumn = r₂ q.spec.idColumn

theorem Agree.order {r₁ r₂ s₁ s₂ : Row C} (hr : Agree db q f holds r₁ r₂)
    (hs : Agree db q f holds s₁ s₂) : q.order db r₁ s₁ = q.order db r₂ s₂ := by
  unfold Query.order
  rw [hr.id, hs.id]
  refine foldr_ext _ _ _ fun k hk rest => ?_
  rw [hr.keys k hk, hs.keys k hk]

theorem Agree.keysOf (h : Agree db q f holds r₁ r₂) : q.keysOf db r₁ = q.keysOf db r₂ :=
  map_congr_left fun k hk => congrArg db.text (h.keys k hk)

theorem Built.selected (hq : Built spec f holds granted q) (hid : ¬ holds spec.idColumn)
    (h : Forall₂ (SameBut db q f holds) t₁ t₂) :
    Forall₂ (Agree db q f holds) (q.selected db t₁) (q.selected db t₂) := by
  refine forall₂_take _ (Pairwise.forall₂_mergeSort (fun a b a' b' hab hab' => ?_) ?_)
  · rw [hab.order hab']
  refine (Pairwise.forall₂_filter (fun a b hab => hq.lists_congr hab) h).imp ?_
  rintro a b ⟨hab, hlists⟩
  exact ⟨hab, hq.keys_congr hab hlists, hab.same _ (hq.spec_eq ▸ hid)⟩

theorem Built.samePage (hq : Built spec f holds granted q) {rows₁ rows₂ : List (Row C)}
    {next₁ next₂ : String} (hrows : Forall₂ (Agree db q f holds) rows₁ rows₂)
    (hnext : next₁ = next₂) : SamePage db q f holds (rows₁, next₁) (rows₂, next₂) where
  rows := hrows.imp fun _ _ h => h.but
  ids := Pairwise.map_eq_of_forall₂ (fun _ _ h => h.id) hrows
  fields := Pairwise.map_eq_of_forall₂ (fun _ _ h => hq.fields_congr h.but.same) hrows
  next := hnext

end Pages

/-- Lists do not interfere: tables that differ only in a field that is not ordinary, in rows that
do not show it, give the same page, or both fail. -/
theorem hidden_values_do_not_change_a_page {subject : Subject}
    {req : Request} {q : Query} (db : Database C V)
    (hbuild : build texts subject spec req = .ok q)
    (hclass : subject.resource.fields.lookup f = some .restricted ∨
      subject.resource.fields.lookup f = some .secret)
    (hapart : Apart subject.resource spec f holds) {t₁ t₂ : List (Row C)}
    (htables : Forall₂ (SameBut db q f holds) t₁ t₂) :
    Option.Rel (SamePage db q f holds) (q.page db texts t₁) (q.page db texts t₂) := by
  have hclass' : subject.resource.fields.lookup f ≠ some .ordinary := by
    rcases hclass with hclass | hclass <;> rw [hclass] <;> decide
  obtain ⟨granted, hq⟩ := build_ok hapart hclass' hbuild
  have hfails : t₁.any (q.failsAt db) = t₂.any (q.failsAt db) := by
    have hmap : t₁.map (q.failsAt db) = t₂.map (q.failsAt db) :=
      Pairwise.map_eq_of_forall₂ (fun _ _ h => hq.failsAt_congr h.same) htables
    have hany := congrArg (List.any · id) hmap
    simpa [any_map] using hany
  have hselected := hq.selected hapart.id htables
  have hrows := forall₂_take q.limit hselected
  unfold Query.page
  rw [hfails, hselected.length_eq]
  split
  · exact .none
  dsimp only
  split
  · have hlast := Pairwise.forall₂_getLast? hrows
    cases h₁ : ((q.selected db t₁).take q.limit).getLast? with
    | none =>
      rw [h₁] at hlast
      cases h₂ : ((q.selected db t₂).take q.limit).getLast? with
      | none => exact .some (hq.samePage hrows rfl)
      | some r₂ =>
        rw [h₂] at hlast
        cases hlast
    | some r₁ =>
      rw [h₁] at hlast
      cases h₂ : ((q.selected db t₂).take q.limit).getLast? with
      | none =>
        rw [h₂] at hlast
        cases hlast
      | some r₂ =>
        rw [h₂] at hlast
        cases hlast with
        | some hagree =>
          refine .some (hq.samePage hrows ?_)
          rw [hagree.keysOf, hagree.id]
  exact .some (hq.samePage hrows rfl)

/-! ## A list by a cost

Everyone sees every probe, and the cost of their own. -/

def probes : Authz.Resource where
  type := "probe"
  viewOperation := "probe.view"
  dimensions := AList.insert "owner" { kind := .principal, column := "owner" } ∅
  fields := AList.insert "cost" .restricted (AList.singleton "name" .ordinary)

def probeSegment (kind : Authz.AtomKind) (readFields : List String) : Authz.Segment where
  operation := "probe.view"
  atoms := AList.singleton "owner" { kind := kind }
  readFields := readFields
  valid := { from_ := "" }

def probeSubject : Subject where
  resource := probes
  grant := .ok [probeSegment .all ["name"], probeSegment .self ["name", "cost"]]
  principal := "me"
  at_ := 0

def probeList : Spec where
  operation := "probe.view"
  table := "p"
  idColumn := "id"
  idKind := .text
  columns := [{ field := "cost", column := "cost", kind := .text, sortable := true }]
  search := []

/-- The costs from the highest, of the probes that show theirs, after a cursor. -/
def byCost : Request where
  sort := [{ field := "cost", desc := true }]
  cursor := "after 9"
  limit := 1
  readableOnly := ["cost"]

def probeTexts : Texts where
  apd _ := none
  parse _ := some 0
  normalize q := q
  filterDigest _ _ _ _ := "f"
  planDigest _ _ _ := "p"
  decode _ := some { v := 1, keys := ["9"], id := "a", f := "f", p := "p" }
  encode c := c.id

def textColumns : Database String String where
  num :=
    { apd := fun _ => none, out := fun _ => "", numeric := fun _ => none, read := fun _ _ => none }
  cell c := .text (some c)
  read _ _ v := some v
  compare op c v := some <| match op with
    | .eq => c = v
    | .ge => v ≤ c
    | .gt => v < c
    | .le => c ≤ v
    | .lt => c < v
  like _ _ := some false
  order := compare
  text c := c

def probeRow (id owner cost : String) : Row String := fun column =>
  if column = "id" then id else if column = "owner" then owner else if column = "cost" then cost
  else ""

theorem probes_apart : Apart probes probeList "cost" fun c => c = "cost" where
  named := by decide
  dimension := by
    intro dim d hlookup
    unfold probes at hlookup
    by_cases hdim : dim = "owner"
    · rw [hdim, AList.lookup_insert] at hlookup
      cases hlookup
      decide
    rw [AList.lookup_insert_ne hdim, AList.lookup_empty] at hlookup
    cases hlookup
  id := by decide
  listed := by
    intro c hc _
    rw [mem_singleton.1 hc]
  search := nofun

/-- The list is of one's own probes, and another's does not show its cost. -/
theorem build_byCost : ∃ q, build probeTexts probeSubject probeList byCost = .ok q ∧
    q.lists textColumns (probeRow "a" "me" "5") = true ∧
    q.lists textColumns (probeRow "b" "you" "7") = false ∧
    "cost" ∉ q.fields textColumns (probeRow "b" "you" "7") := by
  refine ⟨_, rfl, by decide +kernel, by decide +kernel, fun hshown => ?_⟩
  unfold Query.fields Authz.Plan.fields at hshown
  rw [Authz.mem_sortedKeys] at hshown
  revert hshown
  decide +kernel

/-- Another's cost is no part of the page, whatever it is. -/
theorem costs_of_others_do_not_change_the_page :
    ∃ q, build probeTexts probeSubject probeList byCost = .ok q ∧
      q.lists textColumns (probeRow "a" "me" "5") = true ∧
      q.lists textColumns (probeRow "b" "you" "7") = false ∧
      Option.Rel (SamePage textColumns q "cost" fun c => c = "cost")
        (q.page textColumns probeTexts
          [probeRow "a" "me" "5", probeRow "b" "you" "7", probeRow "c" "me" "3"])
        (q.page textColumns probeTexts
          [probeRow "a" "me" "5", probeRow "b" "you" "1", probeRow "c" "me" "3"]) := by
  obtain ⟨q, hbuild, hmine, hnot, hhidden⟩ := build_byCost
  refine ⟨q, hbuild, hmine, hnot, ?_⟩
  refine hidden_values_do_not_change_a_page textColumns hbuild (.inl rfl) probes_apart ?_
  have hother : SameBut textColumns q "cost" (fun c => c = "cost") (probeRow "b" "you" "7")
      (probeRow "b" "you" "1") := by
    refine ⟨fun c hc => ?_, fun hshown => absurd hshown hhidden⟩
    simp only [probeRow, if_neg hc]
  exact .cons ⟨fun _ _ => rfl, fun _ => rfl⟩
    (.cons hother (.cons ⟨fun _ _ => rfl, fun _ => rfl⟩ .nil))

end BeSdk.Listing

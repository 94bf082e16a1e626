import BeSdk.Authz.Lists

/-!
# What a plan reads and shows

The conditions of a plan read the columns of the resource's dimensions and nothing else
(`Plan.Ok`), and a row that is listed is one where some segment hits.  So a field that every
segment reads is shown by every row of the list (`Plan.Ok.everywhere`), and one the list is
narrowed by is too (`readableWhere_shows`).
-/

namespace BeSdk.Authz

open Condition Cond List

def Test.column : Test → String
  | .eqAny col _ | .eq col _ | .like col _ | .notNull col | .compare _ col _ => col.name

theorem Test.eval_congr {num : Numbers} {row row' : String → Cell} {params : List Arg} {t : Test}
    (h : row t.column = row' t.column) : t.eval num row params = t.eval num row' params := by
  cases t <;> simp only [Test.column] at h <;> simp only [Test.eval, h]

/-! ## The columns of a plan -/

section Columns
variable {P : String → Prop} {c : Compiler} {args args' : List Arg}

abbrev Reads (P : String → Prop) : Cond Test → Prop := Cond.Over fun t => P t.column

variable {ps : List (Cond Test)}

theorem reads_orAll : Reads P (orAll ps) ↔ ∀ p ∈ ps, Reads P p := by
  cases ps with
  | nil => simp [orAll, Reads, Cond.Over]
  | cons p ps =>
    rw [forall_mem_cons]
    exact over_joinOr

theorem reads_andAll : Reads P (andAll ps) ↔ ∀ p ∈ ps, Reads P p := by
  cases ps with
  | nil => simp [andAll, Reads, Cond.Over]
  | cons p ps =>
    rw [forall_mem_cons]
    exact over_joinAnd

theorem reads_treeParts {col : Column} (hcol : P col.name) (items : List TreeItem)
    (args : List Arg) : ∀ p ∈ (c.treeParts col items args).1, Reads P p := by
  induction items generalizing args with
  | nil => simp [Compiler.treeParts]
  | cons it items ih =>
    have hpart : Reads P (c.treePart col it args).1 := by
      unfold Compiler.treePart
      cases it.mode with
      | subtree => exact ⟨hcol, hcol⟩
      | exactly => exact hcol
    intro p hp
    simp only [Compiler.treeParts, mem_cons] at hp
    rcases hp with rfl | hp
    · exact hpart
    exact ih _ p hp

theorem reads_bound {col : Column} (hcol : P col.name) (open_ closed : Compare) (b : Option String)
    (isClosed : Option Bool) (args : List Arg) :
    ∀ p ∈ (c.bound col open_ closed b isClosed args).1, Reads P p := by
  intro p hp
  cases b with
  | none => simp [Compiler.bound] at hp
  | some b =>
    simp only [Compiler.bound, mem_singleton] at hp
    subst hp
    exact hcol

theorem reads_interval {d : Dimension} (hcol : P d.column) (hcurrency : P d.currencyColumn)
    (a : Atom) (args : List Arg) : Reads P (c.interval d a args).1 := by
  have hinterval : (c.interval d a args).1 =
      let lo := c.bound (c.col d.column) .gt .ge a.lo a.loClosed (args ++ [.text a.currency])
      let hi := c.bound (c.col d.column) .lt .le a.hi a.hiClosed lo.2
      andAll ([.test (.notNull (c.col d.column)),
        .test (.eq (c.col d.currencyColumn) (c.next args))] ++ lo.1 ++ hi.1) := rfl
  rw [hinterval]
  refine reads_andAll.2 fun p hp => ?_
  simp only [mem_append, mem_cons, not_mem_nil, or_false] at hp
  rcases hp with ((rfl | rfl) | hp) | hp
  · exact hcol
  · exact hcurrency
  · exact reads_bound hcol _ _ _ _ _ p hp
  exact reads_bound hcol _ _ _ _ _ p hp

variable (hdims : ∀ dim, P (c.r.dimension dim).column ∧ P (c.r.dimension dim).currencyColumn)
include hdims

theorem reads_atom {dim : String} {a : Atom} {p : Option (Cond Test)}
    (hatom : c.atom dim a args = .ok (p, args')) : ∀ q ∈ p, Reads P q := by
  obtain ⟨hcol, hcurrency⟩ := hdims dim
  unfold Compiler.atom at hatom
  dsimp only at hatom
  split at hatom
  · cases hatom
  split at hatom
  · cases hatom
    simp
  · split at hatom <;> cases hatom <;> rintro q ⟨⟩
    · trivial
    exact hcol
  · cases hatom
    rintro q ⟨⟩
    exact hcol
  · cases hatom
    rintro q ⟨⟩
    exact reads_orAll.2 (reads_treeParts hcol a.items args)
  · cases hatom
    rintro q ⟨⟩
    exact reads_interval hcol hcurrency a args
  cases hatom

theorem reads_atoms {pairs : List (String × Atom)}
    (hatoms : c.atoms pairs args = .ok (ps, args')) : ∀ p ∈ ps, Reads P p := by
  induction pairs generalizing args ps with
  | nil =>
    cases hatoms
    simp
  | cons pair pairs ih =>
    obtain ⟨dim, a⟩ := pair
    simp only [Compiler.atoms] at hatoms
    split at hatoms
    · cases hatoms
    rename_i p _ hatom
    split at hatoms <;> cases hatoms
    rename_i ps' _ hrest
    intro q hq
    rcases mem_append.1 hq with hq | hq
    · exact reads_atom hdims hatom q (Option.mem_toList.1 hq)
    exact ih hrest q hq

theorem reads_union {segs : List Segment} (hunion : c.union segs args = .ok (ps, args')) :
    ps.length = segs.length ∧ ∀ p ∈ ps, Reads P p := by
  induction segs generalizing args ps with
  | nil =>
    cases hunion
    simp
  | cons s segs ih =>
    simp only [Compiler.union] at hunion
    split at hunion
    · cases hunion
    rename_i p _ hsegment
    split at hunion <;> cases hunion
    rename_i ps' _ hrest
    obtain ⟨hlength, hreads⟩ := ih hrest
    refine ⟨by simp [hlength], forall_mem_cons.2 ⟨?_, hreads⟩⟩
    unfold Compiler.segment at hsegment
    split at hsegment <;> cases hsegment
    rename_i qs _ hatoms
    exact reads_andAll.2 (reads_atoms hdims hatoms)

end Columns

/-! ## What a listed row shows -/

/-- What compile makes: conditions over the dimensions' columns, and a listed row with a hit. -/
structure Plan.Ok (p : Plan) (P : String → Prop) : Prop where
  length : p.hits.length = p.sets.length
  where_ : Reads P p.where_
  hits : ∀ h ∈ p.hits, Reads P h
  hit : ∀ val, p.where_.Holds val → ∃ h ∈ p.hits, h.Holds val

variable {p : Plan}

variable {P : String → Prop} {f : String}

theorem compile_reads {apd : String → Option Canon.Decimal} {parse : String → Option Int}
    {r : Resource} {segs : List Segment} {op principal table : String} {at_ : Int} {argBase : Nat}
    (hdims : ∀ dim, P (r.dimension dim).column ∧ P (r.dimension dim).currencyColumn)
    (hcompile : compile apd parse r segs op principal at_ table argBase = .ok p) : p.Ok P := by
  have hhit : ∀ (preds : List (Cond Test)) val, (orAll preds).Holds val →
      ∃ h ∈ preds.map Cond.coalesce, h.Holds val := by
    intro preds val hholds
    have hthrough := through_orAll.1 hholds.through
    obtain ⟨h, hmem, hh⟩ := (holds_orAll hthrough).1 hholds
    exact ⟨.coalesce h, mem_map_of_mem hmem, holds_coalesce.2 hh⟩
  have hcoalesce : ∀ preds : List (Cond Test), (∀ q ∈ preds, Reads P q) →
      ∀ h ∈ preds.map Cond.coalesce, Reads P h := by
    intro preds hreads h hh
    obtain ⟨q, hq, rfl⟩ := mem_map.1 hh
    exact hreads q hq
  unfold compile at hcompile
  dsimp only at hcompile
  split at hcompile
  · cases hcompile
  rename_i viewPreds args hview
  obtain ⟨hviewLength, hviewReads⟩ := reads_union hdims hview
  split at hcompile
  · split at hcompile
    · cases hcompile
    rename_i opPreds args hop
    obtain ⟨hopLength, hopReads⟩ := reads_union hdims hop
    unfold plan at hcompile
    split at hcompile <;> cases hcompile
    refine ⟨by simp [hopLength], ⟨reads_orAll.2 hviewReads, reads_orAll.2 hopReads⟩,
      hcoalesce opPreds hopReads, fun val hholds => ?_⟩
    exact hhit opPreds val (holds_and.1 hholds).2
  unfold plan at hcompile
  split at hcompile <;> cases hcompile
  exact ⟨by simp [hviewLength], reads_orAll.2 hviewReads, hcoalesce viewPreds hviewReads,
    hhit viewPreds⟩

variable {val : Test → Outcome}

/-- A field of a segment that is a hit is readable. -/
theorem mem_fields {h : Cond Test} {set : List String} (hmem : (h, set) ∈ p.hits.zip p.sets)
    (hholds : h.Holds val) (hf : f ∈ set) : f ∈ p.fields (p.rowHits val) := by
  unfold Plan.fields Plan.rowHits
  rw [mem_sortedKeys, mem_flatMap]
  refine ⟨(true, set), mem_filter.2 ⟨?_, rfl⟩, hf⟩
  rw [zip_map_left]
  exact mem_map.2 ⟨(h, set), hmem, by simp [hholds]⟩

/-- Where every segment reads the field, every listed row shows it. -/
theorem Plan.Ok.everywhere (hp : p.Ok P) (heverywhere : p.readableEverywhere f = true)
    (hholds : p.where_.Holds val) : f ∈ p.fields (p.rowHits val) := by
  obtain ⟨h, hh, hhit⟩ := hp.hit val hholds
  obtain ⟨i, hi, rfl⟩ := getElem_of_mem hh
  have hset : i < p.sets.length := hp.length ▸ hi
  refine mem_fields (mem_iff_getElem.2 ⟨i, ?_, getElem_zip⟩) hhit ?_
  · simp [hset, hi]
  simp only [Plan.readableEverywhere, decide_eq_true_eq] at heverywhere
  exact heverywhere.2 _ (getElem_mem hset)

theorem Plan.Ok.readableWhere (hp : p.Ok P) (f : String) : Reads P (p.readableWhere f) := by
  refine reads_orAll.2 fun h hh => ?_
  obtain ⟨⟨h', set⟩, hpair, rfl⟩ := mem_map.1 hh
  exact hp.hits h' (of_mem_zip (mem_filter.1 hpair).1).1

theorem readableWhere_shows
    (hholds : (p.readableWhere f).Holds val) : f ∈ p.fields (p.rowHits val) := by
  obtain ⟨h, hmem, hh⟩ := (holds_orAll (through_orAll.1 hholds.through)).1 hholds
  obtain ⟨⟨h', set⟩, hpair, rfl⟩ := mem_map.1 hmem
  obtain ⟨hzip, hf⟩ := mem_filter.1 hpair
  exact mem_fields hzip hh (by simpa using hf)

end BeSdk.Authz

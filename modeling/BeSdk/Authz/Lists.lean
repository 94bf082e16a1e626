import BeSdk.Authz.Rows

/-!
# Lists and single records

What `compile` makes of the segments, compared with what they ask of a row.  The conditions are
described from the atoms up: by when PostgreSQL can read what a condition compares (`Readable`),
and by which rows it then takes (`Taken`).  Arguments are only ever appended, so a condition means
the same under the arguments of the whole query (`Compiler.Passed`).

The query takes every row a segment asks for, and two kinds of row besides (`Atom.Misread`).  A
tree atom with an empty path takes the rows whose path is empty, which `Evaluate` never counts as
the root. A value list or a principal is compared with the column's value, a number on an amount
(and without the currency) or a `uuid`, where `Evaluate` compares texts.  Everywhere else, NULLs,
escaped paths and bounds of any scale included, list and record agree.
-/

namespace BeSdk.Authz

open Canon Condition Cond List Option AList

/-! ## Joined conditions -/

section
variable {val : Test → Outcome} {ps : List (Cond Test)} {reads asks : Prop}

theorem through_andAll : Through val (andAll ps) ↔ ∀ p ∈ ps, Through val p := by
  cases ps with
  | nil => simp [andAll]
  | cons p ps =>
    rw [forall_mem_cons]
    exact through_joinAnd

theorem holds_andAll : Holds val (andAll ps) ↔ ∀ p ∈ ps, Holds val p := by
  cases ps with
  | nil => simp [andAll]
  | cons p ps =>
    rw [forall_mem_cons]
    exact holds_joinAnd

theorem means_andAll (h : Means val ps reads asks) : Means val [andAll ps] reads asks := by
  refine ⟨?_, fun hr => ?_⟩
  · rw [forall_mem_singleton, through_andAll, h.through]
  rw [forall_mem_singleton, holds_andAll, h.holds hr]

theorem through_orAll : Through val (orAll ps) ↔ ∀ p ∈ ps, Through val p := by
  cases ps with
  | nil => simp [orAll]
  | cons p ps =>
    rw [forall_mem_cons]
    exact through_joinOr

theorem holds_orAll (h : ∀ p ∈ ps, Through val p) :
    Holds val (orAll ps) ↔ ∃ p ∈ ps, Holds val p := by
  cases ps with
  | nil => simp [orAll]
  | cons p ps =>
    rw [forall_mem_cons] at h
    rw [exists_mem_cons_iff]
    exact holds_joinOr h.1 h.2

end

/-! ## Arguments -/

namespace Compiler

variable {c : Compiler} {args args' params : List Arg}

variable (c) in
/-- The query's arguments have the plan's at their place. -/
def Passed (args params : List Arg) : Prop :=
  ∃ before after, before.length = c.base ∧ params = before ++ args ++ after

theorem Passed.get {v : Arg} (h : c.Passed (args ++ [v]) params) :
    params[c.next args - 1]? = some v := by
  obtain ⟨before, after, hbase, rfl⟩ := h
  simp [next, ← hbase]

theorem Passed.of_extends (h : c.Passed args' params) (hextends : args <+: args') :
    c.Passed args params := by
  obtain ⟨before, after, hbase, rfl⟩ := h
  obtain ⟨more, rfl⟩ := hextends
  exact ⟨before, more ++ after, hbase, by simp⟩

end Compiler

/-! ## What a query reads and takes -/

section
variable (num : Numbers) (row : String → Cell) (principal : String)

/-- PostgreSQL reads a text at the column's type. -/
def Cell.Reads (t : String) : Cell → Prop
  | .text _ => True
  | .numeric _ => ∃ x, num.numeric t = some x
  | .typed type _ => ∃ x, num.read type t = some x

/-- The text is the column's value for PostgreSQL. -/
def Cell.Equals (t : String) : Cell → Prop
  | .text v => v = some t
  | .numeric v => ∃ n ∈ v, num.numeric t = some (n.value : WithTop Number)
  | .typed type v => ∃ u ∈ v, num.read type t = some u

/-- PostgreSQL reads what the atom compares its column with. -/
def Atom.Readable (a : Atom) (d : Dimension) : Prop :=
  match a.kind with
  | .within => ∀ v ∈ a.values, (row d.column).Reads num v
  | .self => (row d.column).Reads num principal
  | .interval => (∀ b ∈ a.lo, ∃ x, num.numeric b = some x) ∧ ∀ b ∈ a.hi, ∃ x, num.numeric b = some x
  | _ => True

/-- The query takes a row the atom does not ask for: the empty path, or a value that is equal in the
column's type and not as a text, or an amount without a currency. -/
def Atom.Misread (a : Atom) (d : Dimension) : Prop :=
  match a.kind with
  | .tree => row d.column = .text (some "") ∧ ∃ it ∈ a.items, it.path = ""
  | .within => ∃ t, (row d.column).shown num = some t ∧
      (∃ v ∈ a.values, (row d.column).Equals num v) ∧
        (t ∉ a.values ∨ d.kind = .amount ∧ row d.currencyColumn = .text none)
  | .self => ∃ t, (row d.column).shown num = some t ∧ (row d.column).Equals num principal ∧
      t ≠ principal
  | _ => False

def Segment.Readable (s : Segment) (r : Resource) : Prop :=
  ∀ p ∈ s.pairs, p.2.Readable num row principal (r.dimension p.1)

def Segment.Taken (s : Segment) (r : Resource) : Prop :=
  ∀ p ∈ s.pairs, p.2.Matches num row principal (r.dimension p.1) ∨
    p.2.Misread num row principal (r.dimension p.1)

/-- Texts that `canon.Decimal` accepts and PostgreSQL reads are the same number for both. -/
def Numbers.Agree : Prop :=
  ∀ t d x, num.apd t = some d → d.accepted = true → num.numeric t = some x →
    x = (d.value : WithTop Number)

end

/-! ## One atom -/

section
variable {num : Numbers} {row : String → Cell} {c : Compiler} {params : List Arg} {vs : List String}

theorem exists_mapM {β : Type} {f : String → Option β} :
    (∃ xs, vs.mapM f = some xs) ↔ ∀ v ∈ vs, ∃ x, f v = some x := by
  induction vs with
  | nil => simp
  | cons v vs ih =>
    rw [forall_mem_cons, ← ih]
    cases hv : f v <;> cases hvs : vs.mapM f <;> simp [hv, hvs]

theorem mem_mapM {β : Type} {f : String → Option β} {xs : List β} (hxs : vs.mapM f = some xs)
    (x : β) : x ∈ xs ↔ ∃ v ∈ vs, f v = some x := by
  induction vs generalizing xs with
  | nil =>
    simp at hxs
    simp [hxs]
  | cons v vs ih =>
    cases hv : f v with
    | none => simp [hv] at hxs
    | some y =>
      cases hvs : vs.mapM f with
      | none => simp [hv, hvs] at hxs
      | some ys =>
        simp [hv, hvs] at hxs
        rw [← hxs, mem_cons, exists_mem_cons_iff, ih hvs, hv, some.injEq, eq_comm]

theorem likeEscape_matches (path v : String) :
    Like.like (likeEscape path ++ "/%").toList v.toList = true ↔
      (path ++ "/").toList <+: v.toList := by
  have hpattern : (likeEscape path ++ "/%").toList = Like.escape path.toList ++ ['/', '%'] := by
    simp [likeEscape]
  have hpath : (path ++ "/").toList = path.toList ++ ['/'] := by simp
  rw [hpattern, hpath]
  exact Like.like_escape_append (by decide) _ _

variable {col : Column} {args args' : List Arg} {p : Cond Test}

/-- `= ANY` takes the rows whose value one of the texts is. -/
theorem eqAny_means {n : Nat} (hget : params[n - 1]? = some (.texts vs)) :
    Means (Test.eval num row params) [.test (.eqAny col n)] (∀ v ∈ vs, (row col.name).Reads num v)
      (∃ v ∈ vs, (row col.name).Equals num v) := by
  -- at a type whose values are read as `f` reads them
  have htyped {β γ : Type} [DecidableEq γ] (f : String → Option γ) (u : Option β) (g : β → γ)
      (heval : Test.eval num row params (.eqAny col n) = (vs.mapM f).map fun xs =>
        u.map fun u => decide (g u ∈ xs)) : Means (Test.eval num row params)
      [.test (.eqAny col n)] (∀ v ∈ vs, ∃ x, f v = some x)
        (∃ v ∈ vs, ∃ w ∈ u, f v = some (g w)) := by
    refine .test ?_ fun hreads => ?_
    · rw [heval, ← exists_mapM]
      cases vs.mapM f <;> simp
    obtain ⟨xs, hxs⟩ := exists_mapM.2 hreads
    rw [heval, hxs]
    cases u with
    | none => simp
    | some u => simp [mem_mapM hxs]
  cases hcell : row col.name with
  | text v =>
    refine .test (by simp [Test.eval, hget, hcell, Cell.Reads]) fun _ => ?_
    cases v <;> simp [Test.eval, hget, hcell, Cell.Equals]
  | numeric v => exact htyped num.numeric v _ (by simp [Test.eval, hget, hcell])
  | typed type v => exact htyped (num.read type) v id (by simp [Test.eval, hget, hcell])

theorem eq_means {n : Nat} {t : String} (hget : params[n - 1]? = some (.text t)) :
    Means (Test.eval num row params) [.test (.eq col n)] ((row col.name).Reads num t)
      ((row col.name).Equals num t) := by
  cases hcell : row col.name with
  | text v =>
    refine .test (by simp [Test.eval, hget, hcell, Cell.Reads]) fun _ => ?_
    cases v <;> simp [Test.eval, hget, hcell, Cell.Equals]
  | numeric v =>
    refine .test ?_ ?_
    all_goals
      simp only [Test.eval, hget, hcell, Cell.Reads, Cell.Equals]
      cases num.numeric t <;> cases v <;> simp [eq_comm]
  | typed type v =>
    refine .test ?_ ?_
    all_goals
      simp only [Test.eval, hget, hcell, Cell.Reads, Cell.Equals]
      cases num.read type t <;> cases v <;> simp [eq_comm]

variable (num params) in
/-- An item of a tree takes the paths it covers, the empty one like any other. -/
theorem Compiler.treePart_means {it : TreeItem} (hpart : c.treePart col it args = (p, args'))
    {v : Option String} (hv : row col.name = .text v) : args <+: args' ∧ (c.Passed args' params →
      Through (Test.eval num row params) p ∧
        (Holds (Test.eval num row params) p ↔ ∃ w ∈ v, it.covers w = true)) := by
  unfold treePart at hpart
  cases hmode : it.mode with
  | exactly =>
    rw [hmode] at hpart
    obtain ⟨rfl, rfl⟩ := Prod.mk.injEq .. ▸ hpart
    refine ⟨prefix_append _ _, fun hpassed => ?_⟩
    have heval : Test.eval num row params (.eq col (c.next args)) =
        some (v.map fun w => decide (w = it.path)) := by
      simp [Test.eval, hpassed.get, hv]
    refine ⟨⟨_, heval⟩, ?_⟩
    simp [Holds, Cond.eval, heval, TreeItem.covers, hmode]
  | subtree =>
    rw [hmode] at hpart
    obtain ⟨rfl, rfl⟩ := Prod.mk.injEq .. ▸ hpart
    refine ⟨⟨_, append_assoc .. |>.symm⟩, fun hpassed => ?_⟩
    have heq : Test.eval num row params (.eq col (c.next args)) =
        some (v.map fun w => decide (w = it.path)) := by
      simp [Test.eval, (hpassed.of_extends (prefix_append _ _)).get, hv]
    have hlike : Test.eval num row params (.like col (c.next (args ++ [.text it.path]))) =
        some (v.map fun w => Like.like (likeEscape it.path ++ "/%").toList w.toList) := by
      simp [Test.eval, hpassed.get, hv]
    have hfirst : Through (Test.eval num row params) (.test (.eq col (c.next args))) := ⟨_, heq⟩
    have hsecond : Through (Test.eval num row params)
        (.test (.like col (c.next (args ++ [.text it.path])))) := ⟨_, hlike⟩
    refine ⟨through_or.2 ⟨hfirst, hsecond⟩, ?_⟩
    rw [holds_paren, holds_or hfirst hsecond]
    cases v with
    | none => simp [Holds, Cond.eval, heq, hlike]
    | some w =>
      simp only [Holds, Cond.eval, heq, hlike, map_some, some.injEq,
        decide_eq_true_eq, likeEscape_matches]
      simp [TreeItem.covers, hmode]

variable {ps : List (Cond Test)}

variable (num params) in
theorem Compiler.treeParts_means {items : List TreeItem}
    (hparts : c.treeParts col items args = (ps, args')) {v : Option String}
    (hv : row col.name = .text v) : args <+: args' ∧ (c.Passed args' params →
      (∀ p ∈ ps, Through (Test.eval num row params) p) ∧
        ((∃ p ∈ ps, Holds (Test.eval num row params) p) ↔
          ∃ w ∈ v, ∃ it ∈ items, it.covers w = true)) := by
  induction items generalizing args ps with
  | nil =>
    obtain ⟨rfl, rfl⟩ := Prod.mk.injEq .. ▸ hparts
    simp
  | cons it items ih =>
    obtain ⟨p, args₁, hpart⟩ : ∃ p args₁, c.treePart col it args = (p, args₁) := ⟨_, _, rfl⟩
    obtain ⟨qs, args₂, hrest⟩ : ∃ qs args₂, c.treeParts col items args₁ = (qs, args₂) := ⟨_, _, rfl⟩
    simp only [treeParts, hpart, hrest] at hparts
    obtain ⟨rfl, rfl⟩ := Prod.mk.injEq .. ▸ hparts
    obtain ⟨hextends, hone⟩ := treePart_means num params hpart hv
    obtain ⟨hextends', hmany⟩ := ih hrest
    refine ⟨hextends.trans hextends', fun hpassed => ?_⟩
    obtain ⟨hthrough, hholds⟩ := hone (hpassed.of_extends hextends')
    obtain ⟨hthroughs, hany⟩ := hmany hpassed
    refine ⟨forall_mem_cons.2 ⟨hthrough, hthroughs⟩, ?_⟩
    rw [exists_mem_cons_iff, hholds, hany]
    simp only [exists_mem_cons_iff]
    cases v <;> simp

variable {a : Atom} {d : Dimension} {s : Segment}

theorem Cell.Equals.shown {cell : Cell} {v : String} (h : cell.Equals num v) :
    ∃ t, cell.shown num = some t := by
  cases cell with
  | text v => exact ⟨_, h⟩
  | numeric v =>
    obtain ⟨n, rfl, -⟩ := h
    exact ⟨_, rfl⟩
  | typed type v =>
    obtain ⟨u, rfl, -⟩ := h
    exact ⟨_, rfl⟩

/-- The text of a column's value is its value. -/
theorem Dimension.Stored.equals (hstored : d.Stored num row) {t : String}
    (ht : (row d.column).shown num = some t) : (row d.column).Equals num t := by
  by_cases hamount : d.kind = .amount
  · obtain ⟨⟨v, hv, hback⟩, -⟩ := hstored.amount hamount
    rw [hv] at ht ⊢
    obtain ⟨n, rfl, rfl⟩ := map_eq_some_iff.1 ht
    exact ⟨n, rfl, (hback n rfl).1⟩
  obtain ⟨v, hv | ⟨type, hv, hback⟩⟩ := hstored.other hamount
  · rw [hv] at ht ⊢
    exact ht
  rw [hv] at ht ⊢
  exact ⟨t, ht, hback t ht⟩

/-- A value list takes the rows with one of its values, as the column's type has them. -/
theorem within_means (hkind : a.kind = .within)
    (hstored : d.Stored num row) (hcol : col.name = d.column) {n : Nat}
    (hget : params[n - 1]? = some (.texts a.values)) (principal : String) :
    Means (Test.eval num row params) [.test (.eqAny col n)] (a.Readable num row principal d)
      (a.Matches num row principal d ∨ a.Misread num row principal d) := by
  refine (eqAny_means hget).congr (by simp [Atom.Readable, hkind, hcol]) fun _ => ?_
  simp only [Atom.Matches, Atom.Misread, hkind, hcol]
  constructor
  · rintro ⟨v, hv, hequals⟩
    obtain ⟨t, ht⟩ := hequals.shown
    by_cases hin : t ∈ a.values
    · by_cases hamount : d.kind = .amount
      · obtain ⟨⟨m, hm, -⟩, currency, hcur⟩ := hstored.amount hamount
        cases currency with
        | none => exact .inr ⟨t, ht, ⟨v, hv, hequals⟩, .inr ⟨hamount, hcur⟩⟩
        | some currency =>
          rw [hm] at ht
          obtain ⟨n, rfl, hn⟩ := map_eq_some_iff.1 ht
          exact .inl ⟨t, currency, (Dimension.fact_amount hamount hstored ..).2
            ⟨n, hm, hcur, hn⟩, hin⟩
      exact .inl ⟨t, "", (Dimension.fact_shown hamount hstored ..).2 ⟨ht, rfl⟩, hin⟩
    exact .inr ⟨t, ht, ⟨v, hv, hequals⟩, .inl hin⟩
  rintro (⟨t, currency, hfact, hin⟩ | ⟨-, -, hsome, -⟩)
  · refine ⟨t, hin, hstored.equals ?_⟩
    by_cases hamount : d.kind = .amount
    · obtain ⟨n, hn, -, rfl⟩ := (Dimension.fact_amount hamount hstored ..).1 hfact
      rw [hn]
      rfl
    exact ((Dimension.fact_shown hamount hstored ..).1 hfact).1
  exact hsome

theorem self_means (hkind : a.kind = .self) (hfits : a.Fits d)
    (hstored : d.Stored num row) (hcol : col.name = d.column) {n : Nat}
    {principal : String} (hget : params[n - 1]? = some (.text principal)) :
    Means (Test.eval num row params) [.test (.eq col n)] (a.Readable num row principal d)
      (a.Matches num row principal d ∨ a.Misread num row principal d) := by
  have hprincipal : d.kind ≠ .amount := by simp [hfits.self hkind]
  refine (eq_means hget).congr (by simp [Atom.Readable, hkind, hcol]) fun _ => ?_
  simp only [Atom.Matches, Atom.Misread, hkind, hcol, Dimension.fact_shown hprincipal hstored]
  constructor
  · intro hequals
    obtain ⟨t, ht⟩ := hequals.shown
    by_cases hsame : t = principal
    · exact .inl ⟨"", hsame ▸ ht, rfl⟩
    exact .inr ⟨t, ht, hequals, hsame⟩
  rintro (⟨-, ht, -⟩ | ⟨-, -, hequals, -⟩)
  · exact hstored.equals ht
  exact hequals

/-- A tree takes what its items cover, and so the empty path where an item has it. -/
theorem tree_means (hkind : a.kind = .tree) (hfits : a.Fits d) (hstored : d.Stored num row)
    (hparts : c.treeParts (c.col d.column) a.items args = (ps, args')) (principal : String) :
    args <+: args' ∧ (c.Passed args' params →
      Means (Test.eval num row params) [orAll ps] (a.Readable num row principal d)
        (a.Matches num row principal d ∨ a.Misread num row principal d)) := by
  have htree : d.kind ≠ .amount := by simp [hfits.tree hkind]
  obtain ⟨v, hv⟩ := hstored.tree (hfits.tree hkind)
  obtain ⟨hextends, hmeans⟩ := Compiler.treeParts_means num params hparts hv
  refine ⟨hextends, fun hpassed => ?_⟩
  obtain ⟨hthrough, hholds⟩ := hmeans hpassed
  unfold Atom.Readable Atom.Matches Atom.Misread
  simp only [hkind, Dimension.fact_shown htree hstored, hv, Cell.shown]
  refine ⟨?_, fun _ => ?_⟩
  · rw [forall_mem_singleton, through_orAll, iff_true]
    exact hthrough
  rw [forall_mem_singleton, holds_orAll hthrough, hholds]
  rcases v with _ | w
  · simp
  by_cases hempty : w = ""
  · have hcovers : ∀ it : TreeItem, it.covers "" = true ↔ it.path = "" := fun it => by
      simp only [TreeItem.covers, decide_eq_true_eq]
      simp [@eq_comm String ""]
    simp [hempty, hcovers]
  simp [hempty]

variable (num params) in
theorem Compiler.bound_means {name : String} {open_ closed : Compare} {b : Option String}
    {isClosed : Option Bool}
    (hbound : c.bound (c.col name) open_ closed b isClosed args = (ps, args')) {v : Option Numeric}
    (hv : row name = .numeric v) : args <+: args' ∧ (c.Passed args' params →
      Means (Test.eval num row params) ps (∀ t ∈ b, ∃ x, num.numeric t = some x)
        (∀ t ∈ b, ∃ n ∈ v, ∃ x, num.numeric t = some x ∧
          (if isClosed.getD false then closed else open_).holds (n.value : WithTop Number) x =
            true)) := by
  cases b with
  | none =>
    obtain ⟨rfl, rfl⟩ := Prod.mk.injEq .. ▸ hbound
    exact ⟨prefix_refl _, fun _ => Means.nil.congr (by simp) (by simp)⟩
  | some t =>
    obtain ⟨rfl, rfl⟩ := Prod.mk.injEq .. ▸ hbound
    refine ⟨prefix_append _ _, fun hpassed => ?_⟩
    set op := if isClosed.getD false then closed else open_
    have heval : Test.eval num row params (.compare op (c.col name) (c.next args)) =
        (num.numeric t).map fun x => v.map fun n => op.holds (n.value : WithTop Number) x := by
      simp [Test.eval, hpassed.get, Compiler.col, hv]
    refine .test ?_ fun hreads => ?_
    · rw [heval]
      cases hx : num.numeric t <;> simp [hx]
    obtain ⟨x, hx⟩ := hreads t rfl
    rw [heval]
    cases v <;> simp [hx]

theorem holds_lower (x y : Number) (closed : Option Bool) :
    (if closed.getD false then Compare.ge else .gt).holds (x : WithTop Number)
      (y : WithTop Number) = true ↔ y < x ∨ closed = some true ∧ x = y := by
  rcases closed with _ | _ | _
  · simp [Compare.holds]
  · simp [Compare.holds]
  simp [Compare.holds, le_iff_lt_or_eq, @eq_comm _ x]

theorem holds_upper (x y : Number) (closed : Option Bool) :
    (if closed.getD false then Compare.le else .lt).holds (x : WithTop Number)
      (y : WithTop Number) = true ↔ x < y ∨ closed = some true ∧ x = y := by
  rcases closed with _ | _ | _
  · simp [Compare.holds]
  · simp [Compare.holds]
  simp [Compare.holds, le_iff_lt_or_eq]

def Atom.BoundsAccepted (num : Numbers) (a : Atom) : Prop :=
  ∀ b, b ∈ a.lo ∨ b ∈ a.hi → ∃ d, num.apd b = some d ∧ d.accepted = true

/-- A bound PostgreSQL reads compares as apd's decimal does. -/
theorem bound_iff {b : Option String} {p : WithTop Number → Bool} {q : Number → Prop}
    (hagree : num.Agree) (haccepted : ∀ t ∈ b, ∃ d, num.apd t = some d ∧ d.accepted = true)
    (hreads : ∀ t ∈ b, ∃ x, num.numeric t = some x) (hpq : ∀ y : Number, p y = true ↔ q y) :
    (∀ t ∈ b, ∃ x, num.numeric t = some x ∧ p x = true) ↔
      ∀ t ∈ b, ∃ d, num.apd t = some d ∧ q d.value := by
  refine forall₂_congr fun t ht => ?_
  obtain ⟨d, hd, hacc⟩ := haccepted t ht
  obtain ⟨x, hx⟩ := hreads t ht
  rw [hd, hx]
  simp [hagree t d x hd hacc hx, hpq]

theorem interval_means (hkind : a.kind = .interval) (hfits : a.Fits d) (hstored : d.Stored num row)
    (hagree : num.Agree) (haccepted : a.BoundsAccepted num)
    (hinterval : c.interval d a args = (p, args')) (principal : String) :
    args <+: args' ∧ (c.Passed args' params →
      Means (Test.eval num row params) [p] (a.Readable num row principal d)
        (a.Matches num row principal d ∨ a.Misread num row principal d)) := by
  have hamount := (hfits.interval hkind).1
  obtain ⟨⟨v, hv, -⟩, currency, hcur⟩ := hstored.amount hamount
  obtain ⟨lo, args₁, hlo⟩ : ∃ lo args₁, c.bound (c.col d.column) .gt .ge a.lo a.loClosed
    (args ++ [.text a.currency]) = (lo, args₁) := ⟨_, _, rfl⟩
  obtain ⟨hi, args₂, hhi⟩ : ∃ hi args₂, c.bound (c.col d.column) .lt .le a.hi a.hiClosed args₁ =
    (hi, args₂) := ⟨_, _, rfl⟩
  simp only [Compiler.interval, hlo, hhi] at hinterval
  obtain ⟨rfl, rfl⟩ := Prod.mk.injEq .. ▸ hinterval
  obtain ⟨hextends₁, hmeansLo⟩ := Compiler.bound_means num params hlo hv
  obtain ⟨hextends₂, hmeansHi⟩ := Compiler.bound_means num params hhi hv
  refine ⟨((prefix_append _ _).trans hextends₁).trans hextends₂, fun hpassed => ?_⟩
  have hpassed₁ := hpassed.of_extends hextends₂
  have hget := (hpassed₁.of_extends hextends₁).get
  have hpresent : Means (Test.eval num row params) [.test (.notNull (c.col d.column))] True
      (∃ n, v = some n) :=
    .test (by simp [Test.eval, Compiler.col, hv])
      fun _ => by simp [Test.eval, Compiler.col, hv, isSome_iff_exists]
  have hcurrency : Means (Test.eval num row params)
      [.test (.eq (c.col d.currencyColumn) (c.next args))] True (currency = some a.currency) :=
    .test (by simp [Test.eval, Compiler.col, hcur, hget])
      fun _ => by simp [Test.eval, Compiler.col, hcur, hget]
  refine means_andAll ((((hpresent.append hcurrency).append (hmeansLo hpassed₁)).append
    (hmeansHi hpassed)).congr ?_ ?_)
  · simp [Atom.Readable, hkind]
  rintro ⟨⟨-, hreadsLo⟩, hreadsHi⟩
  unfold Atom.Matches Atom.Misread
  simp only [hkind, hv, hcur, or_false]
  rcases v with _ | n
  · simp
  have hlower := bound_iff
    (p := (if a.loClosed.getD false then Compare.ge else .gt).holds (n.value : WithTop Number))
    (q := fun y => y < n.value ∨ a.loClosed = some true ∧ n.value = y) hagree
    (fun t ht => haccepted t (.inl ht)) hreadsLo fun y => holds_lower n.value y a.loClosed
  have hupper := bound_iff
    (p := (if a.hiClosed.getD false then Compare.le else .lt).holds (n.value : WithTop Number))
    (q := fun y => n.value < y ∨ a.hiClosed = some true ∧ n.value = y) hagree
    (fun t ht => haccepted t (.inr ht)) hreadsHi fun y => holds_upper n.value y a.hiClosed
  have hsome : ∀ P : Numeric → Prop, (∃ m ∈ some n, P m) ↔ P n := by simp
  simp only [hsome]
  rw [hlower, hupper]
  simp [Atom.Contains, and_assoc]

variable (num params) in
/-- **One atom.**  Its condition goes through when PostgreSQL reads the atom, and takes the rows
the atom asks for and those it misreads. -/
theorem Compiler.atom_means {dim : String} (hdim : c.r.dimension dim = d) (hfits : a.Fits d)
    (hstored : d.Stored num row) (hagree : num.Agree)
    (haccepted : a.kind = .interval → a.BoundsAccepted num) {p : Option (Cond Test)}
    (hatom : c.atom dim a args = .ok (p, args')) : args <+: args' ∧ (c.Passed args' params →
      Means (Test.eval num row params) p.toList (a.Readable num row c.principal d)
        (a.Matches num row c.principal d ∨ a.Misread num row c.principal d)) := by
  unfold Compiler.atom at hatom
  rw [hdim] at hatom
  dsimp only at hatom
  split at hatom
  · cases hatom
  · cases hkind : a.kind with
    | all =>
      simp only [hkind] at hatom
      cases hatom
      exact ⟨prefix_refl _, fun _ => Means.nil.congr
        (by simp [Atom.Readable, hkind]) (by simp [Atom.Matches, hkind])⟩
    | within =>
      simp only [hkind] at hatom
      split at hatom
      next hvalues =>
        cases hatom
        refine ⟨prefix_refl _, fun _ => ⟨?_, fun _ => ?_⟩⟩
        · simp [Atom.Readable, hkind, hvalues]
        simp [Atom.Matches, Atom.Misread, hkind, hvalues]
      · cases hatom
        exact ⟨prefix_append _ _, fun hpassed =>
          within_means hkind hstored rfl hpassed.get c.principal⟩
    | self =>
      simp only [hkind] at hatom
      cases hatom
      exact ⟨prefix_append _ _, fun hpassed => self_means hkind hfits hstored rfl hpassed.get⟩
    | tree =>
      simp only [hkind] at hatom
      cases hatom
      exact tree_means hkind hfits hstored rfl c.principal
    | interval =>
      simp only [hkind] at hatom
      cases hatom
      exact interval_means hkind hfits hstored hagree (haccepted hkind) rfl c.principal
    | unknown text => exact absurd hkind (hfits.known text)

/-! ## Segments -/

variable (num row params) in
theorem Compiler.atoms_means (hrow : c.r.Stored num row) (hagree : num.Agree)
    {pairs : List (String × Atom)}
    (hfits : ∀ p ∈ pairs, ∃ d, c.r.dimensions.lookup p.1 = some d ∧ p.2.Fits d)
    (haccepted : ∀ p ∈ pairs, p.2.kind = .interval → p.2.BoundsAccepted num)
    (hatoms : c.atoms pairs args = .ok (ps, args')) : args <+: args' ∧ (c.Passed args' params →
      Means (Test.eval num row params) ps
        (∀ p ∈ pairs, p.2.Readable num row c.principal (c.r.dimension p.1))
        (∀ p ∈ pairs, p.2.Matches num row c.principal (c.r.dimension p.1) ∨
          p.2.Misread num row c.principal (c.r.dimension p.1))) := by
  induction pairs generalizing args ps with
  | nil =>
    cases hatoms
    exact ⟨prefix_refl _, fun _ => Means.nil.congr (by simp) (by simp)⟩
  | cons pair pairs ih =>
    obtain ⟨dim, a⟩ := pair
    rw [forall_mem_cons] at hfits haccepted
    obtain ⟨⟨d, hd, hfitsHere⟩, hfits⟩ := hfits
    rw [atoms] at hatoms
    split at hatoms
    · cases hatoms
    rename_i p args₁ hatom
    split at hatoms <;> cases hatoms
    rename_i qs args₂ hrest
    have hdim := Resource.dimension_eq hd
    obtain ⟨hextends, hmeans⟩ := atom_means num params hdim hfitsHere (hrow _ _ hd) hagree
      haccepted.1 hatom
    obtain ⟨hextends', hmeans'⟩ := ih hfits haccepted.2 hrest
    refine ⟨hextends.trans hextends', fun hpassed => ?_⟩
    rw [← hdim] at hmeans
    refine ((hmeans (hpassed.of_extends hextends')).append (hmeans' hpassed)).congr ?_ ?_
    · rw [forall_mem_cons]
    intro _
    rw [forall_mem_cons]

theorem mem_sortedPairs {p : String × Atom} :
    p ∈ Compiler.sortedPairs s ↔ p ∈ s.pairs := by
  simp [Compiler.sortedPairs]

theorem Segment.bounds_of_accepted (h : s.boundsAccepted num.apd = true) :
    ∀ p ∈ s.pairs, p.2.kind = .interval → p.2.BoundsAccepted num := by
  intro p hp hkind b hb
  have hbounds := all_eq_true.1 h p hp
  simp only [hkind, ne_eq, not_true_eq_false, false_or, decide_eq_true_eq, Option.all_eq_true,
    Option.any_eq_true] at hbounds
  rcases hb with hb | hb
  · exact hbounds.1 b hb
  exact hbounds.2 b hb

variable (num row params) in
/-- **One segment.**  Its condition takes the rows that every atom takes. -/
theorem Compiler.segment_means (hrow : c.r.Stored num row) (hagree : num.Agree) (hfits : s.Fits c.r)
    (haccepted : s.boundsAccepted num.apd = true)
    (hsegment : c.segment s args = .ok (p, args')) : args <+: args' ∧ (c.Passed args' params →
      Means (Test.eval num row params) [p] (s.Readable num row c.principal c.r)
        (s.Taken num row c.principal c.r)) := by
  unfold segment at hsegment
  split at hsegment <;> cases hsegment
  rename_i ps args₁ hatoms
  obtain ⟨hextends, hmeans⟩ := atoms_means num row params hrow hagree
    (fun p hp => hfits.atom (mem_sortedPairs.1 hp))
    (fun p hp => s.bounds_of_accepted haccepted p (mem_sortedPairs.1 hp)) hatoms
  refine ⟨hextends, fun hpassed => means_andAll ((hmeans hpassed).congr ?_ fun _ => ?_)⟩
  · simp only [mem_sortedPairs, Segment.Readable]
  simp only [mem_sortedPairs, Segment.Taken]

variable (num row params) in
theorem Compiler.union_means (hrow : c.r.Stored num row) (hagree : num.Agree) {segs : List Segment}
    (hfits : ∀ s ∈ segs, s.Fits c.r) (haccepted : ∀ s ∈ segs, s.boundsAccepted num.apd = true)
    (hunion : c.union segs args = .ok (ps, args')) :
    args <+: args' ∧ (c.Passed args' params →
      List.Forall₂ (fun s p => Means (Test.eval num row params) [p]
        (s.Readable num row c.principal c.r) (s.Taken num row c.principal c.r)) segs ps) := by
  induction segs generalizing args ps with
  | nil =>
    cases hunion
    exact ⟨prefix_refl _, fun _ => .nil⟩
  | cons s segs ih =>
    rw [forall_mem_cons] at hfits haccepted
    rw [union] at hunion
    split at hunion
    · cases hunion
    rename_i p args₁ hsegment
    split at hunion <;> cases hunion
    rename_i qs args₂ hrest
    obtain ⟨hextends, hmeans⟩ := segment_means num row params hrow hagree hfits.1
      haccepted.1 hsegment
    obtain ⟨hextends', hmeans'⟩ := ih hfits.2 haccepted.2 hrest
    exact ⟨hextends.trans hextends', fun hpassed =>
      .cons (hmeans (hpassed.of_extends hextends')) (hmeans' hpassed)⟩

end

/-! ## Subjects -/

section
variable {S : Type*} {val : Test → Outcome} {reads asks : S → Prop} {segs : List S}
  {ps : List (Cond Test)}

section
variable (h : List.Forall₂ (fun s p => Means val [p] (reads s) (asks s)) segs ps)
include h

theorem any_means : (Through val (orAll ps) ↔ ∀ s ∈ segs, reads s) ∧
      ((∀ s ∈ segs, reads s) → (Holds val (orAll ps) ↔ ∃ s ∈ segs, asks s)) := by
  have hthrough : (∀ p ∈ ps, Through val p) ↔ ∀ s ∈ segs, reads s := by
    induction h with
    | nil => simp
    | cons hp _ ih =>
      have hone := hp.through
      rw [forall_mem_singleton] at hone
      rw [forall_mem_cons, forall_mem_cons, hone, ih]
  refine ⟨through_orAll.trans hthrough, fun hreads => ?_⟩
  rw [holds_orAll (hthrough.2 hreads)]
  clear hthrough
  induction h with
  | nil => simp
  | cons hp _ ih =>
    rw [forall_mem_cons] at hreads
    have hone := hp.holds hreads.1
    rw [forall_mem_singleton] at hone
    rw [exists_mem_cons_iff, exists_mem_cons_iff, hone, ih hreads.2]

theorem mem_hit_sets (hreads : ∀ s ∈ segs, reads s) (set : S → List String) (f : String) :
    f ∈ (((ps.map fun p => decide (Holds val p)).zip (segs.map set)).filter fun h => h.1).flatMap
        (fun h => h.2) ↔ ∃ s ∈ segs, asks s ∧ f ∈ set s := by
  induction h with
  | nil => simp
  | cons hp _ ih =>
    rw [forall_mem_cons] at hreads
    have hone := hp.holds hreads.1
    rw [forall_mem_singleton] at hone
    rw [exists_mem_cons_iff, ← ih hreads.2, ← hone]
    simp only [map_cons, zip_cons_cons, filter_cons]
    split
    · next hholds => simp [of_decide_eq_true hholds]
    next hholds => simp [show ¬ Holds val _ from fun h => hholds (decide_eq_true h)]

end
end

/-- What a plan is made of: the conditions of the view operation's segments and of the operation's,
the same ones when it is the view operation. -/
theorem compile_ok {apd : String → Option Decimal} {parse : String → Option Int} {r : Resource}
    {segs : List Segment} {op principal : String} {at_ : Int} {table : String} {argBase : Nat}
    {p : Plan} (hplan : compile apd parse r segs op principal at_ table argBase = .ok p) :
    let c : Compiler := ⟨r, table, principal, argBase⟩
    ∃ viewPreds args₁ opPreds args₀,
      c.union (activeFor parse segs at_ r.viewOperation) [] = .ok (viewPreds, args₁) ∧
      c.union (activeFor parse segs at_ op) args₀ = .ok (opPreds, p.args) ∧
      (args₁ = args₀ ∨ args₁ = p.args) ∧
      (∀ val, Holds val p.where_ ↔ Holds val (orAll viewPreds) ∧ Holds val (orAll opPreds)) ∧
      p.hits = opPreds.map .coalesce ∧
      p.sets = (activeFor parse segs at_ op).map (fun s => s.readFields.filter r.shows) ∧
      ∀ s, s ∈ activeFor parse segs at_ r.viewOperation ∨ s ∈ activeFor parse segs at_ op →
        s.boundsAccepted apd = true := by
  unfold compile at hplan
  dsimp only at hplan ⊢
  split at hplan
  · cases hplan
  rename_i viewPreds args₁ hview
  split at hplan
  · split at hplan
    · cases hplan
    rename_i opPreds args₂ hop
    unfold plan at hplan
    split at hplan <;> cases hplan
    rename_i haccepted
    refine ⟨viewPreds, args₁, opPreds, args₁, hview, hop, .inl rfl,
      fun val => holds_and, rfl, rfl, fun s hs => ?_⟩
    exact all_eq_true.1 haccepted s (mem_append.2 hs)
  rename_i hsame
  rw [not_not] at hsame
  unfold plan at hplan
  split at hplan <;> cases hplan
  rename_i haccepted
  rw [hsame]
  refine ⟨viewPreds, args₁, viewPreds, [], hview, hview, .inr rfl,
    fun val => (and_self_iff).symm, rfl, rfl, fun s hs => ?_⟩
  exact all_eq_true.1 haccepted s ((or_self_iff).1 hs)

section
variable (num : Numbers) (row : String → Cell) (r : Resource) (principal : String)
  (parse : String → Option Int) (segs : List Segment) (at_ : Int)

/-- PostgreSQL reads every segment of the list. -/
def ListReadable (op : String) : Prop :=
  ∀ s, s ∈ activeFor parse segs at_ r.viewOperation ∨ s ∈ activeFor parse segs at_ op →
    s.Readable num row principal r

def Listed (op : String) : Prop := ∃ s ∈ activeFor parse segs at_ op, s.Taken num row principal r

/-- Nothing that is misread decides about the row: where it is listed it is so by segments that
match it, and a segment that takes it without matching shows no field of its own; and a query that
fails keeps no row from the subject. -/
def Undisturbed (op : String) : Prop :=
  (ListReadable num row r principal parse segs at_ op →
    Listed num row r principal parse segs at_ r.viewOperation →
    Listed num row r principal parse segs at_ op →
      Entitled num row r principal parse segs at_ r.viewOperation ∧
      Entitled num row r principal parse segs at_ op ∧
      ∀ s ∈ activeFor parse segs at_ op, s.Taken num row principal r → ∀ f ∈ s.readFields,
        r.shows f = true → ∃ s' ∈ activeFor parse segs at_ op,
          s'.Matches num row principal r ∧ f ∈ s'.readFields) ∧
  (¬ ListReadable num row r principal parse segs at_ op →
    ¬ (Entitled num row r principal parse segs at_ r.viewOperation ∧
      Entitled num row r principal parse segs at_ op))

variable {num row r principal parse segs at_}

theorem Segment.Matches.taken {s : Segment} (h : s.Matches num row principal r) :
    s.Taken num row principal r :=
  fun p hp => .inl (h p hp)

theorem Entitled.listed {op : String} (h : Entitled num row r principal parse segs at_ op) :
    Listed num row r principal parse segs at_ op := by
  obtain ⟨s, hs, hmatches⟩ := h
  exact ⟨s, hs, hmatches.taken⟩

variable (hagree : num.Agree) (hsegs : ∀ s ∈ segs, s.Fits r) (hrow : r.Stored num row)
include hagree hsegs hrow

/-- **The list.**  A row is in it when the query does not fail and a segment of each operation
takes the row; its fields are those of the operation's segments that take it. -/
theorem list_means {op table : String} {before : List Arg} {p : Plan}
    (hplan : compile num.apd parse r segs op principal at_ table before.length = .ok p)
    (after : List Arg) : let val := Test.eval num row (before ++ p.args ++ after)
    (Holds val p.where_ ↔ ListReadable num row r principal parse segs at_ op ∧
      Listed num row r principal parse segs at_ r.viewOperation ∧
      Listed num row r principal parse segs at_ op) ∧
    (Holds val p.where_ → ∃ keys, p.fields (p.rowHits val) = sortedKeys keys ∧
      ∀ f, f ∈ keys ↔ ∃ s ∈ activeFor parse segs at_ op, s.Taken num row principal r ∧
        f ∈ s.readFields ∧ r.shows f = true) := by
  intro val
  obtain ⟨viewPreds, args₁, opPreds, args₀, hview, hop, hargs, hwhere, hhits, hsets, haccepted⟩ :=
    compile_ok hplan
  have hfits : ∀ o, ∀ s ∈ activeFor parse segs at_ o, s.Fits r := fun o s hs =>
    hsegs s (mem_activeFor.1 hs).1
  set c : Compiler := ⟨r, table, principal, before.length⟩
  have hpassed : c.Passed p.args (before ++ p.args ++ after) := ⟨before, after, rfl, rfl⟩
  obtain ⟨-, hmeansView⟩ := c.union_means num row (before ++ p.args ++ after) hrow hagree
    (hfits r.viewOperation) (fun s hs => haccepted s (.inl hs)) hview
  obtain ⟨hextends, hmeansOp⟩ := c.union_means num row (before ++ p.args ++ after) hrow hagree
    (hfits op) (fun s hs => haccepted s (.inr hs)) hop
  have hpassed₁ : c.Passed args₁ (before ++ p.args ++ after) := by
    rcases hargs with rfl | rfl
    · exact hpassed.of_extends hextends
    exact hpassed
  obtain ⟨hthroughView, hholdsView⟩ := any_means (hmeansView hpassed₁)
  obtain ⟨hthroughOp, hholdsOp⟩ := any_means (hmeansOp hpassed)
  have hiff : Holds val p.where_ ↔ ListReadable num row r principal parse segs at_ op ∧
      Listed num row r principal parse segs at_ r.viewOperation ∧
      Listed num row r principal parse segs at_ op := by
    rw [hwhere]
    constructor
    · rintro ⟨hv, ho⟩
      have hreadsView := hthroughView.1 hv.through
      have hreadsOp := hthroughOp.1 ho.through
      exact ⟨fun s hs => hs.elim (hreadsView s) (hreadsOp s), (hholdsView hreadsView).1 hv,
        (hholdsOp hreadsOp).1 ho⟩
    rintro ⟨hreads, hv, ho⟩
    exact ⟨(hholdsView fun s hs => hreads s (.inl hs)).2 hv,
      (hholdsOp fun s hs => hreads s (.inr hs)).2 ho⟩
  refine ⟨hiff, fun hholds => ⟨_, rfl, fun f => ?_⟩⟩
  have hreads := (hiff.1 hholds).1
  have hbits : p.rowHits val = opPreds.map fun q => decide (Holds val q) := by
    simp [Plan.rowHits, hhits]
  rw [hbits, hsets, mem_hit_sets (hmeansOp hpassed) fun s hs => hreads s (.inr hs)]
  simp only [mem_filter]
  exact Iff.rfl

/-- **Lists and records.**  A row is listed exactly when its record is visible and permitted, and
with the same fields, exactly when nothing that is misread decides about it. -/
theorem list_agrees_with_record_iff {op table : String} {before after : List Arg} {p : Plan}
    (hplan : compile num.apd parse r segs op principal at_ table before.length = .ok p) :
    (let val := Test.eval num row (before ++ p.args ++ after)
     let decision := evaluate num.apd parse r segs op (r.facts num row) principal at_
     (Holds val p.where_ ↔ decision.visible = .true ∧ decision.action = .true) ∧
       (Holds val p.where_ → p.fields (p.rowHits val) = decision.fields)) ↔
      Undisturbed num row r principal parse segs at_ op := by
  obtain ⟨hlist, hfields⟩ := list_means hagree hsegs hrow hplan after
  set val := Test.eval num row (before ++ p.args ++ after)
  set decision := evaluate num.apd parse r segs op (r.facts num row) principal at_
  have hrecord : decision.visible = .true ∧ decision.action = .true ↔
      Entitled num row r principal parse segs at_ r.viewOperation ∧
        Entitled num row r principal parse segs at_ op := evaluate_iff hsegs hrow
  by_cases hreads : ListReadable num row r principal parse segs at_ op
  · by_cases hlisted : Listed num row r principal parse segs at_ r.viewOperation ∧
      Listed num row r principal parse segs at_ op
    · have hholds := hlist.2 ⟨hreads, hlisted⟩
      obtain ⟨keys, hkeys, hmem⟩ := hfields hholds
      constructor
      · rintro ⟨hsame, heq⟩
        have hentitled := hrecord.1 (hsame.1 hholds)
        have hshown := heq hholds
        rw [hkeys, evaluate_fields_iff hsegs hrow hentitled.1] at hshown
        refine ⟨fun _ _ _ => ⟨hentitled.1, hentitled.2, fun s hs htaken f hf hshows => ?_⟩,
          fun hnot => absurd hreads hnot⟩
        obtain ⟨s', hs', hmatches, hf', -⟩ := (hshown f).1 ((hmem f).2 ⟨s, hs, htaken, hf, hshows⟩)
        exact ⟨s', hs', hmatches, hf'⟩
      rintro ⟨hok, -⟩
      obtain ⟨hview, hop, hcovered⟩ := hok hreads hlisted.1 hlisted.2
      refine ⟨iff_of_true hholds (hrecord.2 ⟨hview, hop⟩), fun _ => ?_⟩
      rw [hkeys, evaluate_fields_iff hsegs hrow hview]
      intro f
      rw [hmem f]
      constructor
      · rintro ⟨s, hs, htaken, hf, hshows⟩
        obtain ⟨s', hs', hmatches, hf'⟩ := hcovered s hs htaken f hf hshows
        exact ⟨s', hs', hmatches, hf', hshows⟩
      rintro ⟨s, hs, hmatches, hf, hshows⟩
      exact ⟨s, hs, hmatches.taken, hf, hshows⟩
    -- a row nothing takes is neither listed nor visible and permitted
    have hno : ¬ Holds val p.where_ := fun h => hlisted (hlist.1 h).2
    have hnot : ¬ (Entitled num row r principal parse segs at_ r.viewOperation ∧
        Entitled num row r principal parse segs at_ op) :=
      fun h => hlisted ⟨h.1.listed, h.2.listed⟩
    exact iff_of_true
      ⟨iff_of_false hno fun h => hnot (hrecord.1 h), fun h => absurd h hno⟩
      ⟨fun _ hview hop => absurd ⟨hview, hop⟩ hlisted, fun _ => hnot⟩
  -- the query fails
  have hno : ¬ Holds val p.where_ := fun h => hreads (hlist.1 h).1
  constructor
  · rintro ⟨hsame, -⟩
    exact ⟨fun h => absurd h hreads, fun _ h => hno (hsame.2 (hrecord.2 h))⟩
  rintro ⟨-, hnot⟩
  exact ⟨iff_of_false hno fun h => hnot hreads (hrecord.1 h), fun h => absurd h hno⟩

end

/-! ## Two rows -/

/-- Orders by the org unit they belong to and their owner. -/
def orders : Resource where
  type := "order"
  viewOperation := "order.view"
  dimensions := AList.insert "org" { kind := .orgTree, column := "org_path" }
    (AList.insert "owner" { kind := .principal, column := "owner_id" } ∅)
  fields := AList.singleton "number" .ordinary

/-- The principal's own orders in the whole tree. -/
def wholeTree : Segment where
  operation := "order.view"
  atoms := AList.insert "org" { kind := .tree, items := [⟨"", .subtree⟩] }
    (AList.insert "owner" { kind := .self } ∅)
  readFields := ["number"]
  valid := { from_ := "2026-01-01T00:00:00Z" }

/-- A `uuid`, here of two digits, is read in both cases and written in the lower one. -/
def uuids : Numbers where
  apd _ := none
  out _ := ""
  numeric _ := none
  read _ t := if t = "a1" ∨ t = "A1" then some "a1" else none

def orderOf (path : String) (column : String) : Cell :=
  if column = "org_path" then .text (some path) else .typed "uuid" (some "a1")

def newYear (t : String) : Option Int := if t = "2026-01-01T00:00:00Z" then some 0 else none

theorem wholeTree_fits : wholeTree.Fits orders := by
  unfold Segment.Fits
  decide

theorem mem_wholeTree_pairs {q : String × Atom} (hq : q ∈ wholeTree.pairs) :
    q = ("org", { kind := .tree, items := [⟨"", .subtree⟩] }) ∨
      q = ("owner", { kind := .self }) := by
  rcases mem_cons.1 hq with hq | hq
  · exact .inl hq
  exact .inr (mem_singleton.1 hq)

theorem orders_stored (path : String) : orders.Stored uuids (orderOf path) := by
  intro dim d hd
  have hdim : d = { kind := .orgTree, column := "org_path" } ∨
      d = { kind := .principal, column := "owner_id" } := by
    unfold orders at hd
    by_cases horg : dim = "org"
    · rw [horg, lookup_insert] at hd
      exact .inl (some.inj hd).symm
    rw [lookup_insert_ne horg] at hd
    by_cases howner : dim = "owner"
    · rw [howner, lookup_insert] at hd
      exact .inr (some.inj hd).symm
    rw [lookup_insert_ne howner, lookup_empty] at hd
    cases hd
  rcases hdim with rfl | rfl
  · exact ⟨by simp, fun _ => ⟨some path, rfl⟩, fun _ => ⟨some path, .inl rfl⟩⟩
  refine ⟨by simp, by simp, fun _ => ⟨some "a1", .inr ⟨"uuid", rfl, fun t ht => ?_⟩⟩⟩
  cases ht
  rfl

/-- An order at the empty path is listed for the whole tree, and cannot be opened. -/
theorem empty_path_listed :
    wholeTree.Fits orders ∧ orders.Stored uuids (orderOf "") ∧
      ∃ p, compile uuids.apd newYear orders [wholeTree] "order.view" "a1" 1 "" 0 = .ok p ∧
        Holds (Test.eval uuids (orderOf "") p.args) p.where_ ∧
        (evaluate uuids.apd newYear orders [wholeTree] "order.view"
          (orders.facts uuids (orderOf "")) "a1" 1).visible = .false := by
  refine ⟨wholeTree_fits, orders_stored "", _, rfl, ?_, ?_⟩
  · decide +kernel
  decide +kernel

theorem order_listed_as_opened :
    ∃ p, compile uuids.apd newYear orders [wholeTree] "order.view" "a1" 1 "" 1 = .ok p ∧
      let val := Test.eval uuids (orderOf "/a") ([.text "tenant"] ++ p.args ++ [])
      let decision := evaluate uuids.apd newYear orders [wholeTree] "order.view"
        (orders.facts uuids (orderOf "/a")) "a1" 1
      (Holds val p.where_ ↔ decision.visible = .true ∧ decision.action = .true) ∧
        (Holds val p.where_ → p.fields (p.rowHits val) = decision.fields) := by
  obtain ⟨p, hplan⟩ : ∃ p, compile uuids.apd newYear orders [wholeTree] "order.view" "a1" 1 ""
      [Arg.text "tenant"].length = .ok p := ⟨_, rfl⟩
  have hmatches : wholeTree.Matches uuids (orderOf "/a") "a1" orders := by
    intro q hq
    rcases mem_wholeTree_pairs hq with rfl | rfl
    · exact ⟨"/a", "", rfl, by decide, _, mem_singleton_self _, by decide +kernel⟩
    exact ⟨"", rfl⟩
  have hactive : activeFor newYear [wholeTree] 1 "order.view" = [wholeTree] := rfl
  have hentitled : Entitled uuids (orderOf "/a") orders "a1" newYear [wholeTree] 1
      "order.view" := ⟨wholeTree, by simp [hactive], hmatches⟩
  refine ⟨p, hplan, (list_agrees_with_record_iff (fun _ _ _ hd => by cases hd)
    (by simpa using wholeTree_fits) (orders_stored "/a") hplan).2 ⟨fun _ _ _ => ?_, fun hnot => ?_⟩⟩
  · refine ⟨hentitled, hentitled, fun s hs _ f hf _ => ⟨wholeTree, by simp [hactive], hmatches, ?_⟩⟩
    rw [hactive, mem_singleton] at hs
    rwa [← hs]
  refine absurd (fun s hs => ?_) hnot
  have hone : s = wholeTree := by rcases hs with hs | hs <;> exact mem_singleton.1 hs
  subst hone
  intro q hq
  rcases mem_wholeTree_pairs hq with rfl | rfl
  · trivial
  exact ⟨"a1", rfl⟩

end BeSdk.Authz

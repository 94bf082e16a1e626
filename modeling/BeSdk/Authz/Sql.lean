import BeSdk.Authz.Eval
import BeSdk.Library.Condition
import BeSdk.Library.Like

/-!
# Compiling segments into a query

`authz/sql.go`: the segments of a subject as the WHERE clause of a list, with its arguments and one
condition for each segment whose result on a row gives the row's readable fields.

A condition is kept as a term and its text is that term's (`Cond.text`); what it gives on a row is
what PostgreSQL gives: NULL columns give NULL, a text column compares texts, a `numeric` column
numbers, a column of another type (a `uuid`) its values, and an argument that cannot be read at the
column's type fails the query whatever the row.

The plan's digest is left out.  It is computed of every segment the plan depends on, though, and
fails where `canon.Decimal` refuses a bound; the plan then fails with it (`boundsAccepted`).
-/

namespace BeSdk.Authz

open Canon Condition

/-! ## Rows and numbers -/

/-- A value of a `numeric` column that is not NaN. -/
structure Numeric where
  value : Number
  scale : Nat
deriving DecidableEq

/-- A column of a row, by its type; `none` is NULL. -/
inductive Cell
  | text (v : Option String)
  | numeric (v : Option Numeric)
  -- of another type, by its name; a value is the text PostgreSQL writes for it
  | typed (type : String) (v : Option String)
deriving DecidableEq

/-- How decimals are written and read, by apd and by PostgreSQL, for which NaN is above all numbers;
and how PostgreSQL reads a text at another type. -/
structure Numbers where
  apd : String → Option Decimal
  out : Numeric → String
  numeric : String → Option (WithTop Number)
  read : String → String → Option String

/-! ## Tests -/

inductive Arg
  | text (s : String)
  | texts (vs : List String)
deriving DecidableEq, Repr

inductive Compare
  | gt | ge | lt | le
deriving DecidableEq, Repr

def Compare.holds (x y : WithTop Number) : Compare → Bool
  | .gt => y < x
  | .ge => y ≤ x
  | .lt => x < y
  | .le => x ≤ y

/-- A column, of a table with an alias or without one. -/
structure Column where
  table : String
  name : String
deriving DecidableEq, Repr

inductive Test
  | eqAny (col : Column) (arg : Nat)
  | eq (col : Column) (arg : Nat)
  | like (col : Column) (arg : Nat)
  | notNull (col : Column)
  | compare (op : Compare) (col : Column) (arg : Nat)
deriving DecidableEq, Repr

namespace Test

/-- What a test gives on a row; `$n` is the n-th argument of the query. -/
def eval (num : Numbers) (row : String → Cell) (params : List Arg) : Test → Outcome
  | .eqAny col n =>
    match params[n - 1]?, row col.name with
    | some (.texts vs), .text v => some (v.map fun v => decide (v ∈ vs))
    | some (.texts vs), .numeric v =>
      (vs.mapM num.numeric).map fun xs => v.map fun v => decide
        ((v.value : WithTop Number) ∈ xs)
    | some (.texts vs), .typed type v =>
      (vs.mapM (num.read type)).map fun xs => v.map fun v => decide (v ∈ xs)
    | _, _ => none
  | .eq col n =>
    match params[n - 1]?, row col.name with
    | some (.text s), .text v => some (v.map fun v => decide (v = s))
    | some (.text s), .numeric v =>
      (num.numeric s).map fun x => v.map fun v => decide ((v.value : WithTop Number) = x)
    | some (.text s), .typed type v =>
      (num.read type s).map fun x => v.map fun v => decide (v = x)
    | _, _ => none
  | .like col n =>
    match params[n - 1]?, row col.name with
    | some (.text s), .text v => some (v.map fun v => Like.like s.toList v.toList)
    | _, _ => none
  | .notNull col =>
    match row col.name with
    | .text v => some (some v.isSome)
    | .numeric v => some (some v.isSome)
    | .typed _ v => some (some v.isSome)
  | .compare op col n =>
    match params[n - 1]?, row col.name with
    | some (.text s), .numeric v =>
      (num.numeric s).map fun x => v.map fun v => op.holds (v.value : WithTop Number) x
    | _, _ => none

end Test

/-! ## The compiler -/

/-- The conditions joined by `OR` in parentheses, `FALSE` for none. -/
def orAll : List (Cond Test) → Cond Test
  | [] => .lit false
  | p :: ps => .paren (.joinOr p ps)

/-- The conditions joined by `AND` in parentheses, `TRUE` for none. -/
def andAll : List (Cond Test) → Cond Test
  | [] => .lit true
  | p :: ps => .paren (.joinAnd p ps)

def likeEscape (s : String) : String := String.ofList (Like.escape s.toList)

/-- A dimension by its name; the empty one where it is not declared. -/
def Resource.dimension (r : Resource) (dim : String) : Dimension :=
  (r.dimensions.lookup dim).getD { kind := .valueSet, column := "" }

structure Compiler where
  r : Resource
  table : String
  principal : String
  base : Nat

namespace Compiler

variable (c : Compiler)

def next (args : List Arg) : Nat := c.base + args.length + 1

def col (name : String) : Column := ⟨c.table, name⟩

def treePart (col : Column) (it : TreeItem) (args : List Arg) : Cond Test × List Arg :=
  let args' := args ++ [.text it.path]
  match it.mode with
  | .subtree =>
    (.paren (.or (.test (.eq col (c.next args))) (.test (.like col (c.next args')))),
      args' ++ [.text (likeEscape it.path ++ "/%")])
  | .exactly => (.test (.eq col (c.next args)), args')

def treeParts (col : Column) : List TreeItem → List Arg → List (Cond Test) × List Arg
  | [], args => ([], args)
  | it :: its, args =>
    let (p, args) := c.treePart col it args
    let (ps, args) := treeParts col its args
    (p :: ps, args)

def bound (col : Column) (open_ closed : Compare) (b : Option String) (isClosed : Option Bool)
    (args : List Arg) : List (Cond Test) × List Arg :=
  match b with
  | none => ([], args)
  | some b =>
    let op := if isClosed.getD false then closed else open_
    ([.test (.compare op col (c.next args))], args ++ [.text b])

def interval (d : Dimension) (a : Atom) (args : List Arg) : Cond Test × List Arg :=
  let col := c.col d.column
  let parts := [.test (.notNull col), .test (.eq (c.col d.currencyColumn) (c.next args))]
  let args := args ++ [.text a.currency]
  let (lo, args) := c.bound col .gt .ge a.lo a.loClosed args
  let (hi, args) := c.bound col .lt .le a.hi a.hiClosed args
  (andAll (parts ++ lo ++ hi), args)

/-- The condition of one atom; none for `all`. -/
def atom (dim : String) (a : Atom) (args : List Arg) :
    Except String (Option (Cond Test) × List Arg) :=
  let d := c.r.dimension dim
  let col := c.col d.column
  if a.kind ≠ .all ∧ d.pushdown = .notPushdownable then
    -- the database cannot decide it: never drop the segment
    .error ("dimension " ++ dim ++ " is not pushdownable")
  else
    match a.kind with
    | .all => .ok (none, args)
    | .within =>
      if a.values = [] then .ok (some (.lit false), args)
      else .ok (some (.test (.eqAny col (c.next args))), args ++ [.texts a.values])
    | .self => .ok (some (.test (.eq col (c.next args))), args ++ [.text c.principal])
    | .tree =>
      let (parts, args) := c.treeParts col a.items args
      .ok (some (orAll parts), args)
    | .interval =>
      let (p, args) := c.interval d a args
      .ok (some p, args)
    | .unknown text => .error ("atom kind " ++ text.quote ++ " on " ++ dim)

def atoms : List (String × Atom) → List Arg → Except String (List (Cond Test) × List Arg)
  | [], args => .ok ([], args)
  | (dim, a) :: rest, args =>
    match c.atom dim a args with
    | .error e => .error e
    | .ok (p, args) =>
      match atoms rest args with
      | .error e => .error e
      | .ok (ps, args) => .ok (p.toList ++ ps, args)

/-- The atoms of a segment by their dimensions' names, a stable text for the same segment. -/
def sortedPairs (s : Segment) : List (String × Atom) := s.pairs.insertionSort fun p q => p.1 ≤ q.1

def segment (s : Segment) (args : List Arg) : Except String (Cond Test × List Arg) :=
  match c.atoms (sortedPairs s) args with
  | .error e => .error e
  | .ok (ps, args) => .ok (andAll ps, args)

def union : List Segment → List Arg → Except String (List (Cond Test) × List Arg)
  | [], args => .ok ([], args)
  | s :: segs, args =>
    match c.segment s args with
    | .error e => .error e
    | .ok (p, args) =>
      match union segs args with
      | .error e => .error e
      | .ok (ps, args) => .ok (p :: ps, args)

end Compiler

/-! ## Plans -/

structure Plan where
  where_ : Cond Test
  args : List Arg
  hits : List (Cond Test)
  sets : List (List String)

/-- Fields returns a row's readable fields from its hit bitmap. -/
def Plan.fields (p : Plan) (hits : List Bool) : List String :=
  sortedKeys (((hits.zip p.sets).filter fun h => h.1).flatMap fun h => h.2)

def Plan.rowHits (p : Plan) (val : Test → Outcome) : List Bool :=
  p.hits.map fun h => decide (h.Holds val)

def Plan.readableWhere (p : Plan) (field : String) : Cond Test :=
  orAll (((p.hits.zip p.sets).filter fun h => field ∈ h.2).map Prod.fst)

/-- ReadableEverywhere reports whether every segment of the plan reads the field. -/
def Plan.readableEverywhere (p : Plan) (field : String) : Bool :=
  p.sets ≠ [] ∧ ∀ set ∈ p.sets, field ∈ set

/-- The segments of an operation whose window contains the instant. -/
def activeFor (parse : String → Option Int) (segs : List Segment) (at_ : Int) (op : String) :
    List Segment :=
  segs.filter fun s => s.operation = op ∧ s.activeAt parse at_

def Segment.boundsAccepted (apd : String → Option Decimal) (s : Segment) : Bool :=
  s.pairs.all fun p => p.2.kind ≠ .interval ∨
    (p.2.lo.all fun b => (apd b).any Decimal.accepted) ∧
      p.2.hi.all fun b => (apd b).any Decimal.accepted

/-- The part of Compile after the conditions. -/
def plan (apd : String → Option Decimal) (r : Resource) (where_ : Cond Test) (args : List Arg)
    (hitPreds : List (Cond Test)) (fieldSegs used : List Segment) : Except String Plan :=
  if used.all fun s => s.boundsAccepted apd then
    .ok { where_ := where_, args := args, hits := hitPreds.map .coalesce
          sets := fieldSegs.map fun s => s.readFields.filter r.shows }
  else .error "refused decimal"

/-- Compile builds the list plan for an operation. -/
def compile (apd : String → Option Decimal) (parse : String → Option Int) (r : Resource)
    (segs : List Segment) (op principal : String) (at_ : Int) (table : String) (argBase : Nat) :
    Except String Plan :=
  let c : Compiler := ⟨r, table, principal, argBase⟩
  let view := activeFor parse segs at_ r.viewOperation
  match c.union view [] with
  | .error e => .error e
  | .ok (viewPreds, args) =>
    if op ≠ r.viewOperation then
      let opSegs := activeFor parse segs at_ op
      match c.union opSegs args with
      | .error e => .error e
      | .ok (opPreds, args) =>
        plan apd r (.and (orAll viewPreds) (orAll opPreds)) args opPreds opSegs (view ++ opSegs)
    else plan apd r (orAll viewPreds) args viewPreds view view

end BeSdk.Authz

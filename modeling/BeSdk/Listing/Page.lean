import BeSdk.Listing.Build

/-!
# Running a page

`list/page.go`: a compiled page runs as one query, and asks for one row more than the page to know
whether another follows.

What PostgreSQL makes of the columns is a parameter (`Database`): how a value of a kind is read,
which fails the query whatever the rows, and how it then compares with a column, which gives NULL
on a NULL column.  The authorization's tests are those of `Authz.Test`, on the same columns.  Rows
with the same keys and the same ID come in the table's order; the ID is a key of the table.
-/

namespace BeSdk.Listing

open Condition

/-- What PostgreSQL makes of a table's columns (`C`) and of values read at a kind (`V`). -/
structure Database (C V : Type) where
  num : Authz.Numbers
  -- the column as the authorization's tests see it
  cell : C → Authz.Cell
  -- a text read at the kind, to compare it with the column
  read : String → Kind → String → Option V
  compare : Op → C → V → Option Bool
  like : C → String → Option Bool
  -- ORDER BY a column, ascending
  order : C → C → Ordering
  -- the column as text, in a cursor
  text : C → String

/-- A row by its columns. -/
abbrev Row (C : Type) := String → C

variable {C V : Type}

/-- A test of the query on a row. -/
def Test.eval (db : Database C V) (args : List Authz.Arg) (row : Row C) : Test → Outcome
  | .plan t => t.eval db.num (fun c => db.cell (row c)) args
  | .compare op col n kind =>
    match args[n - 1]? with
    | some (.text v) => (db.read col.name kind v).map fun x => db.compare op (row col.name) x
    | _ => none
  | .eqAny col n kind =>
    match args[n - 1]? with
    | some (.texts vs) =>
      (vs.mapM (db.read col.name kind)).map fun xs =>
        (xs.map (db.compare .eq (row col.name))).foldl or3 (some false)
    | _ => none
  | .like col n =>
    match args[n - 1]? with
    | some (.text v) => some (db.like (row col.name) v)
    | _ => none

namespace Query

variable (db : Database C V) (texts : Texts) (q : Query)

def val (row : Row C) : Test → Outcome := Test.eval db q.args row

/-- The WHERE clause takes the row. -/
def lists (row : Row C) : Bool := decide ((q.where_).Holds (q.val db row))

/-- The row fails the query. -/
def failsAt (row : Row C) : Bool :=
  ((q.where_).eval (q.val db row)).isNone || q.hits.any fun h => (h.eval (q.val db row)).isNone

def rowHits (row : Row C) : List Bool := q.hits.map fun h => decide (h.Holds (q.val db row))

def fields (row : Row C) : List String := q.plan.fields (q.rowHits db row)

/-- The order of the page: each key in its direction, then the ID. -/
def order (r₁ r₂ : Row C) : Ordering :=
  q.keys.foldr (fun k rest =>
      let o := db.order (r₁ k.column.column) (r₂ k.column.column)
      (if k.desc then o.swap else o).then rest)
    (db.order (r₁ q.spec.idColumn) (r₂ q.spec.idColumn))

/-- The row's part of a cursor. -/
def keysOf (row : Row C) : List String := q.keys.map fun k => db.text (row k.column.column)

/-- The rows of the query, one more than the page. -/
def selected (table : List (Row C)) : List (Row C) :=
  ((table.filter (q.lists db)).mergeSort fun r₁ r₂ => (q.order db r₁ r₂).isLE).take (q.limit + 1)

/-- Page runs one compiled page: its rows and the next cursor, empty on the last page. -/
def page (table : List (Row C)) : Option (List (Row C) × String) :=
  if table.any (q.failsAt db) then none
  else
    let rows := (q.selected db table).take q.limit
    if (q.selected db table).length > q.limit then
      match rows.getLast? with
      | some last => some (rows, q.next texts (q.keysOf db last) (db.text (last q.spec.idColumn)))
      | none => some (rows, "")
    else some (rows, "")

end Query
end BeSdk.Listing

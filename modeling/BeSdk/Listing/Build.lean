import BeSdk.Authz.Sql

/-!
# Building a list

`list/list.go`: one page of a list as one query, with the subject's authorization, the request's
filters, its search and sort, and the cursor it goes on from.  The page is ordered by the sort keys
and by the record's ID, and a cursor names the last row of the page before: its condition takes the
rows strictly after that one.

A restricted field may be filtered, sorted or searched by where every row of the list shows it:
every segment of the plan reads it, or the list is narrowed to the rows that do.

Where the text of a condition comes from is `Cond.text`.  How a query is normalised, the digests and
the text of a cursor are parameters (`Texts`).
-/

namespace BeSdk.Listing

open Condition Canon

/-! ## Specs and requests -/

/-- Kinds of columns: how values are cast. -/
inductive Kind where
  | text
  | numeric
  | date
  | timestamptz
  | uuid
  | boolean
deriving DecidableEq, Repr

structure Column where
  field : String
  column : String
  kind : Kind
  sortable : Bool := false
  filterable : Bool := false
deriving DecidableEq, Repr

/-- A stored search column made of some fields. -/
structure SearchColumn where
  name : String
  column : String
  fields : List String
deriving DecidableEq, Repr

structure Spec where
  operation : String
  table : String
  idColumn : String
  idKind : Kind
  columns : List Column
  search : List SearchColumn
deriving DecidableEq, Repr

structure Order where
  field : String
  desc : Bool := false
deriving DecidableEq, Repr

structure Filter where
  field : String
  op : String
  values : List String
deriving DecidableEq, Repr

structure Request where
  sort : List Order := []
  filters : List Filter := []
  q : String := ""
  cursor : String := ""
  limit : Int := 0
  readableOnly : List String := []
deriving DecidableEq, Repr

structure Cursor where
  v : Int
  keys : List String
  id : String
  f : String
  p : String
deriving DecidableEq, Repr

inductive Refused where
  | invalid (field why : String)
  | fieldNotQueryable (field why : String)
  | cursorInvalid (why : String)
  | queryPlanChanged (why : String)
  | noPlan (why : String)
deriving DecidableEq, Repr

def defaultLimit : Int := 50

def maxLimit : Int := 200

/-! ## Tests -/

inductive Op where
  | eq | ge | gt | le | lt
deriving DecidableEq, Repr

/-- The operators a filter may name, but for `in`. -/
def Op.parse : String → Option Op
  | "eq" => some .eq
  | "gte" => some .ge
  | "gt" => some .gt
  | "lte" => some .le
  | "lt" => some .lt
  | _ => none

inductive Test where
  -- one of the authorization's
  | plan (t : Authz.Test)
  | compare (op : Op) (col : Authz.Column) (arg : Nat) (kind : Kind)
  | eqAny (col : Authz.Column) (arg : Nat) (kind : Kind)
  | like (col : Authz.Column) (arg : Nat)
deriving DecidableEq, Repr

/-! ## The compiler -/

/-- What is not under this repository's control of texts: decimals and instants, the normalisation
of a search, the digests and the text of a cursor. -/
structure Texts where
  apd : String → Option Decimal
  parse : String → Option Int
  normalize : String → String
  filterDigest : List Filter → String → List Order → List String → String
  planDigest : Authz.Resource → List Authz.Segment → String → String
  decode : String → Option Cursor
  encode : Cursor → String

/-- Who asks: the resource of the list's operation and the segments granted on it. -/
structure Subject where
  resource : Authz.Resource
  grant : Except String (List Authz.Segment)
  principal : String
  at_ : Int

structure SortKey where
  column : Column
  desc : Bool
deriving DecidableEq, Repr

structure Query where
  where_ : Cond Test
  args : List Authz.Arg
  keys : List SortKey
  limit : Nat
  hits : List (Cond Test)
  readableOnly : List String
  spec : Spec
  plan : Authz.Plan
  sorts : List Order
  filterHash : String
  planHash : String

/-- The column of a field; where two have the field, the later one. -/
def Spec.column (spec : Spec) (field : String) : Option Column :=
  spec.columns.reverse.find? fun c => c.field = field

def Spec.col (spec : Spec) (name : String) : Authz.Column := ⟨spec.table, name⟩

/-- The number the next argument gets. -/
def nextArg (args : List Authz.Arg) : Nat := args.length + 1

def joinAll : List (Cond Test) → Cond Test
  | [] => .lit true
  | p :: ps => .joinAnd p ps

def joinAny : List (Cond Test) → Cond Test
  | [] => .lit false
  | p :: ps => .joinOr p ps

/-- The fields the list is narrowed by, without repeats. -/
def narrow (r : Authz.Resource) : List String → List String → Except Refused (List String)
  | [], narrowed => .ok narrowed
  | f :: fields, narrowed =>
    if r.shows f then narrow r fields (if f ∈ narrowed then narrowed else narrowed ++ [f])
    else .error (.invalid ("readable_only." ++ f) "not a field of this list")

/-- A field that not every row of the list shows for what is declared of it and asked. -/
def restricted (r : Authz.Resource) (narrowed : List String) (field : String) : Bool :=
  r.fields.lookup field ≠ some .ordinary ∧ field ∉ narrowed

def usable (r : Authz.Resource) (plan : Authz.Plan) (narrowed : List String) (field : String) :
    Bool :=
  !restricted r narrowed field || plan.readableEverywhere field

def filter (spec : Spec) (c : Column) (f : Filter) (args : List Authz.Arg) :
    Except Refused (Cond Test × List Authz.Arg) :=
  let col := spec.col c.column
  if f.op = "in" then
    if f.values = [] then .ok (.lit false, args)
    else .ok (.test (.eqAny col (nextArg args) c.kind), args ++ [.texts f.values])
  else
    match Op.parse f.op, f.values with
    | some op, [v] => .ok (.test (.compare op col (nextArg args) c.kind), args ++ [.text v])
    | _, _ =>
      .error (.invalid ("filter." ++ f.field)
        "operator must be eq, in, gte, gt, lte or lt with one value (in: a list)")

def filters (spec : Spec) (usable : String → Bool) :
    List Filter → List Authz.Arg → Except Refused (List (Cond Test) × List Authz.Arg)
  | [], args => .ok ([], args)
  | f :: fs, args =>
    match spec.column f.field with
    | none => .error (.invalid ("filter." ++ f.field) "not a filterable field")
    | some c =>
      if !c.filterable then .error (.invalid ("filter." ++ f.field) "not a filterable field")
      else if !usable f.field then
        .error (.fieldNotQueryable f.field "this field cannot be used to filter here")
      else
        match filter spec c f args with
        | .error e => .error e
        | .ok (p, args) =>
          match filters spec usable fs args with
          | .error e => .error e
          | .ok (ps, args) => .ok (p :: ps, args)

def searched (spec : Spec) (usable : String → Bool) (pattern : String) :
    List SearchColumn → List Authz.Arg → List (Cond Test) × List Authz.Arg
  | [], args => ([], args)
  | c :: cs, args =>
    if c.fields.all usable then
      let (ps, args') := searched spec usable pattern cs (args ++ [.text pattern])
      (.test (.like (spec.col c.column) (nextArg args)) :: ps, args')
    else searched spec usable pattern cs args

/-- `search.Like`. -/
def likePattern (q : String) : String := "%" ++ Authz.likeEscape q ++ "%"

def search (spec : Spec) (usable : String → Bool) (q : String) (args : List Authz.Arg) :
    List (Cond Test) × List Authz.Arg :=
  if q = "" then ([], args)
  else
    let (ors, args) := searched spec usable (likePattern q) spec.search args
    -- no column this caller may search: nothing matches, nothing leaks
    ([.paren (joinAny ors)], args)

def sortKeys (spec : Spec) (usable : String → Bool) : List Order → Except Refused (List SortKey)
  | [] => .ok []
  | o :: os =>
    match spec.column o.field with
    | none => .error (.invalid ("sort." ++ o.field) "not a sortable field")
    | some c =>
      if !c.sortable then .error (.invalid ("sort." ++ o.field) "not a sortable field")
      else if !usable o.field then
        .error (.fieldNotQueryable o.field "this field cannot be used to sort here")
      else
        match sortKeys spec usable os with
        | .error e => .error e
        | .ok keys => .ok (⟨c, o.desc⟩ :: keys)

/-- The keys before the i-th, equal to the cursor's. -/
def equals (spec : Spec) : List (SortKey × String) → List Authz.Arg →
    List (Cond Test) × List Authz.Arg
  | [], args => ([], args)
  | (k, v) :: ks, args =>
    let (ps, args') := equals spec ks (args ++ [.text v])
    (.test (.compare .eq (spec.col k.column.column) (nextArg args) k.column.kind) :: ps, args')

/-- Rows after the cursor's in the order: by the first key that differs, in its direction, and by
the ID where none does. -/
def after (spec : Spec) (id : String) (before : List (SortKey × String)) :
    List (SortKey × String) → List Authz.Arg → List (Cond Test) × List Authz.Arg
  | [], args =>
    let (ands, args) := equals spec before args
    let last := .test (.compare .gt (spec.col spec.idColumn) (nextArg args) spec.idKind)
    ([.paren (joinAll (ands ++ [last]))], args ++ [.text id])
  | (k, v) :: ks, args =>
    let (ands, args) := equals spec before args
    let op := if k.desc then Op.lt else Op.gt
    let next := .test (.compare op (spec.col k.column.column) (nextArg args) k.column.kind)
    let (ors, args') := after spec id (before ++ [(k, v)]) ks (args ++ [.text v])
    (.paren (joinAll (ands ++ [next])) :: ors, args')

/-- resume decodes a cursor and returns the keyset condition. -/
def resume (texts : Texts) (spec : Spec) (keys : List SortKey) (filterHash planHash raw : String)
    (args : List Authz.Arg) : Except Refused (List (Cond Test) × List Authz.Arg) :=
  if raw = "" then .ok ([], args)
  else
    match texts.decode raw with
    | none => .error (.cursorInvalid "the cursor cannot be read")
    | some c =>
      if c.v ≠ 1 ∨ c.keys.length ≠ keys.length then
        .error (.cursorInvalid "the cursor cannot be read")
      else if c.f ≠ filterHash then
        .error (.cursorInvalid "the cursor belongs to another filter, search or sort")
      else if c.p ≠ planHash then
        .error (.queryPlanChanged "the authorization changed; query again")
      else
        let (ors, args) := after spec c.id [] (keys.zip c.keys) args
        .ok ([.paren (joinAny ors)], args)

def Subject.list (texts : Texts) (s : Subject) (segs : List Authz.Segment) (op table : String) :
    Except String Authz.Plan :=
  Authz.compile texts.apd texts.parse s.resource segs op s.principal s.at_ table 0

/-- The segments the plan depends on, of which its digest is made. -/
def Subject.used (texts : Texts) (s : Subject) (segs : List Authz.Segment) (op : String) :
    List Authz.Segment :=
  let view := Authz.activeFor texts.parse segs s.at_ s.resource.viewOperation
  if op ≠ s.resource.viewOperation then view ++ Authz.activeFor texts.parse segs s.at_ op else view

/-- Build compiles one page for the request's subject. -/
def build (texts : Texts) (subject : Subject) (spec : Spec) (req : Request) :
    Except Refused Query :=
  let limit := if req.limit = 0 then defaultLimit else req.limit
  if limit < 1 ∨ limit > maxLimit then
    .error (.invalid "limit" ("the page size must be 1-" ++ toString maxLimit))
  else
    match subject.grant with
    | .error e => .error (.noPlan e)
    | .ok segs =>
      match subject.list texts segs spec.operation spec.table with
      | .error e => .error (.noPlan e)
      | .ok plan =>
        match narrow subject.resource req.readableOnly [] with
        | .error e => .error e
        | .ok narrowed =>
          let usable := usable subject.resource plan narrowed
          match filters spec usable req.filters plan.args with
          | .error e => .error e
          | .ok (filtered, args) =>
            let q := texts.normalize req.q
            let (found, args) := search spec usable q args
            match sortKeys spec usable req.sort with
            | .error e => .error e
            | .ok keys =>
              let readableOnly := narrowed.mergeSort
              let filterHash := texts.filterDigest req.filters q req.sort readableOnly
              let planHash := texts.planDigest subject.resource
                (subject.used texts segs spec.operation) spec.operation
              match resume texts spec keys filterHash planHash req.cursor args with
              | .error e => .error e
              | .ok (resumed, args) =>
                .ok {
                  where_ := .joinAnd (plan.where_.map .plan)
                    (narrowed.map (fun f => (plan.readableWhere f).map .plan) ++
                      filtered ++ found ++ resumed)
                  args := args
                  keys := keys
                  limit := limit.toNat
                  hits := plan.hits.map fun h => h.map .plan
                  readableOnly := readableOnly
                  spec := spec
                  plan := plan
                  sorts := req.sort
                  filterHash := filterHash
                  planHash := planHash }

/-- Next returns the cursor that continues after a row. -/
def Query.next (texts : Texts) (q : Query) (keys : List String) (id : String) : String :=
  texts.encode { v := 1, keys := keys, id := id, f := q.filterHash, p := q.planHash }

end BeSdk.Listing

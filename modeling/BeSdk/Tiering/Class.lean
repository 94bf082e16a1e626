import BeSdk.Tiering.Plan

/-!
# Data classes

`tiering/class.go`: the class a component declares for its data, and Check, which says what is wrong
with a declaration.  A class has a root table and children, each under the root or under another
child, so that a row of a child belongs to one root up a chain of parents.

Check answers all it finds, each with what its message names.  The columns of a table are a map in
the source, and a list here, in which the first entry of a name counts.
-/

namespace BeSdk.Tiering.Classes

inductive ColumnType where
  | text
  | int2
  | int4
  | int8
  | numeric
  | bool
  | uuid
  | timestamptz
  | date
  | jsonb
  | bytea
  | textArray
  -- any other text
  | unknown (text : String)
deriving DecidableEq, Repr

def ColumnType.known : ColumnType → Bool
  | .unknown _ => false
  | _ => true

inductive ClassCategory where
  | onlineMutable
  | longTermEvidence
  | completedHistory
  | auditEvidence
  | rebuildable
  | unknown (text : String)
deriving DecidableEq, Repr

inductive ClassRoute where
  | postgres
  | objectParquet
  | unknown (text : String)
deriving DecidableEq, Repr

/-- A class's table: `pk` is its single-column key, or `key` its key of several columns. -/
structure Table where
  name : String
  pk : String := ""
  key : List String := []
  columns : List (String × ColumnType)
deriving DecidableEq, Repr

namespace Table

variable (t : Table)

def keyColumns : List String := if t.key ≠ [] then t.key else [t.pk]

def typeOf (col : String) : Option ColumnType := t.columns.lookup col

end Table

/-- A table whose rows belong to a root: `fk` holds the key of its parent, the root where `parent`
is empty. -/
structure Child extends Table where
  fk : String
  parent : String := ""
deriving DecidableEq, Repr

structure Retention where
  minDays : Int := 0
  maxDays : Int := 0
  basis : String := ""
  pending : Bool := false
deriving DecidableEq, Repr

/-- Never is a residence that keeps a class online. -/
def never : Int := -1

/-- The expression `^[a-z_][a-z0-9_]*$`. -/
def plainIdent (s : String) : Bool :=
  match s.toList with
  | [] => false
  | c :: cs => (c.isLower || c = '_') && cs.all fun d => d.isLower || d.isDigit || d = '_'

inductive ClassError where
  | name
  | category
  | neverTiered
  | residence
  | noRoutes
  | route (r : ClassRoute)
  | terminal
  | retention
  | schemaVersion
  | holdOperation
  | approveOperation
  | registry (table : String)
  | tableName (table : String)
  | tableKey (table : String)
  | keyColumn (table column : String)
  | column (table column : String) (type : ColumnType)
  | rootKey
  | childKey (child : String)
  | parentKey (child parent : String)
  | noParent (child : String)
  | cycle (child : String)
  | rootColumn (column : String)
  | anchorType
  | erasable (column : String)
deriving DecidableEq, Repr

def errorIf (bad : Bool) (e : ClassError) : List ClassError := if bad then [e] else []

@[simp] theorem errorIf_eq_nil {bad : Bool} {e : ClassError} :
    errorIf bad e = [] ↔ bad = false := by
  cases bad <;> simp [errorIf]

end BeSdk.Tiering.Classes

namespace BeSdk.Tiering

open Classes

structure Class where
  name : String
  category : ClassCategory
  root : Table
  children : List Child := []
  group : List String := []
  anchor : String
  created : String
  terminal : String
  residenceDays : Int
  retention : Retention
  locate : List String := []
  erasable : List String := []
  routes : List ClassRoute
  schemaVersion : String
  holdOperation : String := ""
  approveOperation : String := ""
deriving DecidableEq, Repr

namespace Class

variable (c : Class)

/-- Tierable says whether the class may leave the online tables. -/
def tierable : Bool := c.category = .completedHistory ∨ c.category = .auditEvidence

def underRoot (ch : Child) : Bool := ch.parent = "" ∨ ch.parent = c.root.name

/-- A child's parent table: the root, or the child it names. -/
def parent (ch : Child) : Option Table :=
  if c.underRoot ch then some c.root
  else (c.children.find? fun o => o.name = ch.parent ∧ o.name ≠ ch.name).map Child.toTable

def child (name : String) : Option Child := c.children.find? fun ch => ch.name = name

/-- The levels from `d` on, up to `fuel` of them. -/
def depthFrom : Nat → Nat → Child → Option Nat
  | 0, _, _ => none
  | fuel + 1, d, ch =>
    if c.underRoot ch then some d
    else
      match c.child ch.parent with
      | none => none
      | some next => depthFrom fuel (d + 1) next

/-- A child's level: 1 under the root, none for a parent chain that does not end at the root. -/
def depth (ch : Child) : Option Nat := c.depthFrom c.children.length 1 ch

def tables : List Table := c.root :: c.children.map Child.toTable

/-- The name, the category, the residence and the routes. -/
def checkTiering (n : Int) : List ClassError :=
  errorIf (c.name = "" ∨ ' ' ∈ c.name.toList ∨ '/' ∈ c.name.toList) .name ++
  errorIf (match c.category with | .unknown _ => true | _ => false) .category ++
  errorIf (c.tierable = false ∧ (c.residenceDays ≠ 0 ∨ c.routes ≠ [])) .neverTiered ++
  (if c.tierable then
    errorIf (c.residenceDays ≠ never ∧ c.residenceDays < n) .residence ++
    errorIf (c.routes = []) .noRoutes ++
    c.routes.flatMap (fun r => errorIf (r ≠ .postgres ∧ r ≠ .objectParquet) (.route r)) ++
    errorIf (c.terminal = "") .terminal
  else [])

def checkRetention : List ClassError :=
  let r := c.retention
  errorIf (r.pending = false ∧ (r.minDays ≤ 0 ∨ r.maxDays < r.minDays ∨ r.basis = "")) .retention ++
  errorIf (c.schemaVersion = "") .schemaVersion ++
  errorIf (c.holdOperation = "" ∧ (r.pending = false ∨ c.erasable ≠ [])) .holdOperation ++
  errorIf (c.approveOperation = "" ∧ r.pending = false) .approveOperation

def checkTable (registries : List String) (t : Table) : List ClassError :=
  errorIf (t.name ∈ registries) (.registry t.name) ++
  errorIf (!plainIdent t.name) (.tableName t.name) ++
  errorIf ((t.pk = "") = (t.key = [])) (.tableKey t.name) ++
  t.keyColumns.flatMap (fun k =>
    errorIf ((t.typeOf k).isNone || !plainIdent k) (.keyColumn t.name k)) ++
  t.columns.flatMap fun col =>
    errorIf (!plainIdent col.1 || !col.2.known) (.column t.name col.1 col.2)

def checkChild (ch : Child) : List ClassError :=
  errorIf (ch.typeOf ch.fk).isNone (.childKey ch.name) ++
  match c.parent ch with
  | some parent =>
    errorIf (parent.pk = "") (.parentKey ch.name parent.name) ++
    errorIf (c.depth ch).isNone (.cycle ch.name)
  | none => [.noParent ch.name]

/-- The columns of the root, and the erasable ones. -/
def checkColumns : List ClassError :=
  ([c.anchor, c.created] ++ c.group ++ c.locate).flatMap
    (fun col => errorIf (c.root.typeOf col).isNone (.rootColumn col)) ++
  errorIf (c.root.typeOf c.anchor ≠ some .timestamptz ∨ c.root.typeOf c.created ≠ some .timestamptz)
    .anchorType ++
  c.erasable.flatMap fun col =>
    errorIf (c.tables.all fun t => (t.typeOf col).isNone) (.erasable col)

/-- Check checks a declaration against the rules that need no database; `registries` are the tables
the component names as unique registries, `n` is the list's default range in days. -/
def check (n : Int) (registries : List String) : List ClassError :=
  c.checkTiering n ++ c.checkRetention ++ c.tables.flatMap (checkTable registries) ++
  errorIf (c.root.pk = "") .rootKey ++ c.children.flatMap c.checkChild ++ c.checkColumns

variable {c} {n : Int} {registries : List String}

/-- A declaration is accepted when each part of it is. -/
theorem check_eq_nil : c.check n registries = [] ↔ c.checkTiering n = [] ∧ c.checkRetention = [] ∧
      (∀ t ∈ c.tables, checkTable registries t = []) ∧ c.root.pk ≠ "" ∧
      (∀ ch ∈ c.children, c.checkChild ch = []) ∧ c.checkColumns = [] := by
  simp only [check, List.append_eq_nil_iff, List.flatMap_eq_nil_iff, errorIf_eq_nil,
    decide_eq_false_iff_not, and_assoc, ne_eq]

end Class
end BeSdk.Tiering

import Mathlib.Data.Finset.Sort
import Mathlib.Data.String.Basic
import BeSdk.Authz.Segment
import BeSdk.Canon.Decimal

/-!
# Deciding one record

`authz/eval.go`: the three-valued evaluation of complete segments on the facts of one record.  A
fact is a value, a known null, or was not obtained; an atom on a fact that was not obtained is
unknown.  A segment is false when one of its atoms is, and a subject is entitled by any segment of
the operation.

How decimals are read from text is the apd library's: `apd` below is its `NewFromString`, `none`
being its error.
-/

namespace BeSdk.Authz

open Canon

inductive Tri
  | false
  | true
  | unknown
deriving DecidableEq, Repr

/-- One fact of a record with explicit presence. -/
inductive Fact
  | value (v : String) (currency : String := "")
  | null
  | unobtained
deriving DecidableEq, Repr

def Tri.ofBool (b : Bool) : Tri := if b then .true else .false

section
variable (apd : String → Option Decimal)

/-- The amount is within a bound: `inner` is the side of the bound that is inside. -/
def withinBound (amount : Decimal) (inner : Ordering) (bound : Option String)
    (closed : Option Bool) :
    Tri :=
  match bound with
  | none => .true
  | some b =>
    match apd b with
    | none => .unknown
    | some d =>
      .ofBool (amount.cmp d = inner ∨ amount.cmp d = .eq ∧ closed.getD Bool.false = Bool.true)

/-- An amount between the bounds, in the atom's currency. -/
def Atom.interval (a : Atom) (v currency : String) : Tri :=
  if currency ≠ a.currency then .false
  else
    match apd v with
    | none => .unknown
    | some amount =>
      match withinBound apd amount .gt a.lo a.loClosed with
      | .true => withinBound apd amount .lt a.hi a.hiClosed
      | outside => outside

def TreeItem.covers (it : TreeItem) (path : String) : Bool :=
  path = it.path ∨ it.mode = .subtree ∧ (it.path ++ "/").toList <+: path.toList

def Atom.eval (a : Atom) (principal : String) (f : Fact) : Tri :=
  if a.kind = .all then .true
  else
    match f with
    | .unobtained => .unknown
    | .null => .false
    | .value v currency =>
      match a.kind with
      | .within => .ofBool (v ∈ a.values)
      | .self => .ofBool (v = principal)
      | .tree =>
        -- an empty path is not the root
        if v = "" then .false else .ofBool (a.items.any fun it => it.covers v)
      | .interval => a.interval apd v currency
      | _ => .unknown

/-- The atoms of a segment, each on its dimension's fact. -/
def evalAtoms (principal : String) (facts : String → Fact) : List (String × Atom) → Tri → Tri
  | [], out => out
  | (dim, a) :: atoms, out =>
    match a.eval apd principal (facts dim) with
    | .false => .false
    | .unknown => evalAtoms principal facts atoms .unknown
    | .true => evalAtoms principal facts atoms out

section
variable (parse : String → Option Int)

def Segment.eval (s : Segment) (facts : String → Fact) (principal : String) (at_ : Int) : Tri :=
  if s.activeAt parse at_ then evalAtoms apd principal facts s.pairs .true else .false

def entitledNext (facts : String → Fact) (principal : String) (at_ : Int)
    (acc : Tri × List String) (s : Segment) : Tri × List String :=
  match s.eval apd parse facts principal at_ with
  | .true => (.true, acc.2 ++ s.readFields)
  | .unknown => (if acc.1 = .false then .unknown else acc.1, acc.2)
  | .false => acc

/-- OR over the operation's segments; fields are the union of the true segments' read fields. -/
def entitled (segs : List Segment) (op : String) (facts : String → Fact) (principal : String)
    (at_ : Int) : Tri × List String :=
  (segs.filter fun s => s.operation = op).foldl (entitledNext apd parse facts principal at_)
    (.false, [])

end
end

structure Decision where
  visible : Tri
  action : Tri
  fields : List String
deriving DecidableEq, Repr

def Tri.and (a b : Tri) : Tri :=
  if a = .false ∨ b = .false then .false
  else if a = .unknown ∨ b = .unknown then .unknown
  else .true

/-- The keys of a map, by `sort.Strings`. -/
def sortedKeys (keys : List String) : List String := keys.toFinset.sort (· ≤ ·)

/-- Evaluate decides one record for a subject's segments. -/
def evaluate (apd : String → Option Decimal) (parse : String → Option Int) (r : Resource)
    (segs : List Segment) (op : String) (facts : String → Fact) (principal : String) (at_ : Int) :
    Decision :=
  let view := entitled apd parse segs r.viewOperation facts principal at_
  let asked := if op ≠ r.viewOperation then entitled apd parse segs op facts principal at_ else view
  { visible := view.1
    action := if op ≠ r.viewOperation then view.1.and asked.1 else view.1
    fields := if view.1 = .true then sortedKeys (asked.2.filter r.shows) else [] }

end BeSdk.Authz

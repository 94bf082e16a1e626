import Mathlib.Data.List.AList

/-!
# Segments

What a component declares of a resource (`authz/defs.go`) and the complete segments an authorization
view grants on it (`authz/segment.go`). A segment has one atom for each declared dimension, a
validity window and the fields it lets read and write; `Segment.check` is the test every segment
passes before it takes part in anything.

A map of the source is an `AList` here: one entry for each key, in the order of one of its
iterations. How the text of an instant is read is a parameter, the same everywhere.
-/

namespace BeSdk.Authz

/-! ## Declarations -/

inductive DimensionKind where
  | valueSet
  | orgTree
  | principal
  | amount
deriving DecidableEq, Repr

/-- Pushdown modes of a dimension; the empty one is `localColumn`. -/
inductive Pushdown where
  | localColumn
  | localProjection
  | notPushdownable
deriving DecidableEq, Repr

inductive FieldClass where
  | ordinary
  | restricted
  | secret
deriving DecidableEq, Repr

/-- One authorization dimension of a resource and where its fact lives. -/
structure Dimension where
  kind : DimensionKind
  column : String
  -- Amount dimensions.
  currencyColumn : String := ""
  pushdown : Pushdown := .localColumn
deriving DecidableEq, Repr

/-- A resource type the component owns: all of its dimensions, and the class of every field that may
be output. -/
structure Resource where
  type : String
  viewOperation : String
  dimensions : AList fun _ : String => Dimension
  fields : AList fun _ : String => FieldClass

def Resource.shows (r : Resource) (field : String) : Bool :=
  (r.fields.lookup field).any (· ≠ .secret)

/-! ## Atoms and segments -/

/-- How an org-tree item covers its path. Every mode but `subtree` is exact. -/
inductive TreeMode where
  | exactly
  | subtree
deriving DecidableEq, Repr

structure TreeItem where
  path : String
  mode : TreeMode
deriving DecidableEq, Repr

/-- Kinds of atom; the last is one this code does not understand. -/
inductive AtomKind where
  | all
  | within
  | tree
  | self
  | interval
  | unknown (text : String)
deriving DecidableEq, Repr

structure Atom where
  kind : AtomKind
  values : List String := []
  items : List TreeItem := []
  currency : String := ""
  lo : Option String := none
  loClosed : Option Bool := none
  hi : Option String := none
  hiClosed : Option Bool := none
deriving DecidableEq, Repr

/-- A validity window, left-closed, right-open; no `till` means no fixed end. -/
structure Window where
  from_ : String
  till : String := ""
deriving DecidableEq, Repr

/-- One complete segment: one resource type, one operation, one atom per declared dimension. -/
structure Segment where
  resourceType : String := ""
  operation : String
  atoms : AList fun _ : String => Atom
  readFields : List String
  writeFields : List String := []
  valid : Window

/-- Whether the segment's window contains `t`, with instants read by `parse`. -/
def Segment.activeAt (parse : String → Option Int) (s : Segment) (t : Int) : Bool :=
  match parse s.valid.from_ with
  | none => false
  | some from_ =>
    if t < from_ then false
    else if s.valid.till = "" then true
    else
      match parse s.valid.till with
      | none => false
      | some till => t < till

/-! ## The check -/

def Atom.check (a : Atom) (operation dim : String) (d : Dimension) : Except String Unit :=
  match a.kind with
  | .all => .ok ()
  | .within => .ok ()
  | .tree =>
    if d.kind ≠ .orgTree then
      .error ("segment for " ++ operation ++ ": a tree atom on " ++ dim)
    else .ok ()
  | .self =>
    if d.kind ≠ .principal then .error ("segment for " ++ operation ++ ": self on " ++ dim)
    else .ok ()
  | .interval =>
    if d.kind ≠ .amount ∨ a.lo.isNone ∧ a.hi.isNone ∨ a.lo.isSome ≠ a.loClosed.isSome ∨
        a.hi.isSome ≠ a.hiClosed.isSome then
      .error ("segment for " ++ operation ++ ": interval on " ++ dim)
    else .ok ()
  | .unknown text =>
    .error ("segment for " ++ operation ++ ": atom kind " ++ text.quote ++ " is not understood")

/-- The atoms of a segment, each against the dimension it names. -/
def checkAtoms (operation : String) (r : Resource) : List (String × Atom) → Except String Unit
  | [] => .ok ()
  | (dim, a) :: atoms =>
    match r.dimensions.lookup dim with
    | none => .error ("segment for " ++ operation ++ ": dimension " ++ dim ++ " is not declared")
    | some d =>
      match a.check operation dim d with
      | .error e => .error e
      | .ok () => checkAtoms operation r atoms

def checkFields (operation : String) (readable : List String) : List String → Except String Unit
  | [] => .ok ()
  | f :: fields =>
    if f ∈ readable then checkFields operation readable fields
    else .error ("segment for " ++ operation ++ ": field " ++ f ++ " writable but not readable")

/-- A segment's atoms as pairs, in the map's order. -/
def Segment.pairs (s : Segment) : List (String × Atom) :=
  s.atoms.entries.map fun entry => (entry.1, entry.2)

/-- Check verifies the segment against its resource. -/
def Segment.check (s : Segment) (r : Resource) : Except String Unit :=
  if s.atoms.entries.length ≠ r.dimensions.entries.length then
    .error ("segment for " ++ s.operation ++ ": " ++ toString s.atoms.entries.length ++
      " atoms for " ++ toString r.dimensions.entries.length ++ " dimensions")
  else
    match checkAtoms s.operation r s.pairs with
    | .error e => .error e
    | .ok () => checkFields s.operation s.readFields s.writeFields

def Segment.Fits (s : Segment) (r : Resource) : Prop := s.check r = .ok ()

/-! ## What a segment that fits has -/

structure Atom.Fits (a : Atom) (d : Dimension) : Prop where
  tree : a.kind = .tree → d.kind = .orgTree
  self : a.kind = .self → d.kind = .principal
  interval : a.kind = .interval → d.kind = .amount ∧ (a.lo.isSome ∨ a.hi.isSome) ∧
    a.lo.isSome = a.loClosed.isSome ∧ a.hi.isSome = a.hiClosed.isSome
  known : ∀ text, a.kind ≠ .unknown text

theorem Atom.fits_of_check {a : Atom} {operation dim : String} {d : Dimension}
    (hcheck : a.check operation dim d = .ok ()) : a.Fits d := by
  unfold Atom.check at hcheck
  split at hcheck
  · next hkind => constructor <;> simp [hkind]
  · next hkind => constructor <;> simp [hkind]
  next hkind =>
    split at hcheck
    · cases hcheck
    next htree => constructor <;> simp [hkind, not_not.mp htree]
  next hkind =>
    split at hcheck
    · cases hcheck
    next hself => constructor <;> simp [hkind, not_not.mp hself]
  next hkind =>
    split at hcheck
    · cases hcheck
    rename_i hinterval
    push Not at hinterval
    obtain ⟨hamount, hbounds, hlo, hhi⟩ := hinterval
    refine ⟨by simp [hkind], by simp [hkind], fun _ => ⟨hamount, ?_, hlo, hhi⟩, by simp [hkind]⟩
    cases hcase : a.lo with
    | some lo => exact .inl rfl
    | none => exact .inr (by simpa [Option.isSome_iff_ne_none] using hbounds (by simp [hcase]))
  cases hcheck

theorem checkAtoms_ok {operation : String} {r : Resource} {atoms : List (String × Atom)}
    (hcheck : checkAtoms operation r atoms = .ok ()) :
    ∀ dim a, (dim, a) ∈ atoms → ∃ d, r.dimensions.lookup dim = some d ∧ a.Fits d := by
  induction atoms with
  | nil => simp
  | cons pair atoms ih =>
    obtain ⟨dim, a⟩ := pair
    unfold checkAtoms at hcheck
    split at hcheck
    · cases hcheck
    rename_i d hd
    split at hcheck
    · cases hcheck
    rename_i hatom
    intro dim' a' hmem
    rcases List.mem_cons.mp hmem with heq | hmem
    · cases heq
      exact ⟨d, hd, Atom.fits_of_check hatom⟩
    exact ih hcheck dim' a' hmem

theorem Segment.Fits.atom {s : Segment} {r : Resource} (h : s.Fits r) {dim : String} {a : Atom}
    (hmem : (dim, a) ∈ s.pairs) : ∃ d, r.dimensions.lookup dim = some d ∧ a.Fits d := by
  unfold Segment.Fits Segment.check at h
  split at h
  · cases h
  split at h
  · cases h
  next hatoms => exact checkAtoms_ok hatoms dim a hmem

end BeSdk.Authz

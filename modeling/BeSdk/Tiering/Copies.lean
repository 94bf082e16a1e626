import BeSdk.Library.Runs
import BeSdk.Library.Tables
import BeSdk.Tiering.Plan

/-!
# A unit's copies

A sealed unit is claimed, copied outside any transaction to its route, verified by reading
everything back and published in one transaction, which checks that the unit is as it was when
claimed.  A published or released unit is written again the same way: by a route change, or by an
erasure, which reads the unit's content from its route and leaves out the erasable columns of one
aggregate.  Each copy is a new manifest version.  Thawing copies a unit's rows to an area of its
own that reads prefer; ReleaseOld deletes the versions a newer one replaced, and CleanOrphans what
no manifest names.

The model has one unit of a class.  A worker of any of these is a process whose phase says what it
has in memory and does next; each transaction is one step, and so is each object put, got or
deleted, so processes interleave at all of them, may be delayed for any time and may stop at any of
them (`crash`).  The warm route's rows are by version and table, the object route's objects by
generation, version and table; an object is created, never written again.

`published` and `erased` are history: the manifest versions in the order they were published, and
the aggregates that were erased, each with the manifest version from which on they are.
-/

namespace BeSdk.Tiering.Copies

open Function

/-- A row: the key of the aggregate it belongs to, as the database has it, and its canonical
columns, the absent ones null. -/
structure Row where
  root : String
  cells : List (String × String)
deriving DecidableEq, Repr

abbrev Content (T : Type) := T → List Row

/-- What a class says of its units: its tables, its erasable columns, a root's key as the canonical
row has it (a text in NFC) and the digest of a content. -/
structure Class (T D : Type) where
  tables : List T
  complete : ∀ t, t ∈ tables
  erasable : List String
  canonical : String → String
  digest : Content T → D

inductive Route where
  | online
  | postgres
  | object
deriving DecidableEq, Repr

inductive Job where
  | transfer (route : Route)
  | reroute (route : Route)
  | erase (root : String)
deriving DecidableEq, Repr

/-- One worker's claim of the unit: the content it writes has the digest `digest`, the unit had
`was` when claimed. -/
structure Claim (D : Type) where
  generation : Nat
  epoch : Nat
  digest : D
  was : D
  state : UnitState
  base : Nat

def Claim.version {D : Type} (c : Claim D) : Nat := c.base + 1

/-- A row of `be_tier_manifest`, under its version. -/
structure Manifest (D : Type) where
  route : Route
  generation : Nat
  digest : D
  superseded : Bool := false

structure ObjectKey (T : Type) where
  generation : Nat
  version : Nat
  table : T
deriving DecidableEq

/-- A read of the unit by its route, as far as it has come. -/
structure Fetch (T : Type) where
  route : Route
  version : Nat
  -- a thawed copy is read instead
  thawed : Bool
  todo : List T
  got : Content T

/-- What a read by the route is for; a caller's read keeps which aggregates were erased when it
began. -/
inductive Use (D : Type) where
  | rewrite (job : Job) (claim : Claim D)
  | thaw
  | read (since : List String)

/-- A replaced version, as ReleaseOld lists it. -/
structure Old where
  version : Nat
  route : Route
  generation : Nat
deriving DecidableEq

/-- Where a process is: what it has in memory and does next. -/
inductive Phase (T D : Type) where
  | idle
  | stopped
  | claimed (job : Job) (claim : Claim D)
  | fetching (use : Use D) (fetch : Fetch T)
  | copying (job : Job) (claim : Claim D) (route : Route) (content : Content T) (todo : List T)
  | verifying (job : Job) (claim : Claim D) (route : Route) (todo : List T) (seen : Content T)
  | publishing (job : Job) (claim : Claim D) (route : Route)
  | thawing (version : Nat) (content : Content T)
  | read (content : Content T) (since : List String)
  | releasing (olds : List Old)
  | cleaning (named : List (Nat × Nat))

/-- The row of `be_tier_thaw`. -/
inductive ThawRow where
  | none
  | live
  | expired
deriving DecidableEq, Repr

structure System (T D : Type) where
  state : UnitState
  digest : D
  generation : Nat
  claimEpoch : Option Nat
  -- the database's epoch
  epoch : Nat
  manifestVersion : Nat
  route : Route
  online : Content T
  warm : Nat → Content T
  thaw : ThawRow
  thawRows : Content T
  objects : ObjectKey T → Option (List Row)
  manifests : Nat → Option (Manifest D)
  -- a release of the online rows was decided
  releasing : Bool
  procs : Nat → Phase T D
  published : List Nat
  erased : List (String × Nat)

inductive Action (T : Type) where
  | failover
  | claim (w : Nat) (job : Job)
  -- a transfer reads the online rows, from one snapshot
  | load (w : Nat)
  -- a rewrite reads the unit's route
  | find (w : Nat)
  -- the rows of a version, or its next object
  | fetch (w : Nat)
  | copy (w : Nat)
  | verify (w : Nat)
  | publish (w : Nat)
  | eraseSealed (root : String)
  | thaw (w : Nat)
  | thawWrite (w : Nat)
  | thawExpires
  -- Get and ReadUnit
  | get (w : Nat)
  -- a read of the online rows
  | query (w : Nat)
  | release
  | deleteOnline (t : T) (keep : Row → Bool)
  | released
  | releaseOld (w : Nat)
  | releaseObjects (w : Nat) (which : T → Bool)
  | releaseRows (w : Nat)
  | cleanOrphans (w : Nat)
  -- the objects older than the window
  | cleanObjects (w : Nat) (old : ObjectKey T → Bool)
  | cleanRows (w : Nat)
  | crash (w : Nat)

def Row.null (erasable : List String) (r : Row) : Row :=
  { r with cells := r.cells.filter fun c => !erasable.contains c.1 }

/-- The erasable columns of the aggregates with such keys become null. -/
def Class.nulls {T D : Type} (cl : Class T D) (which : String → Prop) [DecidablePred which]
    (content : Content T) : Content T :=
  fun t => (content t).map fun r => if which r.root then r.null cl.erasable else r

/-- `nullOnline`: an aggregate's columns in its root's and its children's rows, by its key. -/
def Class.erase {T D : Type} (cl : Class T D) (root : String) : Content T → Content T :=
  cl.nulls (· = root)

/-- What `eraseAgain` does to the rows it has read, which have their canonical keys. -/
def Class.eraseAgain {T D : Type} (cl : Class T D) (root : String) : Content T → Content T :=
  cl.nulls (cl.canonical · = root)

/-- The states a claim for the job may find the unit in. -/
def Job.claims : Job → UnitState → Bool
  | .transfer _, state => state = .sealed
  | _, state => state = .published ∨ state = .released

/-- What one step of a read by the route comes to. -/
inductive Fetched (T : Type) where
  | failed
  | more (fetch : Fetch T)
  | all (content : Content T)

variable {T D : Type} [DecidableEq T] [DecidableEq D]

namespace System

variable (cl : Class T D) (s : System T D)

def goTo (w : Nat) (phase : Phase T D) : System T D := { s with procs := update s.procs w phase }

/-- claim raises the unit's generation for a worker. -/
def claimed (w : Nat) (job : Job) : System T D :=
  { s with generation := s.generation + 1, claimEpoch := some s.epoch }.goTo w (.claimed job
    { generation := s.generation + 1, epoch := s.epoch, digest := s.digest, was := s.digest,
      state := s.state, base := s.manifestVersion })

/-- routeOf: the unit's route and version, as a read begins with them. -/
def routeOf (thawed : Bool) : Fetch T where
  route := s.route
  version := s.manifestVersion
  thawed := thawed
  todo := cl.tables
  got := fun _ => []

/-- A version's rows, read at once; a unit without any is unavailable. -/
def whole (rows : Content T) : Fetched T :=
  if cl.tables.all fun t => (rows t).isEmpty then .failed else .all rows

/-- readUnitRoute: the rows of the version or of the thawed copy, or its objects one by one. -/
def fetchStep (f : Fetch T) : Fetched T :=
  match s.manifests f.version with
  | none => .failed
  | some m =>
    if f.thawed then whole cl s.thawRows
    else
      match f.route, f.todo with
      | .postgres, _ => whole cl (s.warm f.version)
      | .object, [] => .all f.got
      | .object, t :: todo =>
        match s.objects ⟨m.generation, f.version, t⟩ with
        | some rows => .more { f with todo := todo, got := update f.got t rows }
        | none => .failed
      | .online, _ => .failed

/-- What the content read is for: it is written again, changed by an erasure, thawed or answered. -/
def fetched (w : Nat) (use : Use D) (f : Fetch T) (content : Content T) : System T D :=
  match use with
  | .rewrite (.erase root) c =>
    let content := cl.eraseAgain root content
    s.goTo w (.copying (.erase root) { c with digest := cl.digest content } f.route content
      cl.tables)
  | .rewrite (.reroute route) c =>
    s.goTo w (.copying (.reroute route) { c with digest := cl.digest content } route content
      cl.tables)
  | .rewrite (.transfer _) _ => s.goTo w .stopped
  | .thaw => s.goTo w (.thawing f.version content)
  | .read since => s.goTo w (.read content since)

def fetch (w : Nat) (use : Use D) (f : Fetch T) : System T D :=
  match s.fetchStep cl f with
  | .failed => s.goTo w .stopped
  | .more f => s.goTo w (.fetching use f)
  | .all content => s.fetched cl w use f content

def copyRows (version : Nat) (t : T) (rows : List Row) : System T D :=
  { s with warm := update s.warm version (update (s.warm version) t rows) }

def put (key : ObjectKey T) (rows : List Row) : System T D :=
  { s with objects := update s.objects key (some rows) }

/-- copyTables, one table: its rows in one transaction, or its object, which must not be there. -/
def copy (w : Nat) (job : Job) (c : Claim D) (route : Route) (content : Content T) :
    List T → System T D
  | [] => s.goTo w (.verifying job c route cl.tables fun _ => [])
  | t :: todo =>
    match route with
    | .postgres => (s.copyRows c.version t (content t)).goTo w (.copying job c route content todo)
    | .object =>
      let key := ⟨c.generation, c.version, t⟩
      if s.objects key = none then
        (s.put key (content t)).goTo w (.copying job c route content todo)
      else s.goTo w .stopped
    | .online => s.goTo w .stopped

/-- Verify reads the copy back, table by table, and compares the content's digest. -/
def verify (w : Nat) (job : Job) (c : Claim D) (route : Route) (seen : Content T) :
    List T → System T D
  | [] => s.goTo w (if cl.digest seen = c.digest then .publishing job c route else .stopped)
  | t :: todo =>
    match route with
    | .postgres => s.goTo w (.verifying job c route todo (update seen t (s.warm c.version t)))
    | .object =>
      match s.objects ⟨c.generation, c.version, t⟩ with
      | some rows => s.goTo w (.verifying job c route todo (update seen t rows))
      | none => s.goTo w .stopped
    | .online => s.goTo w .stopped

/-- The unit is as the claim found it, and the database's epoch is the claim's. -/
def unchanged (c : Claim D) : Bool :=
  s.state = c.state ∧ s.manifestVersion = c.base ∧ s.generation = c.generation ∧
    s.claimEpoch = some c.epoch ∧ s.epoch = c.epoch ∧ s.digest = c.was

/-- publish's transaction: the manifest and the unit. -/
def publishVersion (c : Claim D) (route : Route) : System T D :=
  { s with
    manifests := update s.manifests c.version
      (some { route := route, generation := c.generation, digest := c.digest })
    state := if s.state = .sealed then .published else s.state
    digest := if s.state = .sealed then s.digest else c.digest
    route := route
    manifestVersion := c.version
    published := c.version :: s.published }

/-- What an erasure adds to it: the thawed copy goes, and the online rows that are still there are
erased. -/
def eraseAlso (c : Claim D) (root : String) : System T D :=
  { s with
    thaw := .none
    thawRows := fun _ => []
    online := if c.state = .published then cl.erase root s.online else s.online
    erased := (root, c.version) :: s.erased }

def publish (w : Nat) (job : Job) (c : Claim D) (route : Route) : System T D :=
  if s.unchanged c then
    match job with
    | .erase root => ((s.publishVersion c route).eraseAlso cl c root).goTo w .idle
    | _ => (s.publishVersion c route).goTo w .idle
  else s.goTo w .stopped

/-- eraseSealed erases online and computes the unit's digest again. -/
def eraseSealed (root : String) : System T D :=
  { s with
    online := cl.erase root s.online
    digest := cl.digest (cl.erase root s.online)
    erased := (root, s.manifestVersion) :: s.erased }

/-- The manifests below a version that are not superseded yet. -/
def olds : List Old :=
  (List.range s.manifestVersion).filterMap fun v =>
    match s.manifests v with
    | some m => if m.superseded then none else some ⟨v, m.route, m.generation⟩
    | none => none

/-- The generation and version of every manifest. -/
def named : List (Nat × Nat) :=
  (List.range (s.manifestVersion + 1)).filterMap fun v =>
    (s.manifests v).map fun m => (m.generation, v)

def releaseNext (w : Nat) (olds : List Old) : System T D :=
  s.goTo w (if olds = [] then .idle else .releasing olds)

/-- releaseold.delete: the version's rows go, and its manifest is superseded. -/
def releaseRows (o : Old) : System T D :=
  { s with
    warm := update s.warm o.version fun _ => []
    manifests := update s.manifests o.version
      ((s.manifests o.version).map fun m => { m with superseded := true }) }

/-- orphans.delete, with an expired thawed copy. -/
def cleanRows : System T D :=
  { s with
    warm := fun v =>
      if v = s.manifestVersion + 1 ∨ (s.manifests v).isSome then s.warm v else fun _ => []
    thawRows := if s.thaw = .expired then fun _ => [] else s.thawRows
    thaw := if s.thaw = .expired then .none else s.thaw }

end System

/-- One transaction of a process, or one object put, got or deleted. -/
def step (cl : Class T D) (s : System T D) : Action T → Option (System T D)
  | .failover => some { s with epoch := s.epoch + 1 }
  | .claim w job =>
    match s.procs w with
    | .idle => if job.claims s.state then some (s.claimed w job) else none
    | _ => none
  | .load w =>
    match s.procs w with
    | .claimed (.transfer route) c =>
      some (s.goTo w (.copying (.transfer route) c route s.online cl.tables))
    | _ => none
  | .find w =>
    match s.procs w with
    | .claimed (.reroute route) c =>
      some (s.goTo w (.fetching (.rewrite (.reroute route) c) (s.routeOf cl false)))
    | .claimed (.erase root) c =>
      some (s.goTo w (.fetching (.rewrite (.erase root) c) (s.routeOf cl false)))
    | _ => none
  | .fetch w =>
    match s.procs w with
    | .fetching use f => some (s.fetch cl w use f)
    | _ => none
  | .copy w =>
    match s.procs w with
    | .copying job c route content todo => some (s.copy cl w job c route content todo)
    | _ => none
  | .verify w =>
    match s.procs w with
    | .verifying job c route todo seen => some (s.verify cl w job c route seen todo)
    | _ => none
  | .publish w =>
    match s.procs w with
    | .publishing job c route => some (s.publish cl w job c route)
    | _ => none
  | .eraseSealed root => if s.state = .sealed then some (s.eraseSealed cl root) else none
  | .thaw w =>
    match s.procs w with
    | .idle =>
      if s.route = .online then none
      else some (s.goTo w (.fetching .thaw (s.routeOf cl false)))
    | _ => none
  | .thawWrite w =>
    match s.procs w with
    | .thawing _ content => some ({ s with thaw := .live, thawRows := content }.goTo w .idle)
    | _ => none
  | .thawExpires => if s.thaw = .live then some { s with thaw := .expired } else none
  | .get w =>
    match s.procs w with
    | .idle =>
      if s.route = .online then none
      else some (s.goTo w (.fetching (.read (s.erased.map (·.1)))
        (s.routeOf cl (s.thaw = .live))))
    | _ => none
  | .query w =>
    match s.procs w with
    | .idle => some (s.goTo w (.read s.online (s.erased.map (·.1))))
    | _ => none
  | .release => if s.state = .published then some { s with releasing := true } else none
  | .deleteOnline t keep =>
    if s.releasing then some { s with online := update s.online t ((s.online t).filter keep) }
    else none
  | .released =>
    if s.releasing ∧ cl.tables.all (fun t => (s.online t).isEmpty) then
      some { s with state := if s.state = .published then .released else s.state }
    else none
  | .releaseOld w =>
    match s.procs w with
    | .idle =>
      some (s.releaseNext w (if s.state = .published ∨ s.state = .released then s.olds else []))
    | _ => none
  | .releaseObjects w which =>
    match s.procs w with
    | .releasing (o :: _) =>
      if o.route = .object then
        some { s with objects := fun key =>
          if key.generation = o.generation ∧ key.version = o.version ∧ which key.table then none
          else s.objects key }
      else none
    | _ => none
  | .releaseRows w =>
    match s.procs w with
    | .releasing (o :: olds) =>
      if o.route = .object ∧
          !cl.tables.all fun t => (s.objects ⟨o.generation, o.version, t⟩).isNone then none
      else some ((s.releaseRows o).releaseNext w olds)
    | _ => none
  | .cleanOrphans w =>
    match s.procs w with
    | .idle => some (s.goTo w (.cleaning s.named))
    | _ => none
  | .cleanObjects w old =>
    match s.procs w with
    | .cleaning named =>
      some { s with objects := fun key =>
        if (key.generation, key.version) ∉ named ∧ old key then none else s.objects key }
    | _ => none
  | .cleanRows w =>
    match s.procs w with
    | .cleaning _ => some (s.cleanRows.goTo w .idle)
    | _ => none
  | .crash w => some (s.goTo w .stopped)

def System.init (cl : Class T D) (content : Content T) : System T D where
  state := .sealed
  digest := cl.digest content
  generation := 0
  claimEpoch := none
  epoch := 0
  manifestVersion := 0
  route := .online
  online := content
  warm := fun _ _ => []
  thaw := .none
  thawRows := fun _ => []
  objects := fun _ => none
  manifests := fun _ => none
  releasing := false
  procs := fun _ => .idle
  published := []
  erased := []

/-- A class with one table and an erasable name; its digest is the rows themselves. -/
def people : Class Unit (List Row) where
  tables := [()]
  complete := fun _ => List.mem_singleton.2 rfl
  erasable := ["name"]
  canonical := id
  digest := fun content => content ()

def nameRow : Row := { root := "a", cells := [("id", "a"), ("name", "n")] }

def runJob (w : Nat) : Job → List (Action Unit)
  | .transfer route =>
    [.claim w (.transfer route), .load w, .copy w, .copy w, .verify w, .verify w, .publish w]
  | job => [.claim w job, .find w, .fetch w, .copy w, .copy w, .verify w, .verify w, .publish w]

end BeSdk.Tiering.Copies

import BeSdk.Library.Like
import BeSdk.Library.Locks
import BeSdk.Library.Runs
import BeSdk.Tiering.Plan

/-!
# Holds, destructions and erasures

A live hold over a unit, its class or one of its records stops the unit's destruction and an
erasure.  Both read the holds twice: once without any lock, to give up early, and again in the
transaction that decides, after it has taken `be_tier_hold` in SHARE mode.  That lock waits for
every transaction that has written a hold and is not committed, and keeps others from writing one
until the decision is committed.

A step is one statement of a transaction, as another process can come between two of them; what a
transaction writes is seen when it commits.  The locks are those of `Locks`: the table in its two
modes, a unit's row and a hold's row.  `PhaseOk` says what a process in each phase has locked and
knows: from the count on, that the holds are the ones it counted, as nobody can write one
(`Kept.holds`), and the unit's row the one it read, as it has locked it.
-/

namespace BeSdk.Tiering

open Runs Function List Option

/-! ## The tables -/

inductive ScopeKind where
  | unit
  | «class»
  | record
deriving DecidableEq, Repr

/-- What a hold or an approval covers; the value is a unit id, a class, or `<class>/<root id>`. -/
structure Scope where
  kind : ScopeKind
  value : String
deriving DecidableEq, Repr

/-- A row of `be_tier_hold`; it is live while it has no `released_at`. -/
structure Hold where
  id : String
  scope : Scope
  live : Bool := true
deriving DecidableEq, Repr

/-- A row of `be_tier_approval`. -/
structure Approval where
  id : String
  scope : Scope
  live : Bool := true
deriving DecidableEq, Repr

/-- A row of `be_tier_unit` with the roots `be_tier_member` has for it. -/
structure UnitRow where
  «class» : String
  state : UnitState
  members : List String := []
  anchor : Option Int := none
deriving DecidableEq, Repr

def recordScope («class» root : String) : Scope := ⟨.record, «class» ++ "/" ++ root⟩

/-- The hold is on the unit, on its class, or on one of its records. -/
def Hold.covers (h : Hold) (unit «class» : String) (members : List String) : Bool :=
  match h.scope.kind with
  | .unit => h.scope.value = unit
  | .class => h.scope.value = «class»
  | .record => members.any fun root => h.scope = recordScope «class» root

def holdsOn (holds : List Hold) (unit «class» : String) (members : List String) : Nat :=
  holds.countP fun h => h.live && h.covers unit «class» members

/-- approvedFor says whether a live approval covers a unit: its own, or its class's standing one. -/
def approvedFor (approvals : List Approval) (unit : String) (u : UnitRow) : Bool :=
  approvals.any fun a => a.live &&
    (a.scope = ⟨.unit, unit⟩ || a.scope = ⟨.class, u.class⟩)

/-- What a class declares of its retention; the defaults are those of one that is not declared. -/
structure HoldClass where
  category : Category := .other
  residenceDays : Option Int := some 0
  minDays : Int := 0
  pending : Bool := false
  erasable : List String := []

/-- The declared classes, the list's default range and the grace. -/
structure HoldConfig where
  classes : String → Option HoldClass
  n : Int
  grace : Int

/-- The zero `time.Time`, 1 January of the year 1; times are nanoseconds since 1970. -/
def zeroTime : Int := -62135596800000000000

def holdSources : List String := ["legal", "audit", "dispute"]

/-- destroyReasons, with the holds and the approval it has read: what holds the destruction back. -/
def destroyReasons (cfg : HoldConfig) (now : Int) (u : UnitRow) (holds : Nat) (approved : Bool) :
    List String :=
  let cl := (cfg.classes u.class).getD {}
  let due := u.anchor.any fun anchor => anchor ≠ zeroTime ∧ anchor + duration cl.minDays ≤ now
  if cl.pending = false ∧ due = false then ["retention_not_due"]
  else
    let d := Plan now cfg.n cfg.grace
      { category := cl.category, residenceDays := cl.residenceDays, retentionPending := cl.pending,
        erasable := cl.erasable ≠ [] }
      { state := u.state, retentionDue := true, approved := approved, holds := holds }
    if d.action = .destroy then []
    else if d.reasons ≠ [] then d.reasons
    else ["retention_not_due"]

variable {cfg : HoldConfig} {u : UnitRow}

/-- A destruction that nothing holds back has counted no hold. -/
theorem destroyReasons_eq_nil {now : Int} {holds : Nat}
    {approved : Bool} (h : destroyReasons cfg now u holds approved = []) : holds = 0 := by
  unfold destroyReasons at h
  dsimp only at h
  split at h
  · cases h
  split at h
  · next hplan => exact (plan_destroy hplan).2.2.2.2.1
  split at h
  · next hreasons => exact absurd h hreasons
  cases h

/-- scopeOf checks that a hold's scope names something of the class. -/
def scopeOf (units : String → Option UnitRow) («class» : String) (scope : Scope) : Bool :=
  match scope.kind with
  | .class => scope.value = «class»
  | .unit => (units scope.value).any fun u => u.class = «class»
  | .record =>
    («class» ++ "/").toList.isPrefixOf scope.value.toList ∧ scope.value.length ≠ «class».length + 1

/-- The hold is of the class, as a lift finds it: the class stands in a pattern as it is. -/
def Hold.of (units : String → Option UnitRow) («class» : String) (h : Hold) : Bool :=
  h.scope.value = «class» ∨
    h.scope.kind = .unit ∧ (units h.scope.value).any (fun u => u.class = «class») ∨
    h.scope.kind = .record ∧ Like.like («class» ++ "/%").toList h.scope.value.toList

/-! ## The transactions -/

/-- What is locked: the table of holds in its two modes, and rows. -/
inductive Lockable where
  | holdsShare
  | holdsRowExclusive
  | unitRow (unit : String)
  | holdRow (id : String)
deriving DecidableEq, Repr

def Lockable.conflicts : Lockable → Lockable → Bool
  | .holdsShare, .holdsRowExclusive => true
  | .holdsRowExclusive, .holdsShare => true
  | .unitRow unit, .unitRow unit' => unit = unit'
  | .holdRow id, .holdRow id' => id = id'
  | _, _ => false

/-- eraseAttempts bounds how many times an erasure starts again when the unit moved on under it. -/
def eraseAttempts : Nat := 5

structure Erasure where
  «class» : String
  root : String
  unit : String
deriving DecidableEq, Repr

inductive Phase where
  | idle
  | holdScope («class» : String) (row : Hold)
  | holdInsert (row : Hold)
  | holdCommit (row : Hold)
  | liftUpdate («class» id : String)
  | liftRow («class» id : String)
  | liftCommit (id : String)
  -- Destroy, the reasons read without locks or, `decides`, in the deciding transaction
  | destroyRead (decides : Bool) (unit : String) (now : Int)
  | destroyCount (decides : Bool) (unit : String) (now : Int) (u : UnitRow)
  | destroyPlan (decides : Bool) (unit : String) (now : Int) (u : UnitRow) (holds : Nat)
  -- the intent's evidence is written, the deciding transaction begins
  | destroyBegin (unit : String)
  | destroyLock (unit : String) (now : Int)
  | destroyCommit (unit : String)
  -- Erase: the unit is read next
  | eraseRead (e : Erasure)
  | eraseFirst (e : Erasure) (state : UnitState)
  -- the content is written next, the unit having been in that state
  | eraseWrite (e : Erasure) (state : UnitState) (attempt : Nat)
  | eraseReread (e : Erasure) (attempt : Nat)
  -- conclude: the table's lock, the count, the commit
  | eraseLock (e : Erasure)
  | eraseCount (e : Erasure)
  | eraseCommit (e : Erasure)
deriving DecidableEq, Repr

/-- The conclusion of a destruction's or an erasure's evidence. -/
inductive Effective where
  | destruction (unit : String)
  | erasure (e : Erasure)
deriving DecidableEq, Repr

structure HoldSystem where
  clock : Int
  holds : List Hold
  approvals : List Approval
  units : String → Option UnitRow
  evidence : List Effective
  phases : Nat → Phase
  locks : Locks Nat Lockable

inductive HoldAction where
  | advance (d : Nat)
  -- the calls
  | hold (i : Nat) («class» : String) (row : Hold) (source reason : String)
  | lift (i : Nat) («class» id : String)
  | destroy (i : Nat) (unit : String)
  | erase (i : Nat) (e : Erasure)
  -- the process's next statement; `stale`: a published or released unit has been claimed by
  -- another worker since the erasure claimed it
  | next (i : Nat) (stale : Bool)
  -- the process stops or its transaction fails: it rolls back
  | fail (i : Nat)
  -- the catalog's other transactions
  | openUnit (unit «class» : String)
  | sealUnit (unit : String) (members : List String) (anchor : Int)
  | publish (unit : String)
  | release (unit : String)
  | approve (a : Approval)
  | withdraw (id : String)

namespace HoldSystem

variable (s : HoldSystem) (i : Nat)

def goTo (phase : Phase) : HoldSystem := { s with phases := update s.phases i phase }

/-- The process takes a lock and goes on, or waits. -/
def lock (r : Lockable) (phase : Phase) : Option HoldSystem :=
  (s.locks.take Lockable.conflicts i r).map fun locks =>
    { s with locks := locks, phases := update s.phases i phase }

/-- The transaction has ended, and with it the call. -/
def finish : HoldSystem := { s with phases := update s.phases i .idle, locks := s.locks.release i }

/-- The row of a unit that no transaction has locked changes. -/
def change (unit : String) (f : UnitRow → Option UnitRow) : Option HoldSystem :=
  if s.locks.all fun held => held.2 ≠ .unitRow unit then
    ((s.units unit).bind f).map fun u => { s with units := update s.units unit (some u) }
  else none

/-- The unit is still as the erasure writes it: sealed, or past it under the erasure's claim. -/
def erasable (state : UnitState) (stale : Bool) (u : UnitRow) : Bool :=
  if state = .sealed then u.state = .sealed
  else (u.state = .published ∨ u.state = .released) ∧ stale = false

/-- The roots `be_tier_member` has for a unit. -/
def members (unit : String) : List String := ((s.units unit).map (·.members)).getD []

/-- One statement of a process: what it does in a phase. -/
def next (cfg : HoldConfig) (stale : Bool) : Phase → Option HoldSystem
  | .idle => none
  -- Hold
  | .holdScope cls row =>
    some (if scopeOf s.units cls row.scope then s.goTo i (.holdInsert row) else s.finish i)
  | .holdInsert row => s.lock i .holdsRowExclusive (.holdCommit row)
  | .holdCommit row => some { s.finish i with holds := s.holds ++ [row] }
  -- LiftHold: no live hold of the class, and the transaction fails
  | .liftUpdate cls id => s.lock i .holdsRowExclusive (.liftRow cls id)
  | .liftRow cls id =>
    if s.holds.any fun h => h.id = id ∧ h.live = true ∧ h.of s.units cls = true then
      s.lock i (.holdRow id) (.liftCommit id)
    else some (s.finish i)
  | .liftCommit id =>
    some { s.finish i with
      holds := s.holds.map fun h => if h.id = id then { h with live := false } else h }
  -- Destroy
  | .destroyRead decides unit now =>
    match s.units unit with
    | none => some (s.finish i)
    | some u =>
      if u.state = .destroyed ∨ u.state = .open then some (s.finish i)
      else if decides then s.lock i (.unitRow unit) (.destroyCount true unit now u)
      else some (s.goTo i (.destroyCount false unit now u))
  | .destroyCount decides unit now u =>
    some (s.goTo i (.destroyPlan decides unit now u
      (holdsOn s.holds unit u.class (s.members unit))))
  | .destroyPlan decides unit now u holds =>
    if destroyReasons cfg now u holds (approvedFor s.approvals unit u) = [] then
      some (s.goTo i (if decides then .destroyCommit unit else .destroyBegin unit))
    else some (s.finish i)
  | .destroyBegin unit => some (s.goTo i (.destroyLock unit s.clock))
  | .destroyLock unit now => s.lock i .holdsShare (.destroyRead true unit now)
  | .destroyCommit unit =>
    some { s.finish i with
      evidence := s.evidence ++ [.destruction unit]
      units := update s.units unit ((s.units unit).map fun u => { u with state := .destroyed }) }
  -- Erase
  | .eraseRead e => (s.units e.unit).map fun u => s.goTo i (.eraseFirst e u.state)
  | .eraseFirst e state =>
    some (if state = .open ∨ state = .destroyed ∨
        0 < holdsOn s.holds e.unit e.class (s.members e.unit) then s.finish i
      else s.goTo i (.eraseWrite e state 1))
  | .eraseWrite e state attempt =>
    if (s.units e.unit).any (erasable state stale) then
      s.lock i (.unitRow e.unit) (.eraseLock e)
    else if attempt < eraseAttempts then some (s.goTo i (.eraseReread e (attempt + 1)))
    else some (s.finish i)
  | .eraseReread e attempt =>
    (s.units e.unit).map fun u =>
      if u.state = .destroyed then s.finish i else s.goTo i (.eraseWrite e u.state attempt)
  | .eraseLock e => s.lock i .holdsShare (.eraseCount e)
  | .eraseCount e =>
    some (if 0 < holdsOn s.holds e.unit e.class (s.members e.unit) then s.finish i
      else s.goTo i (.eraseCommit e))
  | .eraseCommit e => some { s.finish i with evidence := s.evidence ++ [.erasure e] }

end HoldSystem

def holdStep (cfg : HoldConfig) (s : HoldSystem) : HoldAction → Option HoldSystem
  | .advance d => some { s with clock := s.clock + d }
  | .hold i cls row source reason =>
    if s.phases i = .idle ∧ (cfg.classes cls).isSome ∧ source ∈ holdSources ∧ reason ≠ "" ∧
        row.live = true then
      some (s.goTo i (.holdScope cls row))
    else none
  | .lift i cls id =>
    if s.phases i = .idle ∧ (cfg.classes cls).isSome then some (s.goTo i (.liftUpdate cls id))
    else none
  | .destroy i unit =>
    if s.phases i = .idle then some (s.goTo i (.destroyRead false unit s.clock)) else none
  | .erase i e =>
    -- the member's row says which unit
    if s.phases i = .idle ∧ ((cfg.classes e.class).any fun cl => cl.erasable ≠ []) ∧
        ((s.units e.unit).any fun u => u.class = e.class ∧ e.root ∈ u.members) then
      some (s.goTo i (.eraseRead e))
    else none
  | .next i stale => s.next i cfg stale (s.phases i)
  | .fail i => some (s.finish i)
  | .openUnit unit cls =>
    if s.units unit = none then
      some { s with units := update s.units unit (some { «class» := cls, state := .open }) }
    else none
  | .sealUnit unit members anchor =>
    s.change unit fun u =>
      if u.state = .open then
        some { u with state := .sealed, members := members, anchor := some anchor }
      else none
  | .publish unit =>
    s.change unit fun u => if u.state = .sealed then some { u with state := .published } else none
  | .release unit =>
    s.change unit fun u => if u.state = .published then some { u with state := .released } else none
  | .approve a => some { s with approvals := s.approvals ++ [a] }
  | .withdraw id =>
    some { s with
      approvals := s.approvals.map fun a => if a.id = id then { a with live := false } else a }

def HoldSystem.Quiet (s : HoldSystem) : Prop := (∀ i, s.phases i = .idle) ∧ s.locks = []

/-! ## What a process has locked and knows -/

def Erasure.Found (units : String → Option UnitRow) (e : Erasure) : Prop :=
  ∃ u, units e.unit = some u ∧ u.class = e.class

def PhaseOk (locks : Locks Nat Lockable) (holds : List Hold) (units : String → Option UnitRow)
    (i : Nat) : Phase → Prop
  | .holdCommit _ => (i, .holdsRowExclusive) ∈ locks
  | .liftRow _ _ => (i, .holdsRowExclusive) ∈ locks
  | .liftCommit _ => (i, .holdsRowExclusive) ∈ locks
  | .destroyRead true _ _ => (i, .holdsShare) ∈ locks
  | .destroyCount true unit _ u =>
    (i, .holdsShare) ∈ locks ∧ (i, .unitRow unit) ∈ locks ∧ units unit = some u
  | .destroyPlan true unit _ u n =>
    (i, .holdsShare) ∈ locks ∧ (i, .unitRow unit) ∈ locks ∧ units unit = some u ∧
      holdsOn holds unit u.class u.members = n
  | .destroyCommit unit =>
    (i, .holdsShare) ∈ locks ∧ (i, .unitRow unit) ∈ locks ∧
      ∃ u, units unit = some u ∧ holdsOn holds unit u.class u.members = 0
  | .eraseRead e | .eraseFirst e _ | .eraseWrite e _ _ | .eraseReread e _ => e.Found units
  | .eraseLock e => (i, .unitRow e.unit) ∈ locks ∧ e.Found units
  | .eraseCount e => (i, .holdsShare) ∈ locks ∧ (i, .unitRow e.unit) ∈ locks ∧ e.Found units
  | .eraseCommit e =>
    (i, .holdsShare) ∈ locks ∧ (i, .unitRow e.unit) ∈ locks ∧
      ∃ u, units e.unit = some u ∧ u.class = e.class ∧ holdsOn holds e.unit u.class u.members = 0
  | _ => True

/-- What the others leave to a process: its locks, the holds while it has the table's lock, and the
rows it has locked; of the other units their class. -/
structure Kept (j : Nat) (s s' : HoldSystem) : Prop where
  locks : ∀ r, (j, r) ∈ s.locks → (j, r) ∈ s'.locks
  holds : (j, .holdsShare) ∈ s.locks → s'.holds = s.holds
  units : ∀ unit u, s.units unit = some u →
    ∃ u', s'.units unit = some u' ∧ u'.class = u.class ∧ ((j, .unitRow unit) ∈ s.locks → u' = u)

variable {j : Nat} {s s' : HoldSystem}

theorem Kept.found (h : Kept j s s') {e : Erasure}
    (hfound : e.Found s.units) : e.Found s'.units := by
  obtain ⟨u, hu, hclass⟩ := hfound
  obtain ⟨u', hu', hsame, -⟩ := h.units _ u hu
  exact ⟨u', hu', hsame.trans hclass⟩

variable {unit : String}

theorem Kept.row (h : Kept j s s') (hlock : (j, .unitRow unit) ∈ s.locks)
    (hu : s.units unit = some u) : s'.units unit = some u := by
  obtain ⟨u', hu', -, hsame⟩ := h.units _ u hu
  rw [hu', hsame hlock]

variable {phase : Phase}

/-- **The others.** What a process knows holds on while others move. -/
theorem PhaseOk.kept (h : Kept j s s') (hok : PhaseOk s.locks s.holds s.units j phase) :
    PhaseOk s'.locks s'.holds s'.units j phase := by
  cases phase with
  | holdCommit row | liftRow cls id | liftCommit id => exact h.locks _ hok
  | destroyRead decides unit now =>
    cases decides with
    | false => trivial
    | true => exact h.locks _ hok
  | destroyCount decides unit now u =>
    cases decides with
    | false => trivial
    | true => exact ⟨h.locks _ hok.1, h.locks _ hok.2.1, h.row hok.2.1 hok.2.2⟩
  | destroyPlan decides unit now u n =>
    cases decides with
    | false => trivial
    | true =>
      obtain ⟨hshare, hrow, hu, hcount⟩ := hok
      exact ⟨h.locks _ hshare, h.locks _ hrow, h.row hrow hu, by rw [h.holds hshare, hcount]⟩
  | destroyCommit unit =>
    obtain ⟨hshare, hrow, u, hu, hcount⟩ := hok
    exact ⟨h.locks _ hshare, h.locks _ hrow, u, h.row hrow hu, by rw [h.holds hshare, hcount]⟩
  | eraseRead e | eraseFirst e u | eraseWrite e state attempt | eraseReread e attempt =>
    exact h.found hok
  | eraseLock e => exact ⟨h.locks _ hok.1, h.found hok.2⟩
  | eraseCount e => exact ⟨h.locks _ hok.1, h.locks _ hok.2.1, h.found hok.2.2⟩
  | eraseCommit e =>
    obtain ⟨hshare, hrow, u, hu, hclass, hcount⟩ := hok
    exact ⟨h.locks _ hshare, h.locks _ hrow, u, h.row hrow hu, hclass,
      by rw [h.holds hshare, hcount]⟩
  | _ => trivial

structure HoldOk (s : HoldSystem) : Prop where
  exclusive : s.locks.Exclusive Lockable.conflicts
  phase : ∀ i, PhaseOk s.locks s.holds s.units i (s.phases i)

variable {i : Nat}

/-- A process moves: what it does next is right, and the others are left theirs. -/
theorem HoldOk.move (h : HoldOk s) (hphases : s'.phases = update s.phases i phase)
    (hexclusive : s'.locks.Exclusive Lockable.conflicts)
    (hphase : PhaseOk s'.locks s'.holds s'.units i phase) (hkept : ∀ j, j ≠ i → Kept j s s') :
    HoldOk s' := by
  refine ⟨hexclusive, fun j => ?_⟩
  rw [hphases]
  by_cases hj : j = i
  · subst hj
    rwa [update_self]
  rw [update_of_ne hj]
  exact (h.phase j).kept (hkept j hj)

theorem kept_refl (j : Nat) (s : HoldSystem) : Kept j s s where
  locks := fun _ h => h
  holds := fun _ => rfl
  units := fun _ u hu => ⟨u, hu, rfl, fun _ => rfl⟩

/-- A transaction of the catalog, which leaves every process theirs. -/
theorem HoldOk.apart (h : HoldOk s) (hphases : s'.phases = s.phases) (hlocks : s'.locks = s.locks)
    (hkept : ∀ j, Kept j s s') : HoldOk s' := by
  refine ⟨hlocks ▸ h.exclusive, fun j => ?_⟩
  rw [hphases]
  exact (h.phase j).kept (hkept j)

theorem HoldOk.goTo (h : HoldOk s)
    (hphase : PhaseOk s.locks s.holds s.units i phase) : HoldOk (s.goTo i phase) :=
  h.move rfl h.exclusive hphase fun j _ => ⟨fun _ hr => hr, fun _ => rfl, (kept_refl j s).units⟩

theorem Lockable.conflicts_comm (r r' : Lockable) : r.conflicts r' = r'.conflicts r := by
  cases r <;> cases r' <;> simp [Lockable.conflicts, eq_comm]

theorem HoldOk.lock (h : HoldOk s) {i : Nat} {r : Lockable} (hlock : s.lock i r phase = some s')
    (hphase : PhaseOk ((i, r) :: s.locks) s.holds s.units i phase) : HoldOk s' := by
  simp only [HoldSystem.lock, map_eq_some_iff, Locks.take_eq_some] at hlock
  obtain ⟨_, ⟨hfree, rfl⟩, rfl⟩ := hlock
  exact h.move rfl (h.exclusive.take Lockable.conflicts_comm hfree) hphase fun j _ =>
    ⟨fun _ hr => mem_cons_of_mem _ hr, fun _ => rfl, (kept_refl j s).units⟩

/-- Ending a transaction takes nothing from the others. -/
theorem kept_finish (hj : j ≠ i) : Kept j s (s.finish i) where
  locks := fun _ hr => Locks.mem_release.2 ⟨hr, hj⟩
  holds := fun _ => rfl
  units := (kept_refl j s).units

theorem HoldOk.finish (h : HoldOk s) (i : Nat) : HoldOk (s.finish i) :=
  h.move rfl (h.exclusive.release i) trivial fun _ hj => kept_finish hj

/-- While a process has written a hold, nobody has the table's lock. -/
theorem HoldOk.no_share (h : HoldOk s) (hj : j ≠ i)
    (hwrites : (i, .holdsRowExclusive) ∈ s.locks) : (j, .holdsShare) ∉ s.locks :=
  fun hshare => hj (h.exclusive _ _ _ _ hshare hwrites rfl)

theorem HoldOk.commit_holds (h : HoldOk s) (hwrites : (i, .holdsRowExclusive) ∈ s.locks)
    (holds : List Hold) : HoldOk { s.finish i with holds := holds } := by
  refine h.move rfl (h.exclusive.release i) trivial fun j hj => ?_
  exact ⟨(kept_finish hj).locks, fun hshare => absurd hshare (h.no_share hj hwrites),
    (kept_finish hj).units⟩

/-- The row of a unit changes, its class the same, and no other process has it locked. -/
theorem kept_update (u' : UnitRow) (hu : s.units unit = some u) (hclass : u'.class = u.class)
    (hfree : (j, .unitRow unit) ∉ s.locks) {unit' : String} {v : UnitRow}
    (hv : s.units unit' = some v) :
    ∃ v', update s.units unit (some u') unit' = some v' ∧ v'.class = v.class ∧
      ((j, .unitRow unit') ∈ s.locks → v' = v) := by
  by_cases hunit : unit' = unit
  · subst hunit
    rw [hu, some.injEq] at hv
    subst hv
    exact ⟨u', update_self .., hclass, fun hlock => absurd hlock hfree⟩
  exact ⟨v, by rw [update_of_ne hunit, hv], rfl, fun _ => rfl⟩

theorem HoldOk.change (h : HoldOk s) {f : UnitRow → Option UnitRow}
    (hf : ∀ u u', f u = some u' → u'.class = u.class)
    (hchange : s.change unit f = some s') : HoldOk s' := by
  unfold HoldSystem.change at hchange
  split at hchange
  next hfree =>
    simp only [map_eq_some_iff, bind_eq_some_iff] at hchange
    obtain ⟨u', ⟨u, hu, hu'⟩, rfl⟩ := hchange
    refine h.apart rfl rfl fun j => ⟨fun _ hr => hr, fun _ => rfl, fun _ _ hv => ?_⟩
    refine kept_update u' hu (hf u u' hu') (fun hlock => ?_) hv
    simpa using all_eq_true.1 hfree _ hlock
  cases hchange

theorem members_eq (hu : s.units unit = some u) : s.members unit = u.members := by
  simp [HoldSystem.members, hu]

variable {stale : Bool}

/-- **A statement.** Each phase hands on what it has locked and read. -/
theorem HoldOk.next (h : HoldOk s) {i : Nat} (hphase : PhaseOk s.locks s.holds s.units i phase)
    (hnext : s.next i cfg stale phase = some s') : HoldOk s' := by
  cases phase with simp only [HoldSystem.next] at hnext
  | idle => cases hnext
  | holdScope cls row =>
    cases hnext
    split
    · exact h.goTo trivial
    exact h.finish i
  | holdInsert row | liftUpdate cls id | destroyLock unit now => exact h.lock hnext mem_cons_self
  | holdCommit row | liftCommit id =>
    cases hnext
    exact h.commit_holds hphase _
  | liftRow cls id =>
    split at hnext
    · exact h.lock hnext (mem_cons_of_mem _ hphase)
    · cases hnext
      exact h.finish i
  | destroyRead decides unit now =>
    split at hnext
    · cases hnext
      exact h.finish i
    rename_i u hu
    split at hnext
    · cases hnext
      exact h.finish i
    · cases decides with
      | false =>
        cases hnext
        exact h.goTo trivial
      | true => exact h.lock hnext ⟨mem_cons_of_mem _ hphase, mem_cons_self, hu⟩
  | destroyCount decides unit now u =>
    cases hnext
    cases decides with
    | false => exact h.goTo trivial
    | true =>
      obtain ⟨hshare, hrow, hu⟩ := hphase
      exact h.goTo ⟨hshare, hrow, hu, by rw [members_eq hu]⟩
  | destroyPlan decides unit now u n =>
    split at hnext
    next hreasons =>
      cases hnext
      cases decides with
      | false => exact h.goTo trivial
      | true =>
        obtain ⟨hshare, hrow, hu, hcount⟩ := hphase
        exact h.goTo ⟨hshare, hrow, u, hu, hcount.trans (destroyReasons_eq_nil hreasons)⟩
    · cases hnext
      exact h.finish i
  | destroyBegin unit =>
    cases hnext
    exact h.goTo trivial
  | destroyCommit unit =>
    cases hnext
    obtain ⟨-, hrow, u, hu, -⟩ := hphase
    refine h.move rfl (h.exclusive.release i) trivial fun j hj => ?_
    refine ⟨(kept_finish hj).locks, fun _ => rfl, fun _ _ hv => ?_⟩
    have hfree : (j, .unitRow unit) ∉ s.locks := fun hlock =>
      hj (h.exclusive _ _ _ _ hlock hrow (by simp [Lockable.conflicts]))
    simp only [hu, map_some]
    exact kept_update { u with state := .destroyed } hu rfl hfree hv
  | eraseRead e =>
    obtain ⟨u, -, rfl⟩ := map_eq_some_iff.1 hnext
    exact h.goTo hphase
  | eraseFirst e state =>
    cases hnext
    split
    · exact h.finish i
    exact h.goTo hphase
  | eraseWrite e state attempt =>
    split at hnext
    · exact h.lock hnext ⟨mem_cons_self, hphase⟩
    split at hnext
    · cases hnext
      exact h.goTo hphase
    · cases hnext
      exact h.finish i
  | eraseReread e attempt =>
    obtain ⟨u, -, rfl⟩ := map_eq_some_iff.1 hnext
    split
    · exact h.finish i
    exact h.goTo hphase
  | eraseLock e => exact h.lock hnext ⟨mem_cons_self, mem_cons_of_mem _ hphase.1, hphase.2⟩
  | eraseCount e =>
    cases hnext
    obtain ⟨hshare, hrow, u, hu, hclass⟩ := hphase
    split
    · exact h.finish i
    rename_i hcount
    refine h.goTo ⟨hshare, hrow, u, hu, hclass, ?_⟩
    rw [members_eq hu, ← hclass] at hcount
    omega
  | eraseCommit e =>
    cases hnext
    exact h.move rfl (h.exclusive.release i) trivial fun j hj =>
      ⟨(kept_finish hj).locks, fun _ => rfl, (kept_finish hj).units⟩

theorem holdStep_ok {a : HoldAction} (h : HoldOk s)
    (hstep : holdStep cfg s a = some s') : HoldOk s' := by
  cases a with
  | advance d | approve a | withdraw id =>
    cases hstep
    exact ⟨h.exclusive, h.phase⟩
  | hold i cls row source reason | lift i cls id | destroy i unit =>
    obtain ⟨-, ⟨⟩⟩ := ite_none_right_eq_some.1 hstep
    exact h.goTo trivial
  | erase i e =>
    obtain ⟨⟨-, -, hmember⟩, ⟨⟩⟩ := ite_none_right_eq_some.1 hstep
    obtain ⟨u, hu, hclass⟩ := (any_eq_true _ _).1 hmember
    exact h.goTo ⟨u, hu, (of_decide_eq_true hclass).1⟩
  | next i stale => exact h.next (h.phase i) hstep
  | fail i =>
    cases hstep
    exact h.finish i
  | openUnit unit cls =>
    obtain ⟨hnew, ⟨⟩⟩ := ite_none_right_eq_some.1 hstep
    refine h.apart rfl rfl fun j => ?_
    refine ⟨fun _ hr => hr, fun _ => rfl, fun unit' u hu => ⟨u, ?_, rfl, fun _ => rfl⟩⟩
    have hother : unit' ≠ unit := by
      rintro rfl
      rw [hnew] at hu
      cases hu
    exact (update_of_ne hother _ _).trans hu
  | sealUnit unit members anchor | publish unit | release unit =>
    refine h.change (fun u u' hu => ?_) hstep
    simp only [ite_none_right_eq_some, some.injEq] at hu
    rw [← hu.2]

theorem holdOk_quiet (hquiet : s.Quiet) : HoldOk s where
  exclusive := by
    rw [hquiet.2]
    exact Locks.exclusive_nil
  phase := by
    intro i
    rw [hquiet.1 i]
    trivial

/-! ## Decisions -/

/-- The step marks the unit destroyed, or concludes an erasure of one of its aggregates. -/
def Decides (s s' : HoldSystem) (unit : String) : Prop :=
  ((s.units unit).map (·.state) ≠ some .destroyed ∧
    (s'.units unit).map (·.state) = some .destroyed) ∨
  ∃ e, e.unit = unit ∧ s'.evidence = s.evidence ++ [.erasure e]

theorem no_hold_of_count {holds : List Hold} {cls : String} {members : List String}
    (hcount : holdsOn holds unit cls members = 0) :
    ∀ h ∈ holds, h.live = true → h.covers unit cls members = false := by
  intro h hh hlive
  simpa [hlive] using countP_eq_zero.1 hcount h hh

/-- The tables a decision is seen in are as they were. -/
def Undecided (s s' : HoldSystem) : Prop := s'.units = s.units ∧ s'.evidence = s.evidence

theorem Undecided.not_decides (h : Undecided s s') (unit : String) : ¬ Decides s s' unit := by
  rintro (⟨hbefore, hafter⟩ | ⟨e, -, hevidence⟩)
  · exact hbefore (h.1 ▸ hafter)
  simp [h.2] at hevidence

theorem undecided_lock {r : Lockable} (hlock : s.lock i r phase = some s') : Undecided s s' := by
  simp only [HoldSystem.lock, map_eq_some_iff] at hlock
  obtain ⟨_, -, rfl⟩ := hlock
  exact ⟨rfl, rfl⟩

theorem undecided_ite {t t' : HoldSystem} {c : Prop} [Decidable c] (ht : Undecided s t)
    (ht' : Undecided s t') : Undecided s (if c then t else t') := by
  split
  · exact ht
  exact ht'

/-- A statement decides nothing, or it is the commit of a decision. -/
theorem next_cases (hnext : s.next i cfg stale phase = some s') :
    Undecided s s' ∨ (∃ unit, phase = .destroyCommit unit) ∨ ∃ e, phase = .eraseCommit e := by
  cases phase with simp only [HoldSystem.next] at hnext
  | idle => cases hnext
  | holdInsert row | liftUpdate cls id | destroyLock unit now | eraseLock e =>
    exact .inl (undecided_lock hnext)
  | holdScope cls row | eraseFirst e state | eraseCount e =>
    cases hnext
    exact .inl (undecided_ite ⟨rfl, rfl⟩ ⟨rfl, rfl⟩)
  | liftRow cls id =>
    split at hnext
    · exact .inl (undecided_lock hnext)
    · cases hnext
      exact .inl ⟨rfl, rfl⟩
  | destroyRead decides unit now =>
    split at hnext
    · cases hnext
      exact .inl ⟨rfl, rfl⟩
    split at hnext
    · cases hnext
      exact .inl ⟨rfl, rfl⟩
    split at hnext
    · exact .inl (undecided_lock hnext)
    · cases hnext
      exact .inl ⟨rfl, rfl⟩
  | destroyPlan decides unit now u n => split at hnext <;> cases hnext <;> exact .inl ⟨rfl, rfl⟩
  | eraseRead e =>
    obtain ⟨u, -, rfl⟩ := map_eq_some_iff.1 hnext
    exact .inl ⟨rfl, rfl⟩
  | eraseWrite e state attempt =>
    split at hnext
    · exact .inl (undecided_lock hnext)
    split at hnext <;> cases hnext <;> exact .inl ⟨rfl, rfl⟩
  | eraseReread e attempt =>
    obtain ⟨u, -, rfl⟩ := map_eq_some_iff.1 hnext
    exact .inl (undecided_ite ⟨rfl, rfl⟩ ⟨rfl, rfl⟩)
  | destroyCommit unit => exact .inr (.inl ⟨unit, rfl⟩)
  | eraseCommit e => exact .inr (.inr ⟨e, rfl⟩)
  | _ =>
    cases hnext
    exact .inl ⟨rfl, rfl⟩

theorem update_decides_nothing (unit : String) (u' : UnitRow)
    (hunits : s'.units = update s.units unit (some u')) (hevidence : s'.evidence = s.evidence)
    (hstate : u'.state ≠ .destroyed) (unit' : String) : ¬ Decides s s' unit' := by
  rintro (⟨hbefore, hafter⟩ | ⟨e, -, hadded⟩)
  · rw [hunits] at hafter
    by_cases hunit : unit' = unit
    · subst hunit
      rw [update_self, map_some, some.injEq] at hafter
      exact hstate hafter
    rw [update_of_ne hunit] at hafter
    exact hbefore hafter
  simp [hevidence] at hadded

theorem change_decides_nothing
    {f : UnitRow → Option UnitRow} (hf : ∀ u u', f u = some u' → u'.state ≠ .destroyed)
    (hchange : s.change unit f = some s') (unit' : String) : ¬ Decides s s' unit' := by
  unfold HoldSystem.change at hchange
  split at hchange
  · simp only [map_eq_some_iff, bind_eq_some_iff] at hchange
    obtain ⟨u', ⟨u, -, hu'⟩, rfl⟩ := hchange
    refine update_decides_nothing unit u' ?_ ?_ (hf u u' hu') unit' <;> rfl
  cases hchange

/-- Only a process's statement decides: a call only begins, and the catalog's other transactions
destroy no unit. -/
theorem holdStep_decides {a : HoldAction} (hstep : holdStep cfg s a = some s')
    (hdecides : Decides s s' unit) : ∃ i stale, s.next i cfg stale (s.phases i) = some s' := by
  have hcall : ∀ (c : Prop) [Decidable c] (i : Nat) (phase : Phase),
      (if c then some (s.goTo i phase) else none) ≠ some s' := by
    intro c _ i phase hcall
    rw [ite_none_right_eq_some, some.injEq] at hcall
    obtain ⟨-, rfl⟩ := hcall
    exact Undecided.not_decides ⟨rfl, rfl⟩ unit hdecides
  cases a with
  | next i stale => exact ⟨i, stale, hstep⟩
  | hold i cls row source reason | lift i cls id | destroy i unit' | erase i e =>
    exact absurd hstep (hcall _ _ _)
  | openUnit unit' cls =>
    obtain ⟨-, ⟨⟩⟩ := ite_none_right_eq_some.1 hstep
    refine absurd hdecides (update_decides_nothing unit' { «class» := cls, state := .open } ?_ ?_
      (by simp) unit) <;> rfl
  | sealUnit unit' members anchor | publish unit' | release unit' =>
    refine absurd hdecides (change_decides_nothing (fun u u' hu => ?_) hstep unit)
    simp only [ite_none_right_eq_some, some.injEq] at hu
    simp [← hu.2]
  | _ =>
    cases hstep
    exact absurd hdecides (Undecided.not_decides ⟨rfl, rfl⟩ unit)

/-- The commit of a decision: what its phase knows is that no hold covers the unit. -/
theorem next_decides (hphase : PhaseOk s.locks s.holds s.units i phase)
    (hnext : s.next i cfg stale phase = some s') (hdecides : Decides s s' unit) :
    ∃ u, s.units unit = some u ∧ holdsOn s.holds unit u.class u.members = 0 := by
  rcases next_cases hnext with hsame | ⟨unit', rfl⟩ | ⟨e, rfl⟩
  · exact absurd hdecides (hsame.not_decides unit)
  · obtain ⟨-, -, u, hu, hcount⟩ := hphase
    cases hnext
    obtain rfl : unit = unit' := by
      by_contra hunit
      rcases hdecides with ⟨hbefore, hafter⟩ | ⟨e, -, hevidence⟩
      · dsimp only at hafter
        rw [update_of_ne hunit] at hafter
        exact hbefore hafter
      simp at hevidence
    exact ⟨u, hu, hcount⟩
  obtain ⟨-, -, u, hu, -, hcount⟩ := hphase
  cases hnext
  obtain rfl : e.unit = unit := by
    rcases hdecides with ⟨hbefore, hafter⟩ | ⟨e', hunit, hevidence⟩
    · exact absurd hafter hbefore
    simp only [append_cancel_left_eq, List.cons.injEq, Effective.erasure.injEq,
      and_true] at hevidence
    rw [hevidence, hunit]
  exact ⟨u, hu, hcount⟩

/-- **No decision over a live hold.** Whatever Hold, LiftHold, Destroy and Erase transactions ran
and run, statement by statement: when a unit is marked destroyed or an erasure is concluded, none of
the holds committed by then is live and covers the unit, its class or one of its members. -/
theorem decided_without_a_hold (cfg : HoldConfig) (s₀ : HoldSystem) (hquiet : s₀.Quiet)
    (acts : List HoldAction) (s : HoldSystem) (hrun : run (holdStep cfg) s₀ acts = some s)
    (a : HoldAction) (s' : HoldSystem) (hstep : holdStep cfg s a = some s') (unit : String)
    (hdecides : Decides s s' unit) :
    ∃ u, s.units unit = some u ∧
      ∀ h ∈ s.holds, h.live = true → h.covers unit u.class u.members = false := by
  have hok : HoldOk s := run_invariant_of_step (P := HoldOk) (fun _ _ _ => holdStep_ok)
    (holdOk_quiet hquiet) hrun
  obtain ⟨i, stale, hnext⟩ := holdStep_decides hstep hdecides
  obtain ⟨u, hu, hcount⟩ := next_decides (hok.phase i) hnext hdecides
  exact ⟨u, hu, no_hold_of_count hcount⟩

/-- A due and approved unit, and a hold on another one. -/
def dueUnit : HoldSystem where
  clock := 1
  holds := [{ id := "h", scope := ⟨.unit, "v"⟩ }]
  approvals := [{ id := "a", scope := ⟨.class, "orders"⟩ }]
  units := fun unit => if unit = "u" then
    some { «class» := "orders", state := .sealed, members := ["r"], anchor := some 0 } else none
  evidence := []
  phases := fun _ => .idle
  locks := []

def orderClasses : HoldConfig where
  classes := fun cls => if cls = "orders" then
    some { category := .completed, erasable := ["name"] } else none
  n := 0
  grace := 0

/-- A hold on the unit is inserted and rolled back; then the destruction takes the table's lock,
counts and commits. -/
theorem destroyed_after_a_rolled_back_hold :
    ∃ s s', run (holdStep orderClasses) dueUnit
      [.hold 1 "orders" { id := "k", scope := recordScope "orders" "r" } "legal" "a case",
        .next 1 false, .next 1 false, .destroy 0 "u", .next 0 false, .next 0 false, .next 0 false,
        .next 0 false, .fail 1, .next 0 false, .next 0 false, .next 0 false, .next 0 false] =
        some s ∧
      holdStep orderClasses s (.next 0 false) = some s' ∧ Decides s s' "u" ∧
      ∃ u, s.units "u" = some u ∧
        ∀ h ∈ s.holds, h.live = true → h.covers "u" u.class u.members = false := by
  refine ⟨?s, ?t, ?hrun, ?hstep, ?hdecides, decided_without_a_hold orderClasses dueUnit
    ⟨fun _ => rfl, rfl⟩ _ ?s ?hrun _ ?t ?hstep "u" ?hdecides⟩
  case hrun | hstep => rfl
  exact .inl ⟨by decide, rfl⟩

end BeSdk.Tiering

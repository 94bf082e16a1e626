import BeSdk.Projection.Align

/-!
# The transactions of a watermark source

A `Watermarked` keeps one projection of a watermark source. What it stores is in `Db`: the source's
alignment state and adopted identity, a contiguous position for each partition, the rows, the pulls
it recorded, and what failed or was quarantined. This file has its transactions, each as a function
of what is stored when it holds its locks: `handle` for an event of the bus, `identify` and
`applyRows` for the pages of a pull, `confirm`, `record`, and the ones an alignment adds to
`alignTo` (`beginAlign`, `savePoint`, `done`).

Within a transaction the code keeps the loaded state in memory beside what it has written, and the
two may differ; `Txn` has both. A transaction that fails is rolled back, which is `none` here. Every
transaction also returns the inputs it gave to the alignment state table, with the state each was
given to: the table is where later proofs look, and the rest of a transaction only decides which
inputs it gets.
-/

namespace BeSdk.Projection

/-! ## What is stored -/

/-- The row at a position as a pull names it. -/
inductive RowIdentity where
  | echo (nonce : String)
  | record (id : String) (version : Int) (digest : String)
deriving DecidableEq, Repr

/-- A partition, with the P0 of an alignment and the mark of the last echo. -/
structure PartState where
  seq : Option Nat := none
  identity : Option RowIdentity := none
  p0 : Option Nat := none
  echoMP : Option Nat := none
deriving DecidableEq, Repr

/-- What `load` reads of the source. -/
structure WmState extends SourceState where
  adopted : Identity
  alignGen : Nat
  refetch : Bool
  parts : List PartState
deriving DecidableEq, Repr

/-- What an event says it carries; the last is a kind this consumer does not know. -/
inductive Carries where
  | full
  | partialFields
  | delete
  | unknown
deriving DecidableEq, Repr

/-- An event as it was received, from the bus or on a page. -/
structure Received (J : Type) where
  -- An echo, whose record is its nonce.
  echo : Bool
  recordID : String
  version : Int
  projection : Carries
  data : J
  impl : String
  epoch : String
  partition : Nat
  seq : Nat
  -- The subjects its header lists, none where it cannot be read.
  subjects : List String
  digest : String
deriving DecidableEq, Repr

/-- A subject under quarantine and the event that is the cause. -/
structure Quarantined where
  subject : String
  impl : String
  epoch : String
  alignGen : Nat
  partition : Nat
  seq : Nat
deriving DecidableEq, Repr

structure Failure where
  partition : Nat
  seq : Nat
  attempts : Nat
  firstAt : Nat
deriving DecidableEq, Repr

/-- The consumer's tables for one watermark source. Times are microseconds of its primary's clock.
-/
structure Db (J : Type) where
  now : Nat
  wm : WmState
  rows : Rows J
  -- The recorded pulls: nonce and `m_p`.
  pulls : List (String × Nat)
  maxSeen : Option Nat
  dbEpoch : Option String
  failures : List Failure
  quarantine : List Quarantined

/-- A `Watermarked` as it is configured. `input` is the hook that turns an event into the
projection's input. -/
structure Config (J : Type) where
  deployment : String
  partitions : Nat
  partitionOf : String → Nat
  freshness : Nat
  input : Received J → Option (Input J)

def quarantineAttempts : Nat := 3

def quarantineAfter : Nat := 30000000

def maxSubjects : Nat := 1000

def Carries.kind : Carries → Kind
  | .full => .full
  | .partialFields => .partialFields
  | .delete => .delete
  | .unknown => .partialFields

/-- The input of an event where no hook is configured. -/
def Received.input {J : Type} (e : Received J) : Option (Input J) :=
  some { recordID := e.recordID, kind := e.projection.kind, version := e.version, impl := "",
         epoch := "", data := e.data, seq := 0 }

def Received.identity {J : Type} (e : Received J) : RowIdentity :=
  if e.echo then .echo e.recordID else .record e.recordID e.version e.digest

/-! ## Transactions -/

/-- An input that was given to the alignment state table, and the state it was given to. -/
abbrev Turn := WmState × SourceEvent

/-- A transaction in progress: what is stored, the state it works on, and its turns so far. -/
structure Txn (J : Type) where
  db : Db J
  st : WmState
  turns : List Turn

section Transactions
variable {J : Type}

/-- `load` with its locks. -/
def Db.load (db : Db J) : Txn J := { db := db, st := db.wm, turns := [] }

def Db.sourceRow (db : Db J) : SourceRow where
  impl := db.wm.adopted.impl
  epoch := db.wm.adopted.epoch
  alignGen := db.wm.alignGen
  status := db.wm.state

def Db.setSourceRow (db : Db J) (src : SourceRow) : Db J :=
  { db with wm := { db.wm with
      state := src.status
      alignGen := src.alignGen
      adopted := { db.wm.adopted with impl := src.impl, epoch := src.epoch } } }

/-- saveState writes the source's state and adopted identity. -/
def Txn.saveState (t : Txn J) : Txn J :=
  { t with db := { t.db with wm := { t.st with
      alignGen := t.db.wm.alignGen
      parts := t.db.wm.parts
      adopted := { t.st.adopted with
        epoch := if t.st.adopted.impl = "" then "" else t.st.adopted.epoch } } } }

def Txn.savePart (t : Txn J) (n : Nat) (p : PartState) : Txn J :=
  { t with db := { t.db with wm := { t.db.wm with parts := t.db.wm.parts.set n p } } }

/-- `transition` of one state: the table's next state and whether a re-fetch is due. -/
def WmState.transition (st : WmState) (ev : SourceEvent) : WmState :=
  let (next, action) := nextState st.toSourceState ev
  { st with
    toSourceState := next
    refetch := st.refetch ∨ action = .refetch ∨ action = .rowCheckRefetch ∨
      action = .clearAndRefetch }

def Txn.transition (t : Txn J) (ev : SourceEvent) : Txn J :=
  { t with st := t.st.transition ev, turns := t.turns ++ [(t.st, ev)] }

def Txn.setPart (t : Txn J) (n : Nat) (p : PartState) : Txn J :=
  { t with st := { t.st with parts := t.st.parts.set n p } }

def Txn.advance (t : Txn J) (e : Received J) (p : PartState) : Txn J :=
  let p := { p with seq := some e.seq, identity := some e.identity }
  (t.setPart e.partition p).savePart e.partition p

end Transactions

/-! ## Applying events -/

/-- How the code around an event behaves: the input hook, the hook on a changed record and the
database, or they fail, and the failed attempt is then counted or not. -/
inductive Fault where
  | ok
  | counted
  | uncounted
deriving DecidableEq, Repr

inductive Applied (J : Type) where
  | done (t : Txn J)
  -- A position is missing before this one.
  | gap
  -- The event's input failed; the transaction is rolled back and the attempt counted.
  | failed
  -- Any other error.
  | error

section Applying
variable {J : Type} [DecidableEq J] [EmptyCollection J] [Append J]

/-- A complete row of the same instance and epoch whose content differs at the same version. -/
def Txn.differs (t : Txn J) (e : Received J) : Bool :=
  (t.db.rows.lookup e.recordID).any fun r =>
    r.state = .complete ∧ r.version = e.version ∧ r.impl = t.st.adopted.impl ∧
      r.epoch = t.st.adopted.epoch ∧ r.data ≠ some e.data

def Txn.digestTripwire (t : Txn J) (e : Received J) : Txn J :=
  if t.differs e then
    (t.transition { kind := .rollback, gen := generation t.st.adopted.epoch }).saveState
  else t

/-- The event through the input hook and `Projection.Apply`, then the tripwire for a full one. -/
def Txn.applyInput (cfg : Config J) (t : Txn J) (e : Received J) : Option (Txn J) :=
  match cfg.input e with
  | none => none
  | some i =>
    match apply t.db.sourceRow t.db.rows
        { i with impl := t.st.adopted.impl, epoch := t.st.adopted.epoch, seq := e.seq } with
    | none => none
    | some (src, rows, _) =>
      let t := { t with db := { t.db.setSourceRow src with rows := rows } }
      some (if e.projection = .full then t.digestTripwire e else t)

def Db.due (db : Db J) (e : Received J) : Bool :=
  db.failures.any fun f => f.partition = e.partition ∧ f.seq = e.seq ∧
    (quarantineAttempts ≤ f.attempts ∨ f.firstAt + quarantineAfter ≤ db.now)

/-- A subject that is listed for the event already stays as it is. -/
def Txn.quarantine (t : Txn J) (e : Received J) : Txn J :=
  { t with db := { t.db with
      quarantine := t.db.quarantine ∪ e.subjects.map fun subject =>
        { subject := subject, impl := t.st.adopted.impl, epoch := t.st.adopted.epoch,
          alignGen := t.st.alignGen, partition := e.partition, seq := e.seq }
      failures := t.db.failures.filter fun f => ¬ (f.partition = e.partition ∧ f.seq = e.seq) } }

/-- The mark of an echo: the `m_p` of the pull it answers, while that is recorded. -/
def Db.mark (db : Db J) (nonce : String) : Option Nat := db.pulls.lookup nonce

/-- applyAt applies one row; one that keeps failing is quarantined instead. -/
def Txn.applyAt (cfg : Config J) (t : Txn J) (e : Received J) (fault : Fault) (contiguous : Bool) :
    Applied J :=
  match t.st.parts[e.partition]? with
  | none => .error
  | some p =>
    if contiguous = true ∧ p.seq = none then .gap
    else if contiguous = true ∧ p.seq.any (e.seq ≤ ·) then .done t
    else if contiguous = true ∧ p.seq.any (· + 1 ≠ e.seq) then .gap
    else if t.db.due e then
      if e.subjects = [] ∨ maxSubjects < e.subjects.length then .error
      else if contiguous then .done ((t.quarantine e).advance e p)
      else .done (t.quarantine e)
    else if e.echo then
      let p := { p with echoMP := (t.db.mark e.recordID).or p.echoMP }
      if contiguous then .done (t.advance e p) else .done (t.setPart e.partition p)
    else if fault ≠ .ok then .failed
    else
      match t.applyInput cfg e with
      | none => .failed
      | some t => if contiguous then .done (t.advance e p) else .done t

/-- A failed attempt at a position is counted, outside the failing transaction. -/
def Db.noteFailure (db : Db J) (e : Received J) : Db J :=
  if db.failures.any fun f => f.partition = e.partition ∧ f.seq = e.seq then
    { db with failures := db.failures.map fun f =>
        if f.partition = e.partition ∧ f.seq = e.seq then { f with attempts := f.attempts + 1 }
        else f }
  else
    { db with failures := ⟨e.partition, e.seq, 1, db.now⟩ :: db.failures }

/-- What is stored after a transaction, and its turns. -/
abbrev Result (J : Type) := Db J × List Turn

def Txn.commit (t : Txn J) : Result J := (t.db, t.turns)

/-- The transaction is rolled back; a failed input is counted where that works. -/
def Db.rollback (db : Db J) (e : Received J) (fault : Fault) : Result J :=
  if fault = .uncounted then (db, []) else (db.noteFailure e, [])

/-- Handle is the subscription's handler. -/
def Db.handle (cfg : Config J) (db : Db J) (e : Received J) (fault : Fault) : Result J :=
  let t := db.load
  if t.st.adopted.impl = "" then t.commit
  else if e.impl ≠ t.st.adopted.impl then
    (t.transition { kind := .foreign, gen := generation e.epoch }).saveState.commit
  else if cmpEpoch (epochKey e.epoch) (epochKey t.st.adopted.epoch) ≠ .eq then t.commit
  else if t.st.state = .blocked ∨ t.st.parts.length ≤ e.partition then t.commit
  else if t.st.state = .aligning ∧
      ((t.st.parts[e.partition]?).bind (·.p0)).all (e.seq ≤ ·) then t.commit
  else
    match t.applyAt cfg e fault (t.st.state ≠ .aligning) with
    | .done t => t.commit
    | .gap => t.commit
    | .failed => db.rollback e fault
    | .error => t.commit

/-- The rows of one partition of a page, as long as they are of the adopted instance and epoch. A
gap is passed over; `none` with the event is a failed input, without one another error. -/
def Txn.applyRows (cfg : Config J) : Txn J → List (Received J × Fault) →
    Except (Option (Received J × Fault)) (Txn J)
  | t, [] => .ok t
  | t, (e, fault) :: rows =>
    if e.impl ≠ t.st.adopted.impl ∨ e.epoch ≠ t.st.adopted.epoch then .ok t
    else
      match t.applyAt cfg e fault (t.st.state ≠ .aligning) with
      | .done t' => t'.applyRows cfg rows
      | .gap => t.applyRows cfg rows
      | .failed => .error (some (e, fault))
      | .error => .error none

/-- The transaction of `applyPage` for one partition; the flag says that the pull may go on. -/
def Db.applyPartition (cfg : Config J) (db : Db J) (rows : List (Received J × Fault)) :
    Result J × Bool :=
  if db.wm.state = .blocked then ((db, []), true)
  else
    match db.load.applyRows cfg rows with
    | .ok t => (t.commit, true)
    | .error (some (e, fault)) => (db.rollback e fault, false)
    | .error none => ((db, []), false)

end Applying

/-! ## Pulls -/

structure Declaration where
  deployment : String
  impl : String
  systemID : String
  epoch : String
  primary : Bool
deriving DecidableEq, Repr

def declared (d : Declaration) : Identity where
  deployment := d.deployment
  impl := d.impl
  systemID := d.systemID
  epoch := d.epoch
  primary := d.primary
  purpose := .unspecified

/-- One partition of a page: the echo's position once it is known, or what it needs instead. -/
structure PartitionResult (J : Type) where
  partition : Nat
  need : NeedSnapshot
  echo : Option Nat
  events : List (Received J)
deriving DecidableEq, Repr

structure PullResponse (J : Type) where
  source : Declaration
  partitions : List (PartitionResult J)
  -- There is a next page.
  more : Bool
deriving DecidableEq, Repr

section Pulls
variable {J : Type}

/-- A partition that was not asked for is an index out of range. -/
def Txn.usePartitions (t : Txn J) (gen : Int) (requested : List Nat) :
    List (PartitionResult J) → Option (Txn J × Bool)
  | [] => some (t, true)
  | pr :: prs =>
    if pr.echo = none ∧ pr.need = .unspecified then
      t.usePartitions gen requested prs -- a later page carries the echo
    else
      match requested[pr.partition]? with
      | none => none
      | some position =>
        match pullOutcome position false pr.need (pr.echo.getD 0) with
        | .realign =>
          some ((t.transition { kind := .beyondRetention, gen := gen }).saveState, false)
        | .stallIt => some ((t.transition { kind := .rollback, gen := gen }).saveState, false)
        | _ => t.usePartitions gen requested prs

/-- A new epoch or instance is adopted: positions and watermark are forgotten. -/
def WmState.adopt (st : WmState) (r : Identity) : WmState :=
  { st with
    adopted := { st.adopted with impl := r.impl, systemID := r.systemID, epoch := r.epoch }
    parts := st.parts.map fun _ => {} }

def Txn.saveAll (t : Txn J) : Txn J :=
  let t := t.saveState
  { t with db := { t.db with wm := { t.db.wm with parts := t.st.parts } } }

/-- identify reports whether the content of a pull may be applied. -/
def Db.identify (db : Db J) (d : Declaration) (requested : List Nat)
    (partitions : List (PartitionResult J)) : Option (Result J × Bool) :=
  let t := db.load
  let r := declared d
  let decision := decideEpoch db.wm.adopted r
  let gen := generation r.epoch
  if db.wm.state = .blocked ∧ decision ≠ .block then
    -- a confirmed correction: the adopted instance and deployment answering again
    some ((t.transition
      { kind := .primaryResponse
        gen := gen
        matching := decision = .use ∨ decision = .adopt
        rowCheck :=
          if partitions.any (·.need =
            .rollbackDetected) then .failed else .passed }).saveState.commit,
      false)
  else
    match decision with
    | .establish =>
      some (({ t with st := t.st.adopt r }.transition
        { kind := .firstContact, gen := gen }).saveAll.commit, false)
    | .adopt =>
      some (({ t with st := t.st.adopt r }.transition
        { kind := .adoptEpoch, gen := gen }).saveAll.commit, false)
    | .stall => some ((t.transition { kind := .rollback, gen := gen }).saveAll.commit, false)
    | .block => some ((t.transition { kind := .foreign, gen := gen }).saveAll.commit, false)
    | .ignoreIt => some (t.commit, false)
    | .discard => some (t.commit, false)
    | .use => (t.usePartitions gen requested partitions).map fun (t, use) => (t.commit, use)

/-- Confirm, by an operator. -/
def Db.confirm (db : Db J) : Result J :=
  (db.load.transition { kind := .operatorConfirms }).saveState.commit

/-- record records a pull's nonce and `m_p`, after the clock check. -/
def Db.record (db : Db J) (nonce dbEpoch : String) : Db J :=
  let dropped : Db J :=
    if db.maxSeen.any (db.now < ·) ∨ db.dbEpoch.any (· ≠ dbEpoch) then
      { db with
        pulls := []
        wm := { db.wm with parts := db.wm.parts.map fun p => { p with echoMP := none } } }
    else db
  { dropped with
    maxSeen := some (max (dropped.maxSeen.getD db.now) db.now)
    dbEpoch := some dbEpoch
    pulls := (nonce, db.now) :: dropped.pulls }

/-- The positions a pull asks from, 0 for a partition it asks an echo of only. -/
def WmState.requested (st : WmState) : List Nat :=
  st.parts.map fun p => if st.adopted.impl = "" then 0 else p.seq.getD 0

end Pulls

/-! ## Alignments -/

section Alignments
variable {J : Type}

/-- The identity `align` runs for: the one adopted when `Step` read the state. -/
def WmState.want (cfg : Config J) (st : WmState) : Identity where
  deployment := cfg.deployment
  impl := st.adopted.impl
  systemID := ""
  epoch := st.adopted.epoch
  primary := false
  purpose := .unspecified

/-- The first transaction of `alignTo`, under the status `Step` read. -/
def Db.beginAlign (cfg : Config J) (db : Db J) (st : WmState) : Db J × Run J :=
  (db.setSourceRow (db.sourceRow.begin (st.want cfg) st.state), Run.ofBegin db.sourceRow
    (st.want cfg))

/-- P0 of every partition from the answer to the echo-only pull, 0 for one it does not have. -/
def pointsOf (partitions : Nat) (answered : List (PartitionResult J)) : Option (List Nat) :=
  answered.foldlM (fun p0 pr =>
    match pr.echo with
    | some seq => if pr.partition < p0.length then some (p0.set pr.partition seq) else none
    | none => none) (List.replicate partitions 0)

/-- P0 is saved and everything else of the partitions forgotten. -/
def Db.savePoint (db : Db J) (p0 : List Nat) : Db J :=
  { db with wm := { db.wm with parts := db.wm.parts.mapIdx fun i p =>
      match p0[i]? with
      | some v => { p0 := some v }
      | none => p } }

/-- The completion of an alignment. -/
def Db.done (db : Db J) (nonce : String) (p0 : List Nat) : Result J :=
  let parts := db.wm.parts.mapIdx fun i p =>
    match p0[i]? with
    | some v => { seq := some v, identity := some (.echo nonce) }
    | none => p
  let t : Txn J :=
    { db := { db with wm := { db.wm with parts := parts } },
      st := { db.wm with parts := parts, refetch := false }, turns := [] }
  let t :=
    if t.st.state = .aligning then
      t.transition { kind := .alignmentDone, gen := generation t.st.adopted.epoch }
    else t
  { t with db := { t.db with
      quarantine := t.db.quarantine.filter fun q =>
        ¬ (q.impl ≠ t.st.adopted.impl ∨ q.epoch ≠ t.st.adopted.epoch ∨
          (p0[q.partition]?).any (q.seq ≤ ·)) } }.saveState.commit

end Alignments
end BeSdk.Projection

import BeSdk.Library.RowLocks
import BeSdk.Library.Runs

/-!
# Evidence transactions

`evidence/evidence.go`, `evidence/replay.go`: a transaction that applies a change which a full
restore must not lose writes a row of `be_change_history` for it, under the identity of its evidence
record and at a commit sequence of its own.  Effective and General write it for the change the
business transaction applies, ReplayTx for one that a recovery applies again, unless the history has
it already.

The sequence comes from the one row of `be_evidence_counter`, which is locked from the moment it is
read to the end of the transaction.  The read that tells whether a record is reflected locks
nothing, and the change of a replay is applied before the counter is locked; what stops the second
of two replays is that the identity is unique in the history.

A step is one statement, or a change that is applied.  A transaction may record and replay any
number of changes, and the function of a replay may do so too (`replays` are those whose function
is running).  A statement that fails, or a replay whose function fails, leaves the rollback.  The
record that Effective and General queue for the evidence store changes neither table.
-/

namespace BeSdk.Evidence

open Function RowLocks

/-- What a record changes, with its version before the change. -/
structure Object where
  type : String
  id : String
  version : String
deriving DecidableEq, Repr

/-- The row of `be_evidence_counter`.  Its sequence is an int64, so that what is said of it below is
said of the first 2^63 - 1 of them. -/
structure Counter where
  epoch : String
  lastSeq : Int
deriving DecidableEq, Repr

/-- A row of `be_change_history`. -/
structure HistoryRow where
  evidenceId : String
  objectType : String
  objectId : String
  versionBefore : Option String
  epoch : String
  commitSeq : Int
deriving DecidableEq, Repr

/-- A change that is applied, by the identity of its evidence record. -/
structure Change where
  evidenceId : String
  obj : Object
deriving DecidableEq, Repr

structure Position where
  epoch : String
  seq : Int
deriving DecidableEq, Repr

def Change.row (c : Change) (pos : Position) : HistoryRow where
  evidenceId := c.evidenceId
  objectType := c.obj.type
  objectId := c.obj.id
  versionBefore := if c.obj.version = "" then none else some c.obj.version
  epoch := pos.epoch
  commitSeq := pos.seq

/-- Where a transaction is; `replays` are the replays whose function is running. -/
inductive EvidencePhase where
  | idle
  | running (replays : List Change)
  -- commit is to lock the counter
  | counting (c : Change) (replays : List Change)
  -- it has read the counter
  | bumping (c : Change) (epoch : String) (last : Int) (replays : List Change)
  -- the row is to be inserted
  | inserting (c : Change) (pos : Position) (replays : List Change)
  | failed
deriving DecidableEq, Repr

/-- A transaction, with the rows it has inserted and the changes it has applied. -/
structure EvidenceTx where
  phase : EvidencePhase
  rows : List HistoryRow
  applied : List String
deriving DecidableEq, Repr

structure Database where
  counter : Table Unit Counter
  history : Table String HistoryRow
  txs : Nat → EvidenceTx
  -- the rows of the committed transactions, in the order in which they committed
  log : List HistoryRow
  -- the changes the committed transactions applied
  applied : List String

inductive EvidenceAction where
  | begin (w : Nat)
  -- Effective or General, for a change that the transaction applies
  | record (w : Nat) (c : Change)
  -- ReplayTx
  | replay (w : Nat) (c : Change)
  -- the function of the replay is done, or failed
  | replayed (w : Nat) (ok : Bool)
  -- commit reads the epoch and the counter
  | lockCounter (w : Nat) (generation timeline : Int)
  | bump (w : Nat)
  | insert (w : Nat)
  | commit (w : Nat)
  | rollback (w : Nat)
deriving DecidableEq, Repr

namespace Database

variable (s : Database)

def setTx (w : Nat) (tx : EvidenceTx) : Database := { s with txs := update s.txs w tx }

def goTo (w : Nat) (phase : EvidencePhase) : Database := s.setTx w { s.txs w with phase := phase }

def apply (w : Nat) (c : Change) (phase : EvidencePhase) : Database :=
  s.setTx w { s.txs w with phase := phase, applied := c.evidenceId :: (s.txs w).applied }

/-- Reflected: the identity is in the change history. -/
def reflected (w : Nat) (id : String) : Bool := (s.history.sees w id).isSome

def noTx : EvidenceTx := ⟨.idle, [], []⟩

def commit (w : Nat) : Database where
  counter := s.counter.commit w
  history := s.history.commit w
  txs := update s.txs w noTx
  log := s.log ++ (s.txs w).rows
  applied := (s.txs w).applied ++ s.applied

def rollback (w : Nat) : Database where
  counter := s.counter.rollback w
  history := s.history.rollback w
  txs := update s.txs w noTx
  log := s.log
  applied := s.applied

/-- No transaction is under way; the history has the rows `rows`. -/
def start (counter : Counter) (rows : String → Option HistoryRow) : Database where
  counter := Table.atRest fun _ => some counter
  history := Table.atRest rows
  txs := fun _ => noTx
  log := []
  applied := []

end Database

open Database

def evidenceStep (s : Database) : EvidenceAction → Option Database
  | .begin w =>
    match (s.txs w).phase with
    | .idle => some (s.goTo w (.running []))
    | _ => none
  | .record w c =>
    match (s.txs w).phase with
    | .running replays => some (s.apply w c (.counting c replays))
    | _ => none
  | .replay w c =>
    match (s.txs w).phase with
    | .running replays =>
      if s.reflected w c.evidenceId then some s
      else some (s.apply w c (.running (c :: replays)))
    | _ => none
  | .replayed w ok =>
    match (s.txs w).phase with
    | .running (c :: replays) => some (s.goTo w (if ok then .counting c replays else .failed))
    | _ => none
  | .lockCounter w generation timeline =>
    match (s.txs w).phase with
    | .counting c replays =>
      if s.counter.free w () then
        match s.counter.sees w () with
        | none => some (s.goTo w .failed)
        | some row =>
          let epoch := toString generation ++ "." ++ toString timeline
          some ({ s with counter := s.counter.lock w () }.goTo w
            (.bumping c epoch row.lastSeq replays))
      else none
    | _ => none
  | .bump w =>
    match (s.txs w).phase with
    | .bumping c epoch last replays =>
      if s.counter.free w () then
        some ({ s with counter := s.counter.put w () (some ⟨epoch, last + 1⟩) }.goTo w
          (.inserting c ⟨epoch, last + 1⟩ replays))
      else none
    | _ => none
  | .insert w =>
    match (s.txs w).phase with
    | .inserting c pos replays =>
      -- an insert waits for another transaction that inserts the identity
      if s.history.free w c.evidenceId then
        if s.reflected w c.evidenceId then some (s.goTo w .failed)
        else
          some ({ s with history := s.history.put w c.evidenceId (some (c.row pos)) }.setTx w
            { s.txs w with phase := .running replays, rows := (s.txs w).rows ++ [c.row pos] })
      else none
    | _ => none
  | .commit w =>
    match (s.txs w).phase with
    | .running [] => some (s.commit w)
    | _ => none
  | .rollback w =>
    match (s.txs w).phase with
    | .idle => none
    | _ => some (s.rollback w)

/-- What a step can do, with what it was taken for. -/
inductive EvidenceStepped (s : Database) : EvidenceAction → Database → Prop
  | begin {w : Nat} (hphase : (s.txs w).phase = .idle) :
      EvidenceStepped s (.begin w) (s.goTo w (.running []))
  | record {w : Nat} {c : Change} {replays : List Change}
      (hphase : (s.txs w).phase = .running replays) :
      EvidenceStepped s (.record w c) (s.apply w c (.counting c replays))
  | reflected {w : Nat} {c : Change} : EvidenceStepped s (.replay w c) s
  | replay {w : Nat} {c : Change} {replays : List Change}
      (hphase : (s.txs w).phase = .running replays) :
      EvidenceStepped s (.replay w c) (s.apply w c (.running (c :: replays)))
  | replayed {w : Nat} {c : Change} {replays : List Change}
      (hphase : (s.txs w).phase = .running (c :: replays)) :
      EvidenceStepped s (.replayed w true) (s.goTo w (.counting c replays))
  | failed {w : Nat} {a : EvidenceAction} : EvidenceStepped s a (s.goTo w .failed)
  | lockCounter {w : Nat} {generation timeline : Int} {c : Change} {replays : List Change}
      {row : Counter} {epoch : String} (hphase : (s.txs w).phase = .counting c replays)
      (hfree : s.counter.free w () = true) (hsees : s.counter.sees w () = some row) :
      EvidenceStepped s (.lockCounter w generation timeline)
        ({ s with counter := s.counter.lock w () }.goTo w (.bumping c epoch row.lastSeq replays))
  | bump {w : Nat} {c : Change} {epoch : String} {last : Int} {replays : List Change}
      (hphase : (s.txs w).phase = .bumping c epoch last replays)
      (hfree : s.counter.free w () = true) :
      EvidenceStepped s (.bump w)
        ({ s with counter := s.counter.put w () (some ⟨epoch, last + 1⟩) }.goTo w
          (.inserting c ⟨epoch, last + 1⟩ replays))
  | insert {w : Nat} {c : Change} {pos : Position} {replays : List Change}
      (hphase : (s.txs w).phase = .inserting c pos replays)
      (hfree : s.history.free w c.evidenceId = true)
      (hnew : s.history.sees w c.evidenceId = none) :
      EvidenceStepped s (.insert w)
        ({ s with history := s.history.put w c.evidenceId (some (c.row pos)) }.setTx w
          { s.txs w with phase := .running replays, rows := (s.txs w).rows ++ [c.row pos] })
  | commit {w : Nat} (hphase : (s.txs w).phase = .running []) :
      EvidenceStepped s (.commit w) (s.commit w)
  | rollback {w : Nat} : EvidenceStepped s (.rollback w) (s.rollback w)

theorem evidenceStepped {s t : Database} {a : EvidenceAction}
    (hstep : evidenceStep s a = some t) : EvidenceStepped s a t := by
  cases a with simp only [evidenceStep] at hstep
  | begin w =>
    split at hstep <;> cases hstep
    rename_i hphase
    exact .begin hphase
  | record w c =>
    split at hstep <;> cases hstep
    rename_i hphase
    exact .record hphase
  | replay w c =>
    split at hstep
    next hphase =>
      split at hstep
      · cases hstep
        exact .reflected
      · cases hstep
        exact .replay hphase
    cases hstep
  | replayed w ok =>
    split at hstep
    next hphase =>
      cases ok with
      | true =>
        cases hstep
        exact .replayed hphase
      | false =>
        cases hstep
        exact .failed
    cases hstep
  | lockCounter w generation timeline =>
    split at hstep
    next hphase =>
      split at hstep
      next hfree =>
        split at hstep
        · cases hstep
          exact .failed
        rename_i hsees
        cases hstep
        exact .lockCounter hphase hfree hsees
      cases hstep
    cases hstep
  | bump w =>
    split at hstep
    next hphase =>
      split at hstep <;> cases hstep
      rename_i hfree
      exact .bump hphase hfree
    cases hstep
  | insert w =>
    split at hstep
    next hphase =>
      split at hstep
      next hfree =>
        split at hstep
        · cases hstep
          exact .failed
        rename_i hnew
        cases hstep
        exact .insert hphase hfree (by simpa [reflected] using hnew)
      cases hstep
    cases hstep
  | commit w =>
    split at hstep <;> cases hstep
    rename_i hphase
    exact .commit hphase
  | rollback w =>
    split at hstep <;> cases hstep
    exact .rollback

end BeSdk.Evidence

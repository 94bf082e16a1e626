import BeSdk.Library.RowLocks
import BeSdk.Library.Runs

/-!
# Idempotency keys

`idem/idem.go`: Do runs a command once per key.  In one transaction it claims the key, runs the
command and stores its outcome; where the key has a record that has not expired it answers the
stored outcome, or that the key was used for another request.  `idem/cleanup.go` deletes expired
records.

The model has the calls with one principal and key, so that there is one row of `be_idempotency`
that they insert, lock and read.  A step is one statement; a transaction's `now()` is the time it
began.  The insert waits for whoever holds the row, until the lock timeout; where there is a record
it locks it, also where it does not update it.  The clean-up skips a row that is locked.

A transaction can fail in every statement and at its commit, and is tried again on a conflict, three
times in all (`db/tx.go`, run); a commit whose answer is lost has taken place.  The log keeps the
commands that committed and the answers, the latest first.
-/

namespace BeSdk.Idem

open Function RowLocks

/-- How long a record is kept, in microseconds. -/
def retention : Int := 24 * 60 * 60 * 1000000

def maxAttempts : Nat := 3

/-- A row of `be_idempotency`, for one principal and key. -/
structure Record where
  fingerprint : String
  operation : String
  status : Int
  result : Option String
  createdAt : Int
  expiresAt : Int
deriving DecidableEq, Repr

structure Outcome where
  status : Int
  result : Option String
deriving DecidableEq, Repr

/-- What a call asks for: the digest of its request, and the operation. -/
structure Call where
  fingerprint : String
  operation : String
deriving DecidableEq, Repr

inductive Answer where
  | done (out : Outcome) (replayed : Bool)
  | inProgress
  -- IDEMPOTENCY_KEY_REUSED
  | reused
  -- the error of the command, or of the transaction, which was rolled back
  | failed
  -- the transaction committed, and its answer was lost
  | unknown
deriving DecidableEq, Repr

/-- Where a call is, with the attempt it is at and the `now()` of its transaction. -/
inductive Phase where
  | idle
  | waiting (attempt : Nat)
  | inserting (attempt : Nat) (now : Int)
  | running (attempt : Nat) (now : Int)
  | storing (attempt : Nat) (now : Int) (out : Outcome)
  | looking (attempt : Nat) (now : Int)
  | committing (attempt : Nat) (now : Int) (out : Outcome) (replayed : Bool)
  | answered (a : Answer)
  | cleaning (now : Int)
  | cleaned
deriving DecidableEq, Repr

def Phase.attempt : Phase → Option Nat
  | .inserting n _ => some n
  | .running n _ => some n
  | .storing n _ _ => some n
  | .looking n _ => some n
  | .committing n _ _ _ => some n
  | _ => none

/-- A command that committed: whose it was, what it decided, and when its transaction began and
committed. -/
structure Ran where
  call : Nat
  fingerprint : String
  out : Outcome
  began : Int
  committed : Int
deriving DecidableEq, Repr

def Ran.expiresAt (r : Ran) : Int := r.began + retention

inductive Event where
  | ran (r : Ran)
  | answered (call : Nat) (fingerprint : String) (a : Answer)
deriving DecidableEq, Repr

structure Key where
  clock : Int
  row : Table Unit Record
  phases : Nat → Phase
  calls : Nat → Call
  log : List Event

inductive Action where
  | tick (d : Nat)
  | call (w : Nat) (c : Call)
  -- no transaction could be opened
  | refuse (w : Nat)
  | begin (w : Nat)
  | insert (w : Nat)
  | lockTimeout (w : Nat)
  -- the command decides
  | decide (w : Nat) (out : Outcome)
  | store (w : Nat)
  -- stored reads the record
  | look (w : Nat)
  -- a statement, the command or the commit fails; `conflict` for a failure that is tried again
  | fail (w : Nat) (conflict : Bool)
  -- the commit takes place; `heard` where its answer arrives
  | commit (w : Nat) (heard : Bool)
  | cleanBegin (w : Nat)
  | cleanDelete (w : Nat)
  | cleanEnd (w : Nat) (commit : Bool)
deriving DecidableEq, Repr

namespace Key

variable (s : Key)

def goTo (w : Nat) (p : Phase) : Key := { s with phases := update s.phases w p }

/-- The call answers, with what was logged before. -/
def answer (w : Nat) (a : Answer) : Key :=
  { s with
    phases := update s.phases w (.answered a)
    log := .answered w (s.calls w).fingerprint a :: s.log }

def rollback (w : Nat) : Key := { s with row := s.row.rollback w }

def claim (w : Nat) (now : Int) : Record where
  fingerprint := (s.calls w).fingerprint
  operation := (s.calls w).operation
  status := 0
  result := none
  createdAt := now
  expiresAt := now + retention

def start (clock : Int) : Key where
  clock := clock
  row := Table.atRest fun _ => none
  phases := fun _ => .idle
  calls := fun _ => ⟨"", ""⟩
  log := []

end Key

/-- The outcome as it is stored, where `jsonb` is what PostgreSQL makes of a JSON text. -/
def Outcome.stored (jsonb : String → Option String) (out : Outcome) : Option Outcome :=
  match out.result with
  | none => some ⟨out.status, none⟩
  | some text => (jsonb text).map fun json => ⟨out.status, some json⟩

/-- One statement of a call, or of the clean-up. -/
def idemStep (jsonb : String → Option String) (s : Key) : Action → Option Key
  | .tick d => some { s with clock := s.clock + d }
  | .call w c =>
    match s.phases w with
    | .idle => some ({ s with calls := update s.calls w c }.goTo w (.waiting 1))
    | _ => none
  | .refuse w =>
    match s.phases w with
    | .waiting _ => some (s.answer w .failed)
    | _ => none
  | .begin w =>
    match s.phases w with
    | .waiting n => some (s.goTo w (.inserting n s.clock))
    | _ => none
  | .insert w =>
    match s.phases w with
    | .inserting n now =>
      if s.row.free w () then
        match s.row.sees w () with
        | none =>
          some ({ s with row := s.row.put w () (some (s.claim w now)) }.goTo w
            (.running n now))
        | some r =>
          -- an expired record counts as gone
          if r.expiresAt ≤ now then
            some ({ s with row := s.row.put w () (some (s.claim w now)) }.goTo w
              (.running n now))
          else some ({ s with row := s.row.lock w () }.goTo w (.looking n now))
      else none
    | _ => none
  | .lockTimeout w =>
    match s.phases w with
    | .inserting _ _ => if s.row.free w () then none else some ((s.rollback w).answer w .inProgress)
    | _ => none
  | .decide w out =>
    match s.phases w with
    | .running n now =>
      some (s.goTo w
        (.storing n now { out with status := if out.status = 0 then 200 else out.status }))
    | _ => none
  | .store w =>
    match s.phases w with
    | .storing n now out =>
      match out.stored jsonb with
      | none => some ((s.rollback w).answer w .failed)
      | some kept =>
        match s.row.sees w () with
        | none => some (s.goTo w (.committing n now out false))
        | some r =>
          if s.row.free w () then
            let r' := { r with status := kept.status, result := kept.result }
            some ({ s with row := s.row.put w () (some r') }.goTo w
              (.committing n now out false))
          else none
    | _ => none
  | .look w =>
    match s.phases w with
    | .looking n now =>
      match s.row.sees w () with
      | none => some ((s.rollback w).answer w .inProgress)
      | some r =>
        if r.fingerprint ≠ (s.calls w).fingerprint then
          some ((s.rollback w).answer w .reused)
        else some (s.goTo w (.committing n now ⟨r.status, r.result⟩ true))
    | _ => none
  | .fail w conflict =>
    match (s.phases w).attempt with
    | some n =>
      if conflict && n < maxAttempts then some ((s.rollback w).goTo w (.waiting (n + 1)))
      else some ((s.rollback w).answer w .failed)
    | none => none
  | .commit w heard =>
    match s.phases w with
    | .committing _ now out replayed =>
      let ran := if replayed then []
        else [.ran ⟨w, (s.calls w).fingerprint, out, now, s.clock⟩]
      some ({ s with row := s.row.commit w, log := ran ++ s.log }.answer w
        (if heard then .done out replayed else .unknown))
    | _ => none
  | .cleanBegin w =>
    match s.phases w with
    | .idle => some (s.goTo w (.cleaning s.clock))
    | _ => none
  | .cleanDelete w =>
    match s.phases w with
    | .cleaning now =>
      -- a row that is locked is skipped
      if s.row.free w () then
        match s.row.committed () with
        | none => none
        | some r =>
          if r.expiresAt < now then
            some ({ s with row := s.row.put w () none }.goTo w .cleaned)
          else none
      else none
    | _ => none
  | .cleanEnd w commit =>
    match s.phases w with
    | .cleaning _ => some (s.goTo w .idle)
    | .cleaned =>
      if commit then some ({ s with row := s.row.commit w }.goTo w .idle)
      else some ((s.rollback w).goTo w .idle)
    | _ => none

end BeSdk.Idem

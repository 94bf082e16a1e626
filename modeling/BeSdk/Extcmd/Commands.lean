import BeSdk.Extcmd.State
import BeSdk.Library.Runs
import BeSdk.Library.Tables

/-!
# Sending and querying a command

The job's workers take one command a step forward: a claim and a send, a takeover, a query.  Each of
their transactions is one step, and so is each call of the adapter, which is made outside any
transaction; a worker keeps the row it has read in memory in between (`Row`) and may be gone at any
point (`crash`).  A person's registration and a full recovery's reconciliation are transactions of
their own.

Two parts of the state are history, which no step reads: `writes` counts the transactions that have
written the command's row, and `sends` has every call of `Adapter.Send` with its time and its
result.
-/

namespace BeSdk.Extcmd

open Function

def minute : Int := 60000000000

def backoffStart : Int := minute

def backoffCap : Int := hour

/-- SendLease is how long a claimed command stays sending before another run takes it as its
claimant gone. -/
def sendLease : Int := 2 * minute

def doubled : Nat → Int → Int
  | 0, d => d
  | n + 1, d => if d < backoffCap then doubled n (2 * d) else d

/-- The wait before an attempt is made again: doubled from the first on, up to the cap. -/
def backoff (attempts : Nat) : Int := min (doubled (attempts - 1) backoffStart) backoffCap

/-- A row of `be_external_attempt`. -/
structure Attempt where
  n : Nat
  send : Bool
  startedAt : Int
  ended : Bool
deriving DecidableEq, Repr

/-- The command as a worker has read it; `seen` is how many transactions had written it then. -/
structure Row where
  facts : Facts
  attempts : Nat
  now : Int
  seen : Nat
deriving DecidableEq, Repr

inductive Answer where
  | found (external : External)
  | notFound
  | unavailable
deriving DecidableEq, Repr

def Answer.event : Answer → Event
  | .found external => .queryFound external
  | .notFound => .queryNotFound
  | .unavailable => .queryDown

/-- Where a worker is with the command: what it does next. -/
inductive Phase where
  | idle
  -- send: the last check, the issue record, the call, the result
  | beforeSend (r : Row)
  | issue (r : Row) (n : Nat)
  | noEvidence (r : Row) (n : Nat)
  | send (r : Row) (n : Nat)
  | calling (r : Row) (n k : Nat)
  | sent (r : Row) (n k : Nat) (result : SendClass)
  -- query: the call, the answer
  | query (r : Row)
  | queried (r : Row) (answer : Answer)
deriving DecidableEq, Repr

def Phase.memory : Phase → Option Row
  | .idle => none
  | .beforeSend r | .issue r _ | .noEvidence r _ | .send r _ | .calling r _ _ | .sent r _ _ _
  | .query r | .queried r _ => some r

/-- A call of `Adapter.Send`. -/
structure Sent where
  «at» : Int
  result : Option SendClass := none
deriving DecidableEq, Repr

/-- The operation's capabilities, the query-only switch, and whether the database keeps the numbers
of a command's attempts unique. -/
structure Config where
  caps : Capabilities
  queryOnly : Bool := false
  unique : Bool := true

structure System where
  clock : Int
  facts : Facts
  nextAt : Int
  attempts : List Attempt
  workers : Nat → Phase
  -- the reconciliations that have read the command as not final
  asked : Nat → Bool
  writes : Nat
  sends : Nat → Option Sent
  calls : Nat

inductive Action where
  | advance (d : Nat)
  -- process's transaction
  | process (w : Nat)
  | beforeSend (w : Nat)
  -- the issue record of an irrevocable command is written, or it is not
  | issue (w : Nat) (written : Bool)
  | noEvidence (w : Nat)
  -- Adapter.Send is called, and returns
  | send (w : Nat)
  | sendReturns (w : Nat) (result : SendClass)
  | sent (w : Nat)
  | query (w : Nat) (answer : Answer)
  | queried (w : Nat)
  | crash (w : Nat)
  | register (result : State)
  -- a reconciliation reads the open commands, and applies what the external system answered
  | reconcileRead (p : Nat)
  | reconcile (p : Nat) (external : Option External) (t : Int) (failedAt : Option Int)

namespace System

variable (cfg : Config) (s : System)

/-- set writes a transition and when the command is next due. -/
def set (state : State) (next : Int) : System :=
  { s with
    facts := { s.facts with
      state := state
      unknownSince := if state = .unknown then s.facts.unknownSince.or (some s.clock) else none
      acceptedSince := if state = .accepted then s.facts.acceptedSince.or (some s.clock) else none }
    nextAt := next
    writes := s.writes + 1 }

def goTo (w : Nat) (phase : Phase) : System := { s with workers := update s.workers w phase }

/-- The command as a worker's transaction reads it. -/
def load : Row := { facts := s.facts, attempts := s.attempts.length, now := s.clock, seen :=
    s.writes }

/-- nextAt is when a command in a state is next due. -/
def dueAt (now : Int) (state : State) (attempts : Nat) : Int :=
  match state with
  | .retryWait => now + backoff attempts
  | .unknown | .sending => now
  | .accepted => now + if 0 < cfg.caps.finality then cfg.caps.finality else backoffStart
  | _ => now + backoffCap

/-- queryAgain is when a queried command is next due: unknown and accepted back off. -/
def queryAgain (now : Int) (state : State) (attempts : Nat) : Int :=
  if state = .unknown ∨ state = .accepted then now + backoff attempts
  else dueAt cfg now state attempts

/-- A claimed command is sending until its lease is over; the worker goes on to send it. -/
def claimed (w : Nat) (r : Row) : System :=
  (s.set .sending (s.clock + sendLease)).goTo w
    (.beforeSend { r with
      facts := { r.facts with state := .sending }, now := s.clock, seen := s.writes + 1 })

/-- The attempt's number may be inserted. -/
def fits (n : Nat) : Bool := cfg.unique = false ∨ s.attempts.all (·.n ≠ n)

def endAttempt (n : Nat) : System :=
  { s with attempts := s.attempts.map fun a => if a.n = n then { a with ended := true } else a }

/-- An accepted command past its finality: queried, or left to the callback. -/
def finalityPassed (w : Nat) : System :=
  let (next, _) := Step s.facts .finalityPassed cfg.caps s.clock
  if next = .accepted ∧ cfg.caps.query then s.goTo w (.query s.load)
  else s.set next (s.clock + backoffCap)

/-- process takes one command a step forward: the transaction. -/
def process (w : Nat) : System :=
  match s.facts.state with
  | .prepared | .retryWait =>
    if cfg.queryOnly then s.set s.facts.state (s.clock + backoffStart)
    else if (Step s.facts .claim cfg.caps s.clock).1 = .unknown then s.set .unknown s.clock
    else s.claimed w s.load
  -- due while sending: its claimant is gone
  | .sending => s.set (Step s.facts .leaseLost cfg.caps s.clock).1 s.clock
  | .unknown => s.goTo w (.query s.load)
  | .accepted =>
    match s.facts.acceptedSince with
    | some since =>
      if 0 < cfg.caps.finality ∧ s.clock - since < cfg.caps.finality then
        s.set .accepted (since + cfg.caps.finality)
      else s.finalityPassed cfg w
    | none => s.finalityPassed cfg w
  | _ => s

/-- send's first transaction: the last check, with the row in memory. -/
def beforeSend (w : Nat) (r : Row) : System :=
  if (Step r.facts .beforeSend cfg.caps s.clock).1 = .unknown then
    (s.set .unknown s.clock).goTo w .idle
  else if s.fits cfg (r.attempts + 1) then
    let attempt : Attempt :=
      { n := r.attempts + 1, send := true, startedAt := s.clock, ended := false }
    let r := { r with now := s.clock }
    let s := { s with attempts := s.attempts ++ [attempt] }
    s.goTo w (if cfg.caps.irrevocable then .issue r (r.attempts + 1) else .send r (r.attempts + 1))
  else s.goTo w .idle

/-- The facts in memory after a result, with the deadline they give. -/
def reached (r : Row) (result : SendClass) : Facts :=
  let f := if result = .notReached then r.facts
    else { r.facts with
      firstReached := r.facts.firstReached.or (some s.clock), lastReached := some s.clock }
  { f with resendDeadline := Deadline f cfg.caps }

/-- The reach times and the deadline are written. -/
def record (f : Facts) : System :=
  { s with
    facts := { s.facts with
      firstReached := f.firstReached, lastReached := f.lastReached,
      resendDeadline := f.resendDeadline } }

/-- send's last transaction: the result. -/
def sent (w : Nat) (r : Row) (n : Nat) (result : SendClass) : System :=
  let f := s.reached cfg r result
  let next := (Step f (.sendResult result) cfg.caps s.clock).1
  (((s.endAttempt n).record f).set next (dueAt cfg s.clock next n)).goTo w .idle

/-- query's transaction: the answer, with the row in memory. -/
def queried (w : Nat) (r : Row) (answer : Answer) : System :=
  if s.fits cfg (r.attempts + 1) then
    let attempt : Attempt :=
      { n := r.attempts + 1, send := false, startedAt := s.clock, ended := true }
    let next := (Step r.facts answer.event cfg.caps s.clock).1
    let next := if next = .sending ∧ cfg.queryOnly then .unknown else next
    let s := { s with attempts := s.attempts ++ [attempt] }
    if next = .sending then s.claimed w { r with attempts := r.attempts + 1 }
    else (s.set next (queryAgain cfg s.clock next (r.attempts + 1))).goTo w .idle
  else s.goTo w .idle

/-- The start of the first send attempt that has not ended. -/
def sendingAt : Option Int :=
  ((s.attempts.filter fun a => a.send = true ∧ a.ended = false).map (·.startedAt)).min?

/-- Match and conclude for the command, locked and not final: the external record, or what the
reconciliation can tell without one. -/
def reconciled (external : Option External) (t : Int) (failedAt : Option Int) : System :=
  match external with
  | some external =>
    let state := (external.state.filter (·.terminal)).getD .accepted
    s.set state (dueAt cfg s.clock state 0)
  | none =>
    if s.facts.state = .manual then s
    else
      let until_ := failedAt.getD s.clock
      let first := (s.facts.firstReached.or s.sendingAt).getD t
      let f := { s.facts with firstReached := some first, unrecordedUntil := some until_ }
      match (Deadline f cfg.caps).filter (s.clock ≤ ·) with
      | some deadline =>
        { s with
          facts := { f with resendDeadline := some deadline }
          writes := s.writes + 1 }
      | none =>
        let caps := { cfg.caps with dedupeWindow := 0 }
        let next := if (resendable { f with resendDeadline := none } caps s.clock).1 then
          State.unknown else .manual
        { s with facts := f }.set next s.clock

end System

/-- One transaction or call of the adapter. -/
def step (cfg : Config) (s : System) : Action → Option System
  | .advance d => some { s with clock := s.clock + d }
  | .process w => if s.workers w = .idle ∧ s.nextAt ≤ s.clock then some (s.process cfg w) else none
  | .beforeSend w =>
    match s.workers w with
    | .beforeSend r => some (s.beforeSend cfg w r)
    | _ => none
  | .issue w written =>
    match s.workers w with
    | .issue r n => some (s.goTo w (if written then .send r n else .noEvidence r n))
    | _ => none
  | .noEvidence w =>
    match s.workers w with
    | .noEvidence r n => some (((s.endAttempt n).set .retryWait (r.now + backoff n)).goTo w .idle)
    | _ => none
  | .send w =>
    match s.workers w with
    | .send r n =>
      some { s.goTo w (.calling r n s.calls) with
        sends := update s.sends s.calls (some { «at» := s.clock })
        calls := s.calls + 1 }
    | _ => none
  | .sendReturns w result =>
    match s.workers w with
    | .calling r n k =>
      some { s.goTo w (.sent r n k result) with
        sends := update s.sends k ((s.sends k).map fun e => { e with result := some result }) }
    | _ => none
  | .sent w =>
    match s.workers w with
    | .sent r n _ result => some (s.sent cfg w r n result)
    | _ => none
  | .query w answer =>
    match s.workers w with
    | .query r => some (s.goTo w (.queried r (if cfg.caps.query then answer else .unavailable)))
    | _ => none
  | .queried w =>
    match s.workers w with
    | .queried r answer => some (s.queried cfg w r answer)
    | _ => none
  | .crash w => some (s.goTo w .idle)
  | .register result =>
    if s.facts.state = .manual ∧ (result.terminal = true ∨ result = .sending) then
      some (s.set (if result = .sending then .retryWait else result) s.clock)
    else none
  | .reconcileRead p => some { s with asked := update s.asked p (!s.facts.state.terminal) }
  | .reconcile p external t failedAt =>
    if s.asked p = true then
      some { (if s.facts.state.terminal then s else s.reconciled cfg external t failedAt) with
        asked := update s.asked p false }
    else none

def System.init (clock : Int) (expiresAt : Option Int) : System where
  clock := clock
  facts := { state := .prepared, expiresAt := expiresAt }
  nextAt := clock
  attempts := []
  workers := fun _ => .idle
  asked := fun _ => false
  writes := 0
  sends := fun _ => none
  calls := 0

/-- An operation whose external system answers queries and does not deduplicate; a request is
processed within ten minutes. -/
def queryable : Config where
  caps := { query := true, maxProcessing := 10 * minute }

end BeSdk.Extcmd

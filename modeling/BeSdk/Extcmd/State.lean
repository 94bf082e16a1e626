import Mathlib.Order.Basic

/-!
# The state table of external commands

A command is written in the business transaction, a job sends it, and a result that is not known is
queried before anything is sent again.  `Step` is the state table, a pure function: the job reads a
command, asks `Step` what an event makes of it, and writes the answer.
-/

namespace BeSdk.Extcmd

inductive State where
  | prepared
  | retryWait
  | sending
  | unknown
  | accepted
  | manual
  | succeeded
  | failed
  | rejected
deriving DecidableEq, Repr

/-- A send's result as the adapter classifies it; the last is any other text. -/
inductive SendClass where
  -- certainly not processed
  | notReached
  -- may have been processed
  | maybeReached
  | accepted
  | succeeded
  | failed
  | rejected
  | other
deriving DecidableEq, Repr

/-- The external system's state of a record; the last is anything not final. -/
inductive External where
  | accepted
  | succeeded
  | failed
  | rejected
  | other
deriving DecidableEq, Repr

inductive Event where
  -- the job takes a prepared or retry_wait command
  | claim
  -- the last check before the request leaves
  | beforeSend
  -- a sending command whose claimant is gone
  | leaseLost
  | sendResult (result : SendClass)
  | queryFound (external : External)
  | queryNotFound
  | queryDown
  -- accepted for longer than the adapter's finality limit
  | finalityPassed
  -- a person's verified outcome of a manual command
  | registered (result : State)
deriving DecidableEq, Repr

def hour : Int := 3600000000000

/-- ManualAfter: unknown, or accepted without a query, this long is manual. -/
def manualAfter : Int := 24 * hour

/-- MinMargin is the resend deadline's safety margin, at least. -/
def minMargin : Int := hour

/-- What the external system provides for one operation; a duration of 0 is none. -/
structure Capabilities where
  dedupeWindow : Int := 0
  lastUse : Bool := false
  query : Bool := false
  maxProcessing : Int := 0
  finality : Int := 0
  irrevocable : Bool := false

structure Facts where
  state : State
  resendDeadline : Option Int := none
  expiresAt : Option Int := none
  firstReached : Option Int := none
  lastReached : Option Int := none
  unknownSince : Option Int := none
  acceptedSince : Option Int := none
  -- after a full recovery, sends may have gone on until this moment without a record
  unrecordedUntil : Option Int := none
deriving DecidableEq, Repr

def State.terminal : State → Bool
  | .succeeded | .failed | .rejected => true
  | _ => false

/-- The state a record of the external system has here, if it is final or accepted. -/
def External.state : External → Option State
  | .accepted => some .accepted
  | .succeeded => some .succeeded
  | .failed => some .failed
  | .rejected => some .rejected
  | .other => none

/-- Deadline is the resend deadline: none without dedupe or without a send that may have reached the
external system. -/
def Deadline (f : Facts) (c : Capabilities) : Option Int :=
  if c.dedupeWindow ≤ 0 then none
  else
    let base := if c.lastUse ∧ f.lastReached.isSome then f.lastReached else f.firstReached
    base.map fun base => base + (c.dedupeWindow - max (c.dedupeWindow / 10) minMargin)

/-- The last moment a request may have been sent at. -/
def Facts.latest (f : Facts) : Option Int :=
  match f.lastReached, f.unrecordedUntil with
  | some t, some u => some (if t < u then u else t)
  | none, some u => some u
  | latest, none => latest

/-- resendable answers a "not found" query: only when the earlier request can no longer land. -/
def resendable (f : Facts) (c : Capabilities) (now : Int) : Bool × String :=
  if (Deadline f c).any (now ≤ ·) then
    (true, "the external system deduplicates and the deadline has not passed")
  else if f.expiresAt.any (· < now) then (true, "the request's expiry has passed")
  else if 0 < c.maxProcessing ∧ f.latest.any (fun t => c.maxProcessing < now - t) then
    (true, "the longest processing time has passed")
  else (false, "the earlier request may still land")

/-- What a record found makes of a state. -/
def found (external : External) (s : State) : State × String :=
  match external.state with
  | some state => (state, "the external record")
  | none => (s, "the external record, not final")

/-- What an unavailable query makes of a state the command has been in since. -/
def unanswered (s : State) (since : Option Int) (now : Int) : State × String :=
  if since.any fun since => manualAfter < now - since then
    (.manual, "no answer within the manual limit")
  else (s, "the query is unavailable: backoff")

/-- Step is the state table, first matching row wins: the next state and why. -/
def Step (f : Facts) (e : Event) (c : Capabilities) (now : Int) : State × String :=
  if f.state.terminal then (f.state, "a terminal state absorbs every later result")
  else
    let past := f.resendDeadline.any (· < now)
    match e, f.state with
    | .claim, .prepared | .claim, .retryWait =>
      if past then (.unknown, "claimed past the resend deadline")
      else (.sending, "claimed: the transition commits before the send")
    | .beforeSend, .sending =>
      if past then (.unknown, "past the resend deadline before the send: not sent")
      else (.sending, "sent")
    | .leaseLost, .sending => (.unknown, "the claimant is gone: whether it sent is not known")
    | .sendResult .notReached, .sending =>
      (.retryWait, "certainly not processed: backoff and send again")
    | .sendResult .maybeReached, .sending => (.unknown, "may have been processed: query first")
    | .sendResult .accepted, .sending => (.accepted, "accepted, not final")
    | .sendResult .succeeded, .sending => (.succeeded, "final")
    | .sendResult .failed, .sending => (.failed, "final")
    | .sendResult .rejected, .sending => (.rejected, "refused for good")
    | .queryFound external, .unknown => found external .unknown
    | .queryFound external, .accepted => found external .accepted
    | .queryDown, .unknown => unanswered .unknown f.unknownSince now
    | .queryDown, .accepted => unanswered .accepted f.acceptedSince now
    | .queryNotFound, .unknown =>
      let (ok, why) := resendable f c now
      (if ok then .sending else .manual, why)
    | .finalityPassed, .accepted =>
      if c.query then (.accepted, "past the finality limit: query")
      else if f.acceptedSince.any fun since => manualAfter < now - since then
        (.manual, "no query and past the manual limit")
      else (.accepted, "waiting for the callback or the reconciliation")
    | .registered result, .manual => (result, "registered by a person, with its grounds")
    | _, s => (s, "not a transition of the table: unchanged, logged")

end BeSdk.Extcmd

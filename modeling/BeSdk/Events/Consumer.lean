import Mathlib.Algebra.Order.Ring.Nat
import BeSdk.Authz.View
import BeSdk.Events.Subscription

/-!
# What a consumer does with a delivery

`events/transport.go` and `events/consumer.go`: a message as it travels, the envelope a subscription
reads from its headers, and what `Handle` decides between the transactions it runs.  Processing is
one transaction (the inbox row and the handler's own writes), the dead letter another; `Handle` goes
from one to the other by the attempt it was given and by the limit of the consumer's own `Spec`,
which need not be the limit the durable was created with.
-/

namespace BeSdk.Events

/-- What travels: a subject, the envelope headers and the payload. -/
structure Message where
  subject : String
  headers : List (String × String)
  data : List UInt8 := []
  -- The identity the transport deduplicates by; empty: the event ID.
  msgID : String := ""
deriving DecidableEq, Repr

namespace Message

variable (m : Message)

/-- A header, empty when it is missing. -/
def header (key : String) : String := (m.headers.lookup key).getD ""

def id : String := m.header "ce-id"

def dedupID : String := if m.msgID ≠ "" then m.msgID else m.id

def size : Nat :=
  m.data.length + m.subject.utf8ByteSize +
    (m.headers.map fun h => h.1.utf8ByteSize + h.2.utf8ByteSize).sum

end Message

structure Received where
  id : String
  type : String
  source : String
  recordID : String
  projection : String
  stream : String
  epoch : String
  impl : String
  version : Int
  seq : Int
  partition : Int
  hops : Int
deriving DecidableEq, Repr

/-- A number of the envelope, zero when its header is missing. -/
def Message.num (m : Message) (key : String) : Except String Int :=
  match m.headers.lookup key with
  | none => .ok 0
  | some v =>
    match Authz.parseInt64 v with
    | some n => .ok n
    | none => .error ("envelope header " ++ key ++ ": " ++ v.quote)

def received (m : Message) : Except String Received := do
  if m.header "ce-id" = "" ∨ m.header "ce-type" = "" then
    throw "the envelope has no ce-id or ce-type"
  let version ← m.num "ce-beversion"
  let seq ← m.num "ce-beseq"
  let partition ← m.num "ce-bepartition"
  let hops ← m.num "ce-behops"
  return { id := m.header "ce-id", type := m.header "ce-type", source := m.header "ce-source",
           recordID := m.header "ce-subject", projection := m.header "ce-beprojection",
           stream := m.header "ce-bestream", epoch := m.header "ce-beepoch",
           impl := m.header "ce-beimpl", version, seq, partition, hops }

def maxHops : Int := 10

/-- Receive: the envelope, the hop limit, the claim check; `claim` is what resolving a claim-checked
payload gave. -/
def receive (m : Message) (claim : Except String Unit) : Except String Received := do
  let r ← received m
  if r.hops > maxHops then
    throw ("event " ++ r.id ++ ": " ++ toString r.hops ++ " hops exceed the limit of " ++
      toString maxHops)
  if m.header "ce-beclaim" = "true" then claim
  return r

theorem received_id {m : Message} {r : Received} (h : received m = .ok r) : r.id = m.id := by
  simp only [received, bind, Except.bind, pure, Except.pure, throw, throwThe,
    MonadExceptOf.throw] at h
  repeat' split at h
  all_goals cases h
  rfl

theorem receive_id {m : Message} {claim : Except String Unit} {r : Received}
    (h : receive m claim = .ok r) : r.id = m.id := by
  simp only [receive, bind, Except.bind, pure, Except.pure, throw, throwThe,
    MonadExceptOf.throw] at h
  repeat' split at h
  all_goals cases h
  all_goals exact received_id (by assumption)

inductive Outcome
  -- processed and committed
  | ack
  -- failed; redeliver after the backoff
  | nak
  -- never deliver again
  | term
deriving DecidableEq, Repr

/-- A row of `be_dead_letter`. -/
structure DeadLetter where
  eventID : String
  type : String
  headers : List (String × String)
  payload : List UInt8
  error : String
  attempts : Int
deriving DecidableEq, Repr

def deadLetter (m : Message) (error : String) (attempt : Int) : DeadLetter :=
  { eventID := m.id, type := m.header "ce-type", headers := m.headers, payload := m.data,
    error := error, attempts := attempt }

/-- Where `Handle` goes on after processing: an outcome, or the dead letter of the error. -/
def Consumer.afterProcess (c : Consumer) (attempt : Int) : Option String → Outcome ⊕ String
  | none => .inl .ack
  | some err => if attempt < c.spec.maxDeliver then .inl .nak else .inr err

/-- The delay before delivery number `attempt + 1`. -/
def SubscriptionSpec.backoffFor (s : SubscriptionSpec) (attempt : Int) : Int :=
  let attempt := if attempt < 1 then 1 else attempt
  if attempt > s.backoff.length then s.backoff.getLastD 0
  else s.backoff.getD (attempt - 1).toNat 0

end BeSdk.Events

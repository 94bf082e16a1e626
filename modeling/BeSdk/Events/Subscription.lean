import Mathlib.Data.String.Basic

/-!
# Streams, subjects and subscriptions

The names an event travels under (`events/stream.go`, `events/subject.go`) and what a consumer asks
the transport for (`events/consumer.go`, `events/transport.go`). A stream's name, a partition and
an event's type are flattened into one dotted subject; a component's ID and a subscription's name
into one underscored durable. The transports know nothing but these texts:
`SubscriptionSpec.matches`, the same loop in the memory and in the PostgreSQL transport, decides
which subjects a durable gets.

Durations are milliseconds.
-/

namespace BeSdk.Events

/-! ## Streams -/

/-- What a watermark source's stream declares. -/
structure Watermark where
  operation : String
  pullers : List String
deriving DecidableEq, Repr

/-- A stream's declared reads: the operation, who may read, and whether both functions are there. -/
structure Records where
  operation : String
  readers : List String
  read : Bool
  page : Bool
deriving DecidableEq, Repr

/-- A declared event stream with its fixed number of partitions. -/
structure Stream where
  name : String
  partitions : Int
  watermark : Option Watermark := none
  records : Option Records := none
deriving DecidableEq, Repr

/-- `strings.Split(s, ".")`. -/
def tokens (s : String) : List (List Char) := s.toList.splitOn '.'

/-- The characters of a token of a stream's name. -/
def isNameChar (c : Char) : Bool := 'a' ≤ c ∧ c ≤ 'z' ∨ '0' ≤ c ∧ c ≤ '9' ∨ c = '_'

/-- The regular expression of stream names. -/
def streamName (name : String) : Bool :=
  (tokens name).all fun token => token ≠ [] ∧ token.all isNameChar

def Stream.validate (s : Stream) : Except String Unit :=
  if streamName s.name = false then
    .error ("stream " ++ s.name.quote ++ ": lower-case letters, digits, underscores and dots")
  else if s.partitions < 1 ∨ 256 < s.partitions then
    .error ("stream " ++ s.name ++ ": partitions must be 1-256, not " ++ toString s.partitions)
  else if s.watermark.any fun w => w.operation = "" ∨ w.pullers = [] then
    .error ("stream " ++ s.name ++
      ": a watermark source declares the pull's operation and who may pull it")
  else if s.records.any fun r => r.operation = "" ∨ r.readers = [] ∨ r.read = false ∨
      r.page = false then
    .error ("stream " ++ s.name ++
      ": record reads declare the operation, who may read, and both read functions")
  else
    match s.watermark, s.records with
    | none, _ => .ok ()
    | some _, none =>
      .error ("stream " ++ s.name ++ ": a watermark source declares its record reads (P9.30)")
    | some w, some r =>
      match w.pullers.find? (· ∉ r.readers) with
      | none => .ok ()
      | some c =>
        .error ("stream " ++ s.name ++ ": puller " ++ c ++
          " is not among the record readers (P9.30)")

def subject (stream : String) (partition : Nat) (eventType : String) : String :=
  "be." ++ stream ++ "." ++ toString partition ++ "." ++ eventType

/-! ## Subjects -/

/-- The loop of SubjectMatches over the tokens not compared yet. -/
def tokensMatch : List (List Char) → List (List Char) → Bool
  | [], s => s = []
  | tok :: p, s =>
    if tok = ['>'] then s ≠ []
    else
      match s with
      | [] => false
      | t :: s => if tok ≠ ['*'] ∧ tok ≠ t then false else tokensMatch p s

/-- SubjectMatches reports whether the subject matches a NATS-style pattern: `*` is one token, `>`
the rest. -/
def subjectMatches (pattern subject : String) : Bool :=
  tokensMatch (tokens pattern) (tokens subject)

def streamPattern (stream : String) : String := "be." ++ stream ++ ".>"

/-! ## Subscriptions -/

def defaultMaxDeliver : Int := 3

def defaultAckWait : Int := 30000

def defaultBackoff : List Int := [1000, 2000, 4000, 8000, 16000, 30000]

/-- A durable subscription as the transport is asked for it. -/
structure SubscriptionSpec where
  durable : String
  streams : List String
  -- Subjects, wildcards allowed; empty: every subject of the streams.
  filters : List String
  maxDeliver : Int := 0
  ackWait : Int := 0
  -- Between deliveries; the last value repeats.
  backoff : List Int := []
  concurrency : Int := 0
  ordered : Bool := false
deriving DecidableEq, Repr

/-- The protocol's defaults for unset fields. -/
def SubscriptionSpec.withDefaults (s : SubscriptionSpec) : SubscriptionSpec :=
  { s with
    maxDeliver := if s.maxDeliver ≤ 0 then defaultMaxDeliver else s.maxDeliver
    ackWait := if s.ackWait ≤ 0 then defaultAckWait else s.ackWait
    backoff := if s.backoff = [] then defaultBackoff else s.backoff
    concurrency := if s.concurrency ≤ 0 then 1 else s.concurrency }

/-- A subject the durable gets: of one of its streams, and matched by a filter where it has any. -/
def SubscriptionSpec.matches (s : SubscriptionSpec) (subject : String) : Bool :=
  s.streams.any (fun st => subjectMatches (streamPattern st) subject) ∧
    (s.filters = [] ∨ s.filters.any fun f => subjectMatches f subject)

/-- The memory transport's `matches`, asked for every message of its log. -/
def Memory.matches (spec : SubscriptionSpec) (subject : String) : Bool := spec.matches subject

/-- The PostgreSQL transport's `matches`, asked for every message that an advance reads. -/
def Pgqueue.matches (spec : SubscriptionSpec) (subject : String) : Bool := spec.matches subject

structure Sub where
  name : String
  streams : List String
  -- Event types it handles; empty: every type of the streams.
  types : List String := []
  maxDeliver : Int := 0
  concurrency : Int := 0
  ordered : Bool := false
deriving DecidableEq, Repr

/-- A subscription's effective concurrency: 1 when ordered, else the deployment's setting, else the
declaration, else 1. -/
def concurrency (s : Sub) (configured : Int) : Int :=
  if s.ordered then 1
  else if 0 < configured then configured
  else if 0 < s.concurrency then s.concurrency
  else 1

/-- The characters a durable's name has an underscore for. -/
def underscored (c : Char) : Char := if c = '/' ∨ c = '.' ∨ c = '-' then '_' else c

def durableName (componentID subscription : String) : String :=
  String.ofList ((componentID ++ "_" ++ subscription).toList.map underscored)

/-- A consumer of a member's subscription. -/
structure Consumer where
  member : String
  sub : Sub
  configured : Int := 0
deriving DecidableEq, Repr

/-- Spec is the transport subscription of this consumer. -/
def Consumer.spec (c : Consumer) : SubscriptionSpec :=
  { durable := durableName c.member c.sub.name
    streams := c.sub.streams
    filters := c.sub.streams.flatMap fun st =>
      c.sub.types.map fun typ => "be." ++ st ++ ".*." ++ typ
    maxDeliver := c.sub.maxDeliver
    concurrency := concurrency c.sub c.configured
    ordered := c.sub.ordered : SubscriptionSpec }.withDefaults

end BeSdk.Events

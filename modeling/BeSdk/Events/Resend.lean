import BeSdk.Events.InOrder
import BeSdk.Events.Subscription

/-!
# The redelivery

`Resender` answers a consumer that asks for a stream again (`events/resend.go`): partition by
partition, it judges the asked position against what was purged and what was ever numbered, and
sends the published rows after it, a batch at a time.  The judgement and every batch are
transactions of their own, and a batch is sent before the next one is read; so the outbox goes on
between any two steps here, and any number of requests are answered at once.

The purge notes on the partition's counter row the largest position it deleted, in the transaction
that deletes (`notePurged`).  A partition has a counter row once it was numbered, which is when the
counter has an epoch.

`arrived` and `sent` are history: the rows as they were when the request came in, and what the
transport took for each partition, with the positions the messages carry.
-/

namespace BeSdk.Events

open Function

variable {E : Type*}

/-! ## The purge's note -/

/-- The largest position among the deleted rows of the partition. -/
def topDeleted (rows : List (Row E)) (p : StreamPart) : Option Point → List Nat → Option Point
  | top, [] => top
  | top, ord :: ords =>
    match (rows[ord]?).filter (·.part = p) |>.bind (·.pos) with
    | none => topDeleted rows p top ords -- never numbered: no position to note
    | some pt =>
      if top.all (· < pt) then topDeleted rows p (some pt) ords else topDeleted rows p top ords

/-- `purged_generation`, `purged_timeline` and `purged_seq` after an action on the outbox. -/
def notePurged (noted : StreamPart → Option Point) (rows : List (Row E)) :
    Action E → StreamPart → Option Point
  | .purge ords, p =>
    match topDeleted rows p none ords with
    | none => noted p
    | some top => if (noted p).all (· < top) then some top else noted p
  | _, p => noted p

/-! ## Requests -/

/-- A non-negative `int64`, in just the digits that `strconv.FormatInt` writes for it. -/
def parseCount (cs : List Char) : Option Int :=
  let n := cs.foldl (fun n c => 10 * n + (c.toNat - '0'.toNat)) 0
  if cs = Nat.toDigits 10 n ∧ n < 2 ^ 63 then some n else none

/-- ParseEpoch reads an epoch written by String. -/
def parseEpoch (s : String) : Except String Epoch :=
  let bad := Except.error ("epoch " ++ s.quote ++ " is not <generation>.<timeline>")
  match s.toList.span (· ≠ '.') with
  | (g, '.' :: t) =>
    match parseCount g, parseCount t with
    | some generation, some timeline => .ok ⟨generation, timeline⟩
    | _, _ => bad
  | _ => bad

/-- `sourcepb.Position`. -/
structure AskedPosition where
  impl : String
  epoch : String
  seq : UInt64
deriving DecidableEq, Repr

/-- `sourcepb.PartitionFrom`. -/
structure PartitionFrom where
  partition : Nat
  after : Option AskedPosition
deriving DecidableEq, Repr

structure ResendRequest where
  stream : String
  from_ : List PartitionFrom
deriving DecidableEq, Repr

/-- What a redelivery starts after. Its sequence is the request's, as an `int64`. -/
structure Start where
  epoch : Epoch
  seq : Int
deriving DecidableEq, Repr

/-- The conversion of a `uint64` to an `int64`. -/
def int64 (n : UInt64) : Int := if n.toNat < 2 ^ 63 then n.toNat else n.toNat - 2 ^ 64

/-- `(epoch_generation, epoch_timeline, seq) > (...)`, and `Less`. -/
def Start.before (a : Start) (pt : Point) : Bool :=
  a.epoch < pt.epoch ∨ a.epoch = pt.epoch ∧ a.seq < pt.seq

/-- The row is after the start; without one every row is. -/
def isAfter (after : Option Start) (pt : Point) : Bool := after.all (·.before pt)

def Point.start (pt : Point) : Start := ⟨pt.epoch, pt.seq⟩

/-- Errors of a redelivery, by reason. -/
inductive ResendError
  -- `ReasonRequestInvalid`
  | requestInvalid (message : String)
  -- `ReasonDependencyUnavailable`
  | dependencyUnavailable (message : String)
  -- what the judgement's transaction failed with
  | database
deriving DecidableEq, Repr

/-- The asked starts; those of another implementation instance do not count: from the first row
kept. -/
def startsOf (impl : String) (partitions : Int) :
    (Nat → Option Start) → List PartitionFrom → Except ResendError (Nat → Option Start)
  | start, [] => .ok start
  | start, f :: rest =>
    if partitions ≤ f.partition then .error (.requestInvalid "no such partition")
    else
      match f.after with
      | none => startsOf impl partitions start rest
      | some a =>
        if a.impl ≠ impl then startsOf impl partitions start rest
        else
          match parseEpoch a.epoch with
          | .error _ => .error (.requestInvalid "an epoch is <generation>.<timeline>")
          | .ok e =>
            startsOf impl partitions
              (update start f.partition (some ⟨e, int64 a.seq⟩)) rest

/-! ## Redeliveries -/

/-- A row that was read: its `ord` and the position it was read with. -/
structure Sent where
  ord : Nat
  pos : Point
deriving DecidableEq, Repr

inductive ResendStage
  | judging
  -- in the judgement, before it looks for the epoch in the history
  | looking
  -- `todo` is read and not sent; `more`: the batch was full, and another read follows
  | sending (todo : List Sent) (more : Bool)
deriving DecidableEq, Repr

structure Resending (E : Type*) where
  request : ResendRequest
  partitions : Nat
  start : Nat → Option Start
  arrived : List (Row E)
  -- the partition it is at
  n : Nat := 0
  after : Option Start
  stage : ResendStage := .judging
  beyond : List Nat := []
  ahead : List Nat := []
  resent : Nat := 0
  sent : Nat → List Sent := fun _ => []

namespace Resending

variable (x : Resending E)

def part : StreamPart := ⟨x.request.stream, x.n⟩

/-- The next turn of the loop over the partitions. -/
def next : Resending E := { x with n := x.n + 1, after := x.start (x.n + 1), stage := .judging }

/-- The judgement is in: an asked position that is ahead ends the partition, for there is nothing
after it to send. -/
def judged (ahead : Bool) : Resending E :=
  if ahead then { x with ahead := x.ahead ++ [x.n] }.next
  else { x with stage := .sending [] true }

/-- The loop over the rows that were read: the partition is done when they are all sent and were
fewer than a batch. -/
def loop (todo : List Sent) (more : Bool) : Resending E :=
  if todo = [] ∧ more = false then x.next else { x with stage := .sending todo more }

def took (y : Sent) : Resending E :=
  { x with
    after := some y.pos.start
    resent := x.resent + 1
    sent := update x.sent x.n (x.sent x.n ++ [y]) }

end Resending

structure Resends (E : Type*) where
  outbox : State E
  noted : StreamPart → Option Point
  streams : List Stream
  -- `IMPLEMENTATION_INSTANCE`
  impl : String
  batch : Int
  at_ : Nat → Option (Resending E)
  answers : List (Except ResendError (Resending E))

inductive ResendAction (E : Type*)
  | outbox (a : Action E)
  | request (f : Nat) (req : ResendRequest)
  -- the judgement, up to its read of the counter row
  | judge (f : Nat)
  -- its read of the history
  | look (f : Nat)
  | read (f : Nat)
  -- `Publish` of the next message, or building it, succeeds or fails
  | publish (f : Nat) (ok : Bool)
  -- a transaction fails
  | fail (f : Nat)

namespace Resends

variable (s : Resends E)

def defaultBatch : Nat := 500

def batchSize : Nat := if s.batch ≤ 0 then defaultBatch else s.batch.toNat

/-- The request goes on; behind the last partition it is answered. -/
def put (f : Nat) (x : Resending E) : Resends E :=
  if x.n < x.partitions then { s with at_ := update s.at_ f (some x) }
  else { s with at_ := update s.at_ f none, answers := s.answers ++ [.ok x] }

def refuse (f : Nat) (e : ResendError) : Resends E :=
  { s with at_ := update s.at_ f none, answers := s.answers ++ [.error e] }

/-- Resend, up to its first judgement. -/
def requested (f : Nat) (req : ResendRequest) : Resends E :=
  match s.streams.find? (·.name = req.stream) with
  | none => s.refuse f (.requestInvalid ("no such stream: " ++ req.stream))
  | some st =>
    match startsOf s.impl st.partitions (fun _ => none) req.from_ with
    | .error e => s.refuse f e
    | .ok start =>
      s.put f
        { request := req, partitions := st.partitions.toNat, start := start,
          arrived := s.outbox.rows, after := start 0 }

/-- Whether rows after the start were purged. -/
def isBeyond (p : StreamPart) (after : Option Start) : Bool :=
  (s.noted p).any fun purged => after.all (·.before purged)

/-- judge, up to the counter row. Without the row nothing was ever numbered; in the counter's epoch
the start is ahead when it is past the counter. -/
def judge (x : Resending E) : Resending E :=
  let beyond := if s.isBeyond x.part x.after then x.beyond ++ [x.n] else x.beyond
  match (s.outbox.counters x.part).epoch, x.after with
  | none, after => { x with beyond := beyond }.judged after.isSome
  | some _, none => { x with beyond := beyond }.judged false
  | some e, some a =>
    if a.epoch = e then
      { x with beyond := beyond }.judged ((s.outbox.counters x.part).last < a.seq)
    else { x with beyond := beyond, stage := .looking }

/-- The rest of judge: past the fork of its epoch, or an epoch the partition never had. -/
def look (x : Resending E) : Resending E :=
  match x.after with
  | none => x.judged false
  | some a =>
    match s.outbox.history.find? fun h => h.part = x.part ∧ h.old = a.epoch with
    | none => x.judged true
    | some h => x.judged (h.forkSeq < a.seq)

/-- partition's read of a batch. -/
def rows (x : Resending E) : List Sent :=
  ((s.outbox.inOrder fun r =>
      r.part = x.part ∧ r.published ∧ r.pos.any (isAfter x.after)).take s.batchSize).map
    fun o => ⟨o, posOf s.outbox.rows o⟩

def stopped : ResendError :=
  .dependencyUnavailable "the redelivery stopped (the transport or the database): ask again"

def step (s : Resends E) : ResendAction E → Option (Resends E)
  | .outbox a =>
    (Events.step s.outbox a).map fun o =>
      { s with outbox := o, noted := notePurged s.noted s.outbox.rows a }
  | .request f req =>
    match s.at_ f with
    | none => some (s.requested f req)
    | some _ => none
  | .judge f =>
    match s.at_ f with
    | some x => if x.stage = .judging then some (s.put f (s.judge x)) else none
    | none => none
  | .look f =>
    match s.at_ f with
    | some x => if x.stage = .looking then some (s.put f (s.look x)) else none
    | none => none
  | .read f =>
    match s.at_ f with
    | some x =>
      if x.stage = .sending [] true then
        let rows := s.rows x
        some (s.put f (x.loop rows (s.batchSize ≤ rows.length)))
      else none
    | none => none
  | .publish f ok =>
    match s.at_ f with
    | some x =>
      match x.stage with
      | .sending (y :: todo) more =>
        if ok then some (s.put f ((x.took y).loop todo more)) else some (s.refuse f stopped)
      | _ => none
    | none => none
  | .fail f =>
    match s.at_ f with
    | some x =>
      match x.stage with
      | .sending _ _ => some (s.refuse f stopped)
      | _ => some (s.refuse f .database)
    | none => none

def init (E : Type*) (epoch : Epoch) (streams : List Stream) (impl : String) (batch : Int) :
    Resends E :=
  { outbox := Events.init E epoch, noted := fun _ => none, streams := streams, impl := impl,
    batch := batch, at_ := fun _ => none, answers := [] }

end Resends
end BeSdk.Events

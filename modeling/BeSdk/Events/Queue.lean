import Mathlib.Data.List.MinMax
import BeSdk.Db.Epoch
import BeSdk.Events.Consumer
import BeSdk.Library.Batch

/-!
# The PostgreSQL queue

`events/pgqueue/pgqueue.go`, for one durable: the messages any number of publishing transactions
insert, the durable's read position, its deliveries, and the workers of its instances, each running
`work` with `Consumer.Handle` as the handler.

A publishing transaction has its ID from some moment on and draws sequence numbers in any order, so
a message's place `(xid, seq)` says nothing about when it commits.  `horizon` is the largest
`pg_snapshot_xmin` a snapshot has answered: below it every transaction has finished, and IDs are
given only from it on.

What a worker does between two of its statements is nothing to the others, so a step is a statement
of its own transaction, or the last statements of a transaction with its commit where nobody can
see them apart: the row of `be_bus_subscription` is locked by `advance` and by `claimOrdered`, and
nobody but `advance` inserts deliveries.  A worker whose statement fails goes back to the head of
its loop, like one that crashed and was started again (`crash`); its transaction leaves nothing.
-/

namespace BeSdk.Events.Pgqueue

open Function

def maxMessage : Nat := 2 ^ 20

def advanceBatch : Nat := 500

inductive XidState
  | running | committed | aborted
deriving DecidableEq, Repr

/-- A row of `be_bus_message`. -/
structure Stored where
  xid : Nat
  seq : Nat
  message : Message
deriving DecidableEq, Repr

def Stored.place (r : Stored) : Nat ×ₗ Nat := toLex (r.xid, r.seq)

/-- A row of `be_bus_delivery`. -/
structure Queued where
  seq : Nat
  inFlight : Bool := false
  attempts : Int := 0
  leaseToken : Option Nat := none
  leaseUntil : Int := 0
  notBefore : Int
deriving DecidableEq, Repr

structure Claimed where
  token : Nat
  row : Stored
  attempt : Int
deriving DecidableEq, Repr

inductive Pc
  | idle
  -- advance holds the subscription's row and has read the position
  | advancing
  | read (rows : List Stored)
  -- claimOrdered holds the subscription's row
  | ordering
  -- its statement has found the first delivery due
  | picked (seq : Nat)
  -- claim found the message gone
  | gone (token seq : Nat)
  | handling (d : Claimed)
  -- failed for the last time: the dead letter is next
  | burying (d : Claimed) (error : String)
  | settling (d : Claimed) (out : Outcome)
deriving DecidableEq, Repr

/-- The durable as it was created, the consumers its workers run, and the position it was created
with, before every message: transaction IDs start at 3. -/
structure Config where
  created : SubscriptionSpec
  consumer : Nat → Consumer
  start : Nat ×ₗ Nat
  start_lt : (ofLex start).1 < 3

namespace Config

variable (cfg : Config)

def spec : SubscriptionSpec := cfg.created.withDefaults

/-- Ordering comes from the instance. -/
def ordered (f : Nat) : Bool := (cfg.consumer f).spec.ordered

end Config

structure Queue where
  xids : Nat → Option XidState
  horizon : Nat
  -- every row ever inserted; `purged` has the sequence numbers of those that are deleted
  messages : List Stored
  purged : List Nat
  pos : Nat ×ₗ Nat
  deliveries : List Queued
  -- who holds the row of `be_bus_subscription`
  lock : Option Nat
  workers : Nat → Pc
  nextToken : Nat
  now : Int
  inbox : List String
  deadLetters : List DeadLetter
  -- the sequence numbers in the order they were queued
  queued : List Nat
  -- those giveUp deleted
  givenUp : List Nat

inductive Action
  -- a publishing transaction gets its ID
  | assign (x : Nat)
  | insert (x q : Nat) (m : Message)
  | finish (x : Nat) (commits : Bool)
  -- advance's first statement
  | advance (f : Nat)
  -- advance's read, under a snapshot with this xmin
  | read (f xmin : Nat)
  -- the rest of advance, with its commit
  | enqueue (f : Nat)
  -- claim's statement: `SKIP LOCKED` may pass over any due delivery, so it may take any
  | claim (f q : Nat)
  | dropGone (f : Nat)
  -- claimOrdered's first statement
  | order (f : Nat)
  -- claimOrdered's choice, under its statement's snapshot
  | pick (f : Nat)
  -- its update and what follows, with the commit
  | take (f : Nat)
  | inProgress (f : Nat)
  -- `claim` is what resolving the claim check gave, `result` how the transaction ended, `err` its
  -- error if it has one
  | process (f : Nat) (claim : Except String Unit) (result : TxResult) (err : String)
  | bury (f : Nat) (result : TxResult)
  | settle (f : Nat)
  | giveUp
  | purge (qs : List Nat)
  | tick (now : Int)
  | crash (f : Nat)

namespace Queue

variable (cfg : Config) (s : Queue)

def goTo (f : Nat) (pc : Pc) : Queue := { s with workers := update s.workers f pc }

/-- The end of a transaction that holds the subscription's row. -/
def release (f : Nat) (pc : Pc) : Queue := { s.goTo f pc with lock := none }

def visible (r : Stored) : Bool := s.xids r.xid = some .committed ∧ r.seq ∉ s.purged

/-- What `xid < pg_snapshot_xmin(pg_current_snapshot())` relies on. -/
def finishedBelow (xmin : Nat) : Bool := decide (∀ x < xmin, s.xids x ≠ some .running)

def unread (xmin : Nat) : List Stored :=
  Batch.batch Stored.place advanceBatch
    (s.messages.filter fun r => s.visible r ∧ s.pos < r.place ∧ r.xid < xmin)

/-- A row that its `msg_id` would conflict with. -/
def conflicts (m : Message) : Bool :=
  m.dedupID ≠ "" ∧ s.messages.any fun r =>
    r.message.dedupID = m.dedupID ∧ s.xids r.xid ≠ some .aborted ∧ r.seq ∉ s.purged

def hasDelivery (q : Nat) : Bool := s.deliveries.any fun d => d.seq = q

/-- The sequence numbers an advance queues: `ON CONFLICT DO NOTHING`. -/
def news (rows : List Stored) : List Nat :=
  ((rows.filter fun r => Pgqueue.matches cfg.spec r.message.subject).map Stored.seq).filter
    fun q => !s.hasDelivery q

/-- The rest of advance: the deliveries, and the position at the last row. -/
def enqueued (rows : List Stored) : Queue :=
  { s with
    deliveries := s.deliveries ++ (s.news cfg rows).map fun q => { seq := q, notBefore := s.now }
    pos := (rows.getLast?.map Stored.place).getD s.pos
    queued := s.queued ++ s.news cfg rows }

def due (d : Queued) : Bool :=
  (!d.inFlight && d.notBefore ≤ s.now) ||
    (d.inFlight && d.leaseUntil < s.now && d.attempts < cfg.spec.maxDeliver)

/-- `ORDER BY seq LIMIT 1`. -/
def first : Option Queued := s.deliveries.argmin Queued.seq

def claimed (d : Queued) : Queued :=
  { d with
    inFlight := true, attempts := d.attempts + 1, leaseToken := some s.nextToken,
    leaseUntil := s.now + cfg.spec.ackWait }

/-- The UPDATE of a claim. -/
def claims (q : Nat) : Queue :=
  { s with
    deliveries := s.deliveries.map fun d => if d.seq = q then s.claimed cfg d else d
    nextToken := s.nextToken + 1 }

/-- The message of a delivery, where the retention purge has not removed it. -/
def message (q : Nat) : Option Stored := s.messages.find? fun r => r.seq = q ∧ s.visible r

def leased (token : Nat) (d : Queued) : Bool := d.leaseToken = some token && d.inFlight

def delete (token : Nat) : Queue :=
  { s with deliveries := s.deliveries.filter fun d => !leased token d }

/-- InProgress: the lease from now on, also where it has run out. -/
def extended (token : Nat) : Queue :=
  { s with
    deliveries := s.deliveries.map fun d =>
      if leased token d then { d with leaseUntil := s.now + cfg.spec.ackWait } else d }

/-- settle applies the handler's outcome, unless the lease was lost meanwhile. -/
def settled (d : Claimed) (out : Outcome) : Queue :=
  { s with
    deliveries :=
      if out = .ack ∨ out = .term ∨ (out = .nak ∧ d.attempt ≥ cfg.spec.maxDeliver) then
        s.deliveries.filter fun row => !leased d.token row
      else
        s.deliveries.map fun row =>
          if leased d.token row then
            { row with
              inFlight := false, leaseToken := none
              notBefore := s.now + cfg.spec.backoffFor d.attempt }
          else row }

/-- How process ended for Handle: an answer that was lost is an error too. -/
def processError (d : Claimed) (claim : Except String Unit) (result : TxResult) (err : String) :
    Option String :=
  match receive d.row.message claim, result with
  | .error bad, _ => some bad
  | .ok _, .committed => none
  | .ok _, _ => some err

/-- The inbox row commits with the handler's writes; it may be there already. -/
def inboxAfter (d : Claimed) (claim : Except String Unit) (result : TxResult) : List String :=
  match receive d.row.message claim with
  | .error _ => s.inbox
  | .ok r => if result.applied ∧ r.id ∉ s.inbox then r.id :: s.inbox else s.inbox

/-- Where Handle goes on. -/
def after (f : Nat) (d : Claimed) (err : Option String) : Pc :=
  match (cfg.consumer f).afterProcess d.attempt err with
  | .inl out => .settling d out
  | .inr error => .burying d error

/-- process: the envelope, then the transaction. -/
def processed (f : Nat) (d : Claimed) (claim : Except String Unit) (result : TxResult)
    (err : String) : Queue :=
  { s.goTo f (after cfg f d (processError d claim result err)) with
    inbox := s.inboxAfter d claim result }

/-- The dead letter of a delivery; an event has at most one. -/
def buried (f : Nat) (d : Claimed) (error : String) (result : TxResult) : Queue :=
  { s.goTo f (.settling d (if result = .committed then .term else .nak)) with
    deadLetters :=
      if result.applied ∧ ∀ l ∈ s.deadLetters, l.eventID ≠ d.row.message.id then
        deadLetter d.row.message error d.attempt :: s.deadLetters
      else s.deadLetters }

def exhausted (d : Queued) : Bool :=
  d.inFlight ∧ d.leaseUntil < s.now ∧ d.attempts ≥ cfg.spec.maxDeliver

/-- Locks are gone with the process that held them. -/
def crashed (f : Nat) : Queue :=
  { s.goTo f .idle with lock := if s.lock = some f then none else s.lock }

def step (s : Queue) : Action → Option Queue
  | .assign x =>
    if s.xids x = none ∧ s.horizon ≤ x ∧ 3 ≤ x then
      some { s with xids := update s.xids x (some .running) }
    else none
  | .insert x q m =>
    if s.xids x = some .running ∧ m.size ≤ maxMessage ∧ (∀ r ∈ s.messages, r.seq ≠ q) ∧
        s.conflicts m = false then
      some { s with messages := s.messages ++ [⟨x, q, m⟩] }
    else none
  | .finish x commits =>
    if s.xids x = some .running then
      some { s with
        xids := update s.xids x (some (if commits then .committed else .aborted)) }
    else none
  | .advance f =>
    match s.workers f, s.lock with
    | .idle, none => some { s.goTo f .advancing with lock := some f }
    | _, _ => none
  | .read f xmin =>
    match s.workers f with
    | .advancing =>
      if s.finishedBelow xmin then
        let s' := { s with horizon := max s.horizon xmin }
        match s.unread xmin with
        | [] => some (s'.release f .idle)
        | r :: rows => some (s'.goTo f (.read (r :: rows)))
      else none
    | _ => none
  | .enqueue f =>
    match s.workers f with
    | .read rows => some ((s.enqueued cfg rows).release f .idle)
    | _ => none
  | .claim f q =>
    match s.workers f, s.deliveries.find? (fun d => d.seq = q) with
    | .idle, some d =>
      if cfg.ordered f = false ∧ s.due cfg d then
        match s.message q with
        | some r => some ((s.claims cfg q).goTo f (.handling ⟨s.nextToken, r, d.attempts + 1⟩))
        | none => some ((s.claims cfg q).goTo f (.gone s.nextToken q))
      else none
    | _, _ => none
  | .dropGone f =>
    match s.workers f with
    | .gone token _ => some ((s.delete token).goTo f .idle)
    | _ => none
  | .order f =>
    match s.workers f, s.lock with
    | .idle, none => if cfg.ordered f then some { s.goTo f .ordering with lock := some f } else none
    | _, _ => none
  | .pick f =>
    match s.workers f with
    | .ordering =>
      match s.first with
      | some d => if s.due cfg d then some (s.goTo f (.picked d.seq)) else some (s.release f .idle)
      | none => some (s.release f .idle)
    | _ => none
  | .take f =>
    match s.workers f with
    | .picked q =>
      -- the row may have been settled and deleted since the statement's snapshot
      match s.deliveries.find? (fun d => d.seq = q) with
      | none => some (s.release f .idle)
      | some d =>
        match s.message q with
        | some r => some ((s.claims cfg q).release f (.handling ⟨s.nextToken, r, d.attempts + 1⟩))
        | none => some (((s.claims cfg q).delete s.nextToken).release f .idle)
    | _ => none
  | .inProgress f =>
    match s.workers f with
    | .handling d => some (s.extended cfg d.token)
    | _ => none
  | .process f claim result err =>
    match s.workers f with
    | .handling d => some (s.processed cfg f d claim result err)
    | _ => none
  | .bury f result =>
    match s.workers f with
    | .burying d error => some (s.buried f d error result)
    | _ => none
  | .settle f =>
    match s.workers f with
    | .settling d out => some ((s.settled cfg d out).goTo f .idle)
    | _ => none
  | .giveUp =>
    some { s with
      deliveries := s.deliveries.filter fun d => !s.exhausted cfg d
      givenUp := s.givenUp ++ (s.deliveries.filter (s.exhausted cfg)).map Queued.seq }
  | .purge qs =>
    if ∀ q ∈ qs, s.message q ≠ none then
      some { s with
        purged := s.purged ++ qs
        deliveries := s.deliveries.filter fun d => d.seq ∉ qs }
    else none
  | .tick now => some { s with now := now }
  | .crash f => some (s.crashed f)

/-- No messages yet, and the durable just created. -/
def init : Queue :=
  { xids := fun _ => none, horizon := 0, messages := [], purged := [], pos := cfg.start,
    deliveries := [], lock := none, workers := fun _ => .idle, nextToken := 0, now := 0,
    inbox := [], deadLetters := [], queued := [], givenUp := [] }

inductive Moves (cfg : Config) (s : Queue) : Action → Queue → Prop
  | assign {x} (hnew : s.xids x = none) (hfrom : s.horizon ≤ x) (hfirst : 3 ≤ x) :
      Moves cfg s (.assign x) { s with xids := update s.xids x (some .running) }
  | insert {x q m} (hrunning : s.xids x = some .running) (hnew : ∀ r ∈ s.messages, r.seq ≠ q) :
      Moves cfg s (.insert x q m) { s with messages := s.messages ++ [⟨x, q, m⟩] }
  | finish {x commits} (hrunning : s.xids x = some .running) :
      Moves cfg s (.finish x commits) { s with
        xids := update s.xids x (some (if commits then .committed else .aborted)) }
  | advance {f} (hidle : s.workers f = .idle) (hfree : s.lock = none) :
      Moves cfg s (.advance f) { s.goTo f .advancing with lock := some f }
  | readNothing {f xmin} (hat : s.workers f = .advancing) (hbelow : s.finishedBelow xmin = true)
      (hnothing : s.unread xmin = []) :
      Moves cfg s (.read f xmin) (release { s with horizon := max s.horizon xmin } f .idle)
  | read {f xmin} (hat : s.workers f = .advancing) (hbelow : s.finishedBelow xmin = true)
      (hsome : s.unread xmin ≠ []) :
      Moves cfg s (.read f xmin)
        (goTo { s with horizon := max s.horizon xmin } f (.read (s.unread xmin)))
  | enqueue {f rows} (hat : s.workers f = .read rows) :
      Moves cfg s (.enqueue f) ((s.enqueued cfg rows).release f .idle)
  | claim {f q d r} (hidle : s.workers f = .idle)
      (hd : s.deliveries.find? (fun d => d.seq = q) = some d) (hunordered : cfg.ordered f = false)
      (hr : s.message q = some r) :
      Moves cfg s (.claim f q)
        ((s.claims cfg q).goTo f (.handling ⟨s.nextToken, r, d.attempts + 1⟩))
  | claimGone {f q d} (hidle : s.workers f = .idle)
      (hd : s.deliveries.find? (fun d => d.seq = q) = some d) (hunordered : cfg.ordered f = false)
      (hr : s.message q = none) :
      Moves cfg s (.claim f q) ((s.claims cfg q).goTo f (.gone s.nextToken q))
  | dropGone {f token q} (hat : s.workers f = .gone token q) :
      Moves cfg s (.dropGone f) ((s.delete token).goTo f .idle)
  | order {f} (hidle : s.workers f = .idle) (hfree : s.lock = none) :
      Moves cfg s (.order f) { s.goTo f .ordering with lock := some f }
  | pick {f d} (hat : s.workers f = .ordering) (hd : s.first = some d) :
      Moves cfg s (.pick f) (s.goTo f (.picked d.seq))
  | pickNothing {f} (hat : s.workers f = .ordering) : Moves cfg s (.pick f) (s.release f .idle)
  | takeNothing {f q} (hat : s.workers f = .picked q) : Moves cfg s (.take f) (s.release f .idle)
  | take {f q d r} (hat : s.workers f = .picked q)
      (hd : s.deliveries.find? (fun d => d.seq = q) = some d) (hr : s.message q = some r) :
      Moves cfg s (.take f)
        ((s.claims cfg q).release f (.handling ⟨s.nextToken, r, d.attempts + 1⟩))
  | takeGone {f q d} (hat : s.workers f = .picked q)
      (hd : s.deliveries.find? (fun d => d.seq = q) = some d) (hr : s.message q = none) :
      Moves cfg s (.take f) (((s.claims cfg q).delete s.nextToken).release f .idle)
  | inProgress {f d} (hat : s.workers f = .handling d) :
      Moves cfg s (.inProgress f) (s.extended cfg d.token)
  | process {f claim result err d} (hat : s.workers f = .handling d) :
      Moves cfg s (.process f claim result err) (s.processed cfg f d claim result err)
  | bury {f result d error} (hat : s.workers f = .burying d error) :
      Moves cfg s (.bury f result) (s.buried f d error result)
  | settle {f d out} (hat : s.workers f = .settling d out) :
      Moves cfg s (.settle f) ((s.settled cfg d out).goTo f .idle)
  | giveUp :
      Moves cfg s .giveUp { s with
        deliveries := s.deliveries.filter fun d => !s.exhausted cfg d
        givenUp := s.givenUp ++ (s.deliveries.filter (s.exhausted cfg)).map Queued.seq }
  | purge {qs} (hstored : ∀ q ∈ qs, s.message q ≠ none) :
      Moves cfg s (.purge qs) { s with
        purged := s.purged ++ qs
        deliveries := s.deliveries.filter fun d => d.seq ∉ qs }
  | tick {now} : Moves cfg s (.tick now) { s with now := now }
  | crash {f} : Moves cfg s (.crash f) (s.crashed f)

variable {cfg s}

theorem step_moves {s' : Queue} {a : Action} (hstep : step cfg s a = some s') :
    Moves cfg s a s' := by
  cases a <;> simp only [step] at hstep
  case tick | giveUp | crash => cases hstep; constructor
  case assign | insert | finish | purge =>
    split at hstep <;> cases hstep
    constructor <;> tauto
  case read =>
    split at hstep
    · split at hstep
      · split at hstep
        · cases hstep
          exact .readNothing (by assumption) (by assumption) (by assumption)
        rename_i hrows
        cases hstep
        rw [← hrows]
        exact .read (by assumption) (by assumption) (by simp [hrows])
      cases hstep
    cases hstep
  all_goals repeat' split at hstep
  all_goals cases hstep
  all_goals constructor <;> first | assumption | exact And.left (by assumption)

end Queue

/-! ## A durable for the examples -/

def orders (ordered : Bool) : Consumer :=
  { member := "erp/stock", sub := { name := "orders", streams := ["sales"], ordered := ordered } }

def ordersQueue (ordered : Bool) : Config :=
  { created := (orders ordered).spec, consumer := fun _ => orders ordered, start := toLex (0, 0),
    start_lt := by decide }

def ordered (id : String) : Message :=
  { subject := "be.sales.0.order.placed", headers := [("ce-id", id), ("ce-type", "order.placed")] }

/-- Two publishing transactions: the one with the smaller ID draws the larger sequence number and
commits first, and is read before the other one commits. -/
def lateCommit : List Action :=
  [.assign 3, .assign 4, .insert 4 1 (ordered "late"), .insert 3 2 (ordered "early"),
    .finish 3 true, .advance 0, .read 0 4, .enqueue 0]

end BeSdk.Events.Pgqueue

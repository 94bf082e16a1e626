import BeSdk.Db.Epoch

/-!
# Work items and what a claim of one may write

The rows of `be_work_item` (`work/job.go`) with the statements that change them:
a claim (`Runner.claim`), the writes a `Run` makes through `Run.exec`
(`work/run.go`), the ends of a failed run (`Runner.fail`, `Runner.dead`) and the
operator's actions (`work/operator.go`).  Each statement is a function on the row
it updates; whether it applies is the statement's `WHERE`.

Instants and durations are microseconds of the database's clock.  `guard` is the
claim check that every write of a `Run` carries.
-/

namespace BeSdk.Work

inductive Kind
  | queue | cron | singleton | every
deriving DecidableEq, Repr

inductive Effect
  | localOnly | idempotentExternal | nonIdempotentExternal | emitOnly
deriving DecidableEq, Repr

/-- The `state` column of a work item. -/
inductive ItemState
  | pending | running | retryWait | paused | dead | done | resolved
deriving DecidableEq, Repr

/-- The `pause_reason` column. -/
inductive PauseReason
  | backlogExceeded | businessHold | outcomeUnknown
deriving DecidableEq, Repr

/-- `Job`, as far as claims and failures read it; `maxWait` is `0` for no limit. -/
structure Job where
  name : String
  kind : Kind
  effect : Effect
  maxAttempts : Int
  maxWait : Nat
  interval : Nat
deriving DecidableEq, Repr

/-- A row of `be_work_item`. -/
structure Item where
  id : String
  job : String
  kind : Kind
  state : ItemState
  pauseReason : Option PauseReason := none
  epoch : Nat := 0
  claimEpoch : Option Epoch := none
  attempts : Int := 0
  maxAttempts : Int
  effectClass : Effect
  operationID : String
  outcomeUnknown : Bool := false
  waitingSince : Option Nat := none
  holder : Option String := none
  leaseUntil : Option Nat := none
  runAt : Nat
  args : String := ""
  progress : Option String := none
  slot : String := ""
  callResults : List (String × String) := []
  lastError : Option String := none
  result : Option String := none
  finishedAt : Option Nat := none
deriving DecidableEq, Repr

/-- `Run`: one claim of a work item, as the claiming statement returned it. -/
structure Run where
  id : String
  kind : Kind
  epoch : Nat
  claimEpoch : Epoch
  attempts : Int
  maxAttempts : Int
  operationID : String
  args : String
  progress : Option String
  slot : String
  callResults : List (String × String)
  job : Job
  completed : Bool := false
deriving DecidableEq, Repr

def backoffStart : Nat := 1000000

def backoffCap : Nat := 300000000

/-- `backoff`: one second doubling, at most five minutes. -/
def backoff (n : Int) : Nat :=
  let n := if n < 1 then 1 else n
  if 20 < n then backoffCap else min backoffCap (backoffStart * 2 ^ (n - 1).toNat)

/-- The `||` of `call_results`: a recorded result replaces the one under its key. -/
def setResult (results : List (String × String)) (key result : String) :
    List (String × String) :=
  (key, result) :: results.filter (fun entry => entry.1 != key)

/-! ## Claiming -/

/-- What `claim` selects: an expired lease, or an item that is due.  Rows other
claims have locked are skipped, so any such item may be the one taken. -/
def Item.claimable (now : Nat) (it : Item) : Bool :=
  (it.state = .running ∧ ∃ until_ ∈ it.leaseUntil, until_ ≤ now) ∨
    ((it.state = .pending ∨ it.state = .retryWait) ∧ it.runAt ≤ now)

/-- The claiming `UPDATE`. -/
def Item.claimed (now lease : Nat) (current : Epoch) (holder : String) (it : Item) : Item :=
  { it with
    state := .running, epoch := it.epoch + 1, attempts := it.attempts + 1,
    holder := some holder, leaseUntil := some (now + lease), claimEpoch := some current }

/-- The row a claim leaves when an earlier holder may have sent a call already. -/
def Item.pausedUnknown (it : Item) : Item :=
  { it with
    state := .paused, pauseReason := some .outcomeUnknown, holder := none, leaseUntil := none }

/-- `Runner.claim`, on the row it selected: the row it writes, and the `Run` it
returns.  A non-idempotent item whose call may have been sent is paused instead. -/
def claim (now lease : Nat) (current : Epoch) (holder : String) (job : Job) (it : Item) :
    Item × Option Run :=
  let it' := it.claimed now lease current holder
  if it'.effectClass = .nonIdempotentExternal ∧ it'.outcomeUnknown then
    (it'.pausedUnknown, none)
  else
    (it', some
      { id := it'.id, kind := it'.kind, epoch := it'.epoch, claimEpoch := current,
        attempts := it'.attempts, maxAttempts := it'.maxAttempts,
        operationID := it'.operationID, args := it'.args, progress := it'.progress,
        slot := it'.slot, callResults := it'.callResults, job := job })

/-! ## The writes of a run -/

/-- The claim check every commit carries: the run's own epoch and claim epoch, the
claim epoch still current. -/
def guard (current : Epoch) (it : Item) (r : Run) : Bool :=
  it.id = r.id ∧ it.state = .running ∧ it.epoch = r.epoch ∧
    it.claimEpoch = some r.claimEpoch ∧ r.claimEpoch = current

/-- The writes a handler makes through its `Run`, the lease renewal beside it and the
release on stop.  `op` is a fresh operation ID. -/
inductive Write
  | complete (op : String)
  | beforeCall
  | recordCall (key result : String)
  | checkpoint (progress op : String)
  | renew
  | release
deriving DecidableEq, Repr

def Write.set (now lease : Nat) (r : Run) : Write → Item → Item
  | .complete op, it =>
    if r.kind = .singleton then
      { it with
        state := .pending, outcomeUnknown := false, waitingSince := none, holder := none,
        leaseUntil := none, attempts := 0, progress := none, operationID := op,
        runAt := now + r.job.interval }
    else
      { it with
        state := .done, outcomeUnknown := false, waitingSince := none, holder := none,
        leaseUntil := none, finishedAt := some now }
  | .beforeCall, it => { it with outcomeUnknown := true }
  | .recordCall key result, it => { it with callResults := setResult it.callResults key result }
  | .checkpoint progress op, it =>
    { it with progress := some progress, operationID := op, callResults := [] }
  | .renew, it => { it with leaseUntil := some (now + lease) }
  | .release, it => { it with leaseUntil := some now, attempts := it.attempts - 1 }

/-- What a run keeps in memory once its write is known to have committed. -/
def Write.note (r : Run) : Write → Run
  | .complete _ => { r with completed := true }
  | .recordCall key result => { r with callResults := setResult r.callResults key result }
  | .checkpoint progress op =>
    { r with progress := some progress, operationID := op, callResults := [] }
  | _ => r

/-! ## Failing -/

inductive CauseKind
  | wait | permanent | notEffective | retryable
deriving DecidableEq, Repr

structure Cause where
  kind : CauseKind
  text : String
deriving DecidableEq, Repr

/-- The guarded write `fail` ends with. -/
inductive FailWrite
  | wait | paused | dead | retry
deriving DecidableEq, Repr

/-- The read of `fail`'s wait branch: has the item waited longer than `maxWait`? -/
def waitedTooLong (now : Nat) (job : Job) (it : Option Item) : Bool :=
  match it.bind (·.waitingSince) with
  | some since => since + job.maxWait < now
  | none => false

/-- `Runner.unknown`: the mark of `BeforeCall`, `false` when it cannot be read. -/
def unknown (readOk : Bool) (it : Option Item) : Bool :=
  readOk && (it.map (·.outcomeUnknown)).getD false

/-- `Runner.fail`, up to its last write: the branch taken for a cause.  A read that
fails leaves its answer `false`. -/
def failWith (now : Nat) (r : Run) (cause : Cause) (readOk : Bool) (it : Option Item) :
    FailWrite :=
  if cause.kind = .wait then
    if 0 < r.job.maxWait ∧ (readOk && waitedTooLong now r.job it) then .dead else .wait
  else if cause.kind = .permanent then .dead
  else if r.job.effect = .nonIdempotentExternal ∧ cause.kind ≠ .notEffective ∧
      unknown readOk it then .paused
  else if r.maxAttempts ≤ r.attempts then .dead
  else .retry

/-- The `SET` of each end of a failed run.  A wait waits again as long as it has
waited, from the backoff's start up to its cap. -/
def FailWrite.set (now : Nat) (r : Run) (cause : Cause) : FailWrite → Item → Item
  | .wait, it =>
    { it with
      state := .retryWait, attempts := it.attempts - 1, holder := none, leaseUntil := none,
      lastError := some cause.text, waitingSince := some (it.waitingSince.getD now),
      runAt := now + min backoffCap (max backoffStart (now - it.waitingSince.getD now)) }
  | .paused, it =>
    { it with
      state := .paused, pauseReason := some .outcomeUnknown, holder := none,
      leaseUntil := none, lastError := some cause.text }
  | .dead, it =>
    { it with
      state := .dead, outcomeUnknown := false, holder := none, leaseUntil := none,
      lastError := some cause.text, finishedAt := some now }
  | .retry, it =>
    { it with
      state := .retryWait, outcomeUnknown := false, holder := none, leaseUntil := none,
      lastError := some cause.text, runAt := now + backoff r.attempts }

/-! ## The operator -/

/-- `Requeue`'s `WHERE`. -/
def Item.requeueable (verifiedNotEffective : Bool) (it : Item) : Bool :=
  (it.state = .dead ∧ ¬ it.outcomeUnknown) ∨
    (it.state = .paused ∧
      (it.pauseReason = some .backlogExceeded ∨ it.pauseReason = some .businessHold)) ∨
    (it.state = .paused ∧ it.pauseReason = some .outcomeUnknown ∧ verifiedNotEffective)

def Item.requeued (now : Nat) (it : Item) : Item :=
  { it with
    state := .pending, pauseReason := none, attempts := 0, runAt := now,
    outcomeUnknown := false, holder := none, leaseUntil := none }

def Item.resolvable (it : Item) : Bool := it.state = .dead ∨ it.state = .paused

def Item.resolve (now : Nat) (reason : String) (it : Item) : Item :=
  { it with
    state := .resolved, pauseReason := none, result := some reason, finishedAt := some now }

def Item.holdable (it : Item) : Bool := it.state = .pending ∨ it.state = .retryWait

def Item.held (it : Item) : Item := { it with state := .paused, pauseReason := some .businessHold }

/-! ## What no statement changes

A row keeps its key, its job, its kind and its effect class; only a claim moves its epoch. -/

/-- `it'` is a later version of the row `it`. -/
structure Item.Keeps (it it' : Item) : Prop where
  id : it'.id = it.id
  job : it'.job = it.job
  kind : it'.kind = it.kind
  effectClass : it'.effectClass = it.effectClass

theorem Write.keeps_set (now lease : Nat) (r : Run) (w : Write) (it : Item) :
    it.Keeps (w.set now lease r it) := by
  cases w with
  | complete op =>
    dsimp only [Write.set]
    split <;> exact ⟨rfl, rfl, rfl, rfl⟩
  | _ => exact ⟨rfl, rfl, rfl, rfl⟩

@[simp] theorem Write.set_epoch (now lease : Nat) (r : Run) (w : Write) (it : Item) :
    (w.set now lease r it).epoch = it.epoch := by
  cases w with
  | complete op =>
    dsimp only [Write.set]
    split <;> rfl
  | _ => rfl

theorem FailWrite.keeps_set (now : Nat) (r : Run) (cause : Cause) (w : FailWrite) (it : Item) :
    it.Keeps (w.set now r cause it) := by
  cases w <;> exact ⟨rfl, rfl, rfl, rfl⟩

@[simp] theorem FailWrite.set_epoch (now : Nat) (r : Run) (cause : Cause) (w : FailWrite)
    (it : Item) : (w.set now r cause it).epoch = it.epoch := by
  cases w <;> rfl

section
variable (now lease : Nat) (current : Epoch) (holder : String) (job : Job) (it : Item)
include now lease current holder job it

theorem claim_keeps : it.Keeps (claim now lease current holder job it).1 := by
  unfold claim
  dsimp only
  split <;> exact ⟨rfl, rfl, rfl, rfl⟩

@[simp] theorem claim_epoch : (claim now lease current holder job it).1.epoch = it.epoch + 1 := by
  unfold claim
  dsimp only
  split <;> rfl

theorem claim_unmarked :
    (claim now lease current holder job it).1.outcomeUnknown = it.outcomeUnknown := by
  unfold claim
  dsimp only
  split <;> rfl

end

theorem claim_run {now lease : Nat} {current : Epoch} {holder : String} {job : Job} {it : Item}
    {r : Run} (hrun : (claim now lease current holder job it).2 = some r) :
    r.id = it.id ∧ r.kind = it.kind ∧ r.epoch = it.epoch + 1 ∧ r.job = job ∧
      (it.effectClass = .nonIdempotentExternal → it.outcomeUnknown = false) := by
  unfold claim at hrun
  dsimp only at hrun
  split at hrun
  · simp at hrun
  rename_i hmark
  obtain rfl := by simpa using hrun
  refine ⟨rfl, rfl, rfl, rfl, fun heffect => ?_⟩
  have hmark' : it.effectClass = .nonIdempotentExternal → ¬ it.outcomeUnknown = true := by
    simpa [Item.claimed] using hmark
  simpa using hmark' heffect

end BeSdk.Work

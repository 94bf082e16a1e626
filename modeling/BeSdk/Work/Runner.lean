import BeSdk.Library.Runs
import BeSdk.Work.Item

/-!
# The runners over one table of work items

Any number of runners share `be_work_item`.  The state is the table, the database's
clock and epoch, and every `Run` a claim handed to a worker, in the order of the
claims; `step` is one transaction, or one thing that happens outside of any (time
passing, a crash, the epoch changing).  A `Run` handed out keeps whatever claim it
was built from, so nothing here stops an old holder from writing except the guard
of the write itself.

`Runner.claim` returns the `Run` it built beside the transaction's error, and
`Runner.work` runs every `Run` it gets, so a claim whose transaction failed hands
out its `Run` all the same; `State.claim` is that.

`latest` and `log` are history: the `Run` of an item's latest committed claim, and
the committed writes that the properties below speak about, oldest first.
-/

namespace BeSdk.Work

open List Function

structure Config where
  jobs : String → Option Job
  lease : Nat

/-- Where a worker is with a `Run`: in the handler, in `fail` with the last write
still to do, or done with it. -/
inductive Phase
  | handling
  | failing (cause : Cause) (write : FailWrite)
  | over
deriving DecidableEq, Repr

structure RunState where
  run : Run
  phase : Phase
deriving DecidableEq, Repr

/-- A committed write of an item, as the history keeps it. -/
inductive Entry
  | mark (id : String) (run : Nat)
  | complete (id : String)
  | failed (id : String) (kind : CauseKind) (write : FailWrite)
  | requeued (id : String) (verifiedNotEffective : Bool)
deriving DecidableEq, Repr

structure State where
  now : Nat
  epoch : Epoch
  items : String → Option Item
  runs : List RunState
  latest : String → Option Nat
  log : List Entry

inductive Action
  -- time passes
  | tick (micros : Nat)
  -- `be_current_db_epoch()` answers another epoch from now on
  | setEpoch (epoch : Epoch)
  -- `EnqueueAt` of a queue job, committed with its business transaction
  | enqueue (id job args : String) (runAt : Nat)
  -- one slot of a cron job materialized, paused when the backlog is exceeded
  | materialize (job slot op : String) (runAt : Nat) (paused : Bool)
  -- `ensureSingleton`
  | ensureSingleton (job op : String)
  | claim (holder id : String) (result : TxResult)
  | write (run : Nat) (write : Write) (result : TxResult)
  -- the handler's error reaches `fail`, whose read succeeds or not
  | report (run : Nat) (cause : Cause) (readOk : Bool)
  -- the write `fail` ends with
  | settle (run : Nat) (result : TxResult)
  -- a crash, a lost claim, or a handler returning once it has completed
  | leave (run : Nat)
  | requeue (id : String) (verifiedNotEffective : Bool)
  | resolve (id reason : String)
  | hold (id : String)
deriving DecidableEq, Repr

namespace State

variable (cfg : Config) (s : State)

/-- A row written. -/
def put (id : String) (it : Item) : State :=
  { s with items := update s.items id (some it) }

/-- An `INSERT ... ON CONFLICT DO NOTHING`. -/
def add (it : Item) : State :=
  match s.items it.id with
  | some _ => s
  | none => s.put it.id it

/-- `Run.exec`: one guarded update; `none` is `ErrLost`. -/
def exec (r : Run) (set : Item → Item) (entries : List Entry) : Option State :=
  match s.items r.id with
  | some it =>
    if guard s.epoch it r then
      some { s.put r.id (set it) with log := s.log ++ entries }
    else none
  | none => none

def setRun (k : Nat) (rs : RunState) : State := { s with runs := s.runs.set k rs }

/-- `Runner.claim` on the selected row, with the `Run` going to the worker however the
transaction ended. -/
def claim (holder : String) (job : Job) (it : Item) (result : TxResult) : State :=
  let c := Work.claim s.now cfg.lease s.epoch holder job it
  { s with
    items := if result.applied then update s.items it.id (some c.1) else s.items
    latest := if result.applied then
        update s.latest it.id (c.2.map fun _ => s.runs.length)
      else s.latest
    runs := s.runs ++ (c.2.map fun r => ⟨r, .handling⟩).toList }

end State

/-- What the history records of a committed write. -/
def Write.entries (id : String) (k : Nat) : Write → List Entry
  | .complete _ => [.complete id]
  | .beforeCall => [.mark id k]
  | _ => []

/-- Which writes a worker can make where it is: the renewal runs beside the handler
and beside `fail`, everything else is the handler's, or the end of it. -/
def Phase.allows : Phase → Write → Bool
  | .handling, _ => true
  | .failing _ _, .renew => true
  | _, _ => false

def Write.next (phase : Phase) : Write → Phase
  | .release => .over
  | _ => phase

/-- One transaction, or one thing that happens outside of any. -/
def step (cfg : Config) (s : State) : Action → Option State
  | .tick micros => some { s with now := s.now + micros }
  | .setEpoch epoch => some { s with epoch := epoch }
  | .enqueue id job args runAt =>
    match cfg.jobs job, s.items id with
    | some j, none =>
      if j.kind = .queue then
        some (s.add
          { id := id, job := job, kind := .queue, state := .pending,
            maxAttempts := j.maxAttempts, effectClass := j.effect,
            operationID := id ++ ":" ++ job, args := args, runAt := runAt })
      else none
    | _, _ => none
  | .materialize job slot op runAt paused =>
    match cfg.jobs job with
    | some j =>
      if j.kind = .cron then
        some (s.add
          { id := job ++ "@" ++ slot, job := job, kind := .cron,
            state := if paused then .paused else .pending,
            pauseReason := if paused then some .backlogExceeded else none,
            maxAttempts := j.maxAttempts, effectClass := j.effect,
            operationID := op, slot := slot, runAt := runAt })
      else none
    | none => none
  | .ensureSingleton job op =>
    match cfg.jobs job with
    | some j =>
      if j.kind = .singleton then
        some (s.add
          { id := job, job := job, kind := .singleton, state := .pending,
            maxAttempts := j.maxAttempts, effectClass := j.effect,
            operationID := op, runAt := s.now })
      else none
    | none => none
  | .claim holder id result =>
    match s.items id with
    | some it =>
      match cfg.jobs it.job with
      | some job =>
        if job.kind ≠ .every ∧ it.claimable s.now then
          some (s.claim cfg holder job it result)
        else none
      | none => none
    | none => none
  | .write k w result =>
    match s.runs[k]? with
    | some rs =>
      if rs.phase.allows w then
        let phase := w.next rs.phase
        -- the claim was lost: the worker learns it, the table is as it was
        let done := s.exec rs.run (w.set s.now cfg.lease rs.run) (w.entries rs.run.id k)
        match result, done with
        | .committed, some s' => some (s'.setRun k ⟨w.note rs.run, phase⟩)
        | .answerLost, some s' => some (s'.setRun k ⟨rs.run, phase⟩)
        | _, _ => some (s.setRun k ⟨rs.run, phase⟩)
      else none
    | none => none
  | .report k cause readOk =>
    match s.runs[k]? with
    | some rs =>
      if rs.phase = .handling then
        let w := failWith s.now rs.run cause readOk (s.items rs.run.id)
        some (s.setRun k ⟨rs.run, .failing cause w⟩)
      else none
    | none => none
  | .settle k result =>
    match s.runs[k]? with
    | some ⟨r, .failing cause w⟩ =>
      let done := s.exec r (w.set s.now r cause) [.failed r.id cause.kind w]
      match result.applied, done with
      | true, some s' => some (s'.setRun k ⟨r, .over⟩)
      | _, _ => some (s.setRun k ⟨r, .over⟩)
    | _ => none
  | .leave k =>
    match s.runs[k]? with
    | some rs => some (s.setRun k ⟨rs.run, .over⟩)
    | none => none
  | .requeue id verified =>
    match s.items id with
    | some it =>
      if it.requeueable verified then
        some { s.put id (it.requeued s.now) with log := s.log ++ [.requeued id verified] }
      else none
    | none => none
  | .resolve id reason =>
    match s.items id with
    | some it => if it.resolvable then some (s.put id (it.resolve s.now reason)) else none
    | none => none
  | .hold id =>
    match s.items id with
    | some it => if it.holdable then some (s.put id it.held) else none
    | none => none

/-! ## What a step does

`Moves` says once what a step can do to the table and to the history.  Of the
workers' side it keeps `claims`, the `Run`s as their claims built them, without what
a worker notes in memory afterwards; no guard and no statement reads the rest. -/

/-- The `Run` without what its worker notes in memory. -/
def Run.key (r : Run) : Run :=
  { r with completed := false, callResults := [], progress := none, operationID := "" }

variable {r : Run}

theorem Run.eq_of_key {r' : Run} (hkey : r'.key = r.key) : r'.id = r.id ∧ r'.epoch = r.epoch := by
  simp only [Run.key, Run.mk.injEq] at hkey
  exact ⟨hkey.1, hkey.2.2.1⟩

@[simp] theorem note_key (w : Write) (r : Run) : (w.note r).key = r.key := by cases w <;> rfl

variable {it : Item}

theorem guard_iff {current : Epoch} :
    guard current it r = true ↔ it.id = r.id ∧ it.state = .running ∧ it.epoch = r.epoch ∧
      it.claimEpoch = some r.claimEpoch ∧ r.claimEpoch = current := by
  simp [guard]

def State.claims (s : State) : List Run := s.runs.map fun rs => rs.run.key

variable {k : Nat} {rs : RunState}

theorem State.claims_of_run {s : State} (hrun : s.runs[k]? = some rs) :
    s.claims[k]? = some rs.run.key := by
  simp [claims, hrun]

theorem State.claims_setRun {s : State} {rs' : RunState} (hget : s.runs[k]? = some rs)
    (hkey : rs'.run.key = rs.run.key) : (s.setRun k rs').claims = s.claims := by
  obtain ⟨hk, rfl⟩ := List.getElem?_eq_some_iff.mp hget
  simp only [claims, setRun, map_set, hkey]
  refine ext_getElem (by simp) fun n h₁ h₂ => ?_
  by_cases hn : k = n
  · subst hn
    simp
  simp [getElem_set_ne hn]

theorem State.claims_of_setRun {s : State} {j : Nat} {rs' : RunState}
    (hr : (s.setRun k rs').claims[j]? = some r) (hget : s.runs[k]? = some rs)
    (hkey : rs'.run.key = rs.run.key) : s.claims[j]? = some r :=
  claims_setRun hget hkey ▸ hr

/-- What an operator's action makes of a row, with the history entry it leaves. -/
inductive Operated (id : String) (now : Nat) (it : Item) : Action → Item → List Entry → Prop
  | requeued (verified : Bool) (h : it.requeueable verified) :
      Operated id now it (.requeue id verified) (it.requeued now) [.requeued id verified]
  | resolved (reason : String) (h : it.resolvable) :
      Operated id now it (.resolve id reason) (it.resolve now reason) []
  | held (h : it.holdable) : Operated id now it (.hold id) it.held []

/-- The effect class a row carries is its job's. -/
def Item.Declared (cfg : Config) (it : Item) : Prop :=
  ∃ job, cfg.jobs it.job = some job ∧ it.effectClass = job.effect

/-- A new row is due or paused for its backlog, unclaimed and unmarked. -/
structure Item.Fresh (cfg : Config) (it : Item) : Prop where
  declared : it.Declared cfg
  epoch : it.epoch = 0
  unmarked : it.outcomeUnknown = false
  waiting : it.state = .pending ∨ it.state = .paused ∧ it.pauseReason = some .backlogExceeded

/-- No worker of `s'` is in `fail` that was not there, with the same cause and write,
in `s`. -/
def KeepsFailing (s s' : State) : Prop :=
  ∀ (k : Nat) (r : Run) (cause : Cause) (w : FailWrite),
    s'.runs[k]? = some ⟨r, .failing cause w⟩ →
      ∃ r' : Run, s.runs[k]? = some ⟨r', .failing cause w⟩ ∧ r'.key = r.key

inductive Moves (cfg : Config) (s : State) : Action → State → Prop
  -- nothing in the table
  | quiet {a : Action} {s' : State} (hitems : s'.items = s.items)
      (hlatest : s'.latest = s.latest) (hlog : s'.log = s.log) (hclaims : s'.claims = s.claims)
      (hfailing : KeepsFailing s s') : Moves cfg s a s'
  | added {a : Action} {it : Item} (hnone : s.items it.id = none) (hfresh : it.Fresh cfg) :
      Moves cfg s a (s.put it.id it)
  | claimed {holder id : String} {result : TxResult} {it : Item} {job : Job}
      (hitem : s.items id = some it) (hjob : cfg.jobs it.job = some job)
      (hclaim : it.claimable s.now) :
      Moves cfg s (.claim holder id result) (s.claim cfg holder job it result)
  | wrote {k : Nat} {rs : RunState} {w : Write} {result : TxResult} {it : Item} {r' : Run}
      (hrun : s.runs[k]? = some rs) (hallows : rs.phase.allows w)
      (hitem : s.items rs.run.id = some it) (hguard : guard s.epoch it rs.run)
      (hkey : r'.key = rs.run.key) :
      Moves cfg s (.write k w result)
        ({ s.put rs.run.id (w.set s.now cfg.lease rs.run it) with
            log := s.log ++ w.entries rs.run.id k }.setRun k ⟨r', w.next rs.phase⟩)
  | reported {k : Nat} {r : Run} {cause : Cause} {readOk : Bool}
      (hrun : s.runs[k]? = some ⟨r, .handling⟩) :
      Moves cfg s (.report k cause readOk)
        (s.setRun k ⟨r, .failing cause (failWith s.now r cause readOk (s.items r.id))⟩)
  | settled {k : Nat} {r : Run} {cause : Cause} {w : FailWrite} {result : TxResult} {it : Item}
      (hrun : s.runs[k]? = some ⟨r, .failing cause w⟩)
      (hitem : s.items r.id = some it) (hguard : guard s.epoch it r) :
      Moves cfg s (.settle k result)
        ({ s.put r.id (w.set s.now r cause it) with
            log := s.log ++ [Entry.failed r.id cause.kind w] }.setRun k ⟨r, .over⟩)
  | operated {a : Action} {s' : State} {id : String} {it it' : Item} {entries : List Entry}
      (hitem : s.items id = some it) (hop : Operated id s.now it a it' entries)
      (hs' : s' = { s.put id it' with log := s.log ++ entries }) : Moves cfg s a s'

def init (epoch : Epoch) : State :=
  { now := 0, epoch := epoch, items := fun _ => none, runs := [],
    latest := fun _ => none, log := [] }

variable {cfg : Config} {s s' : State} {a : Action} {entries : List Entry}

theorem State.exec_eq_some {set : Item → Item} :
    s.exec r set entries = some s' ↔ ∃ it, s.items r.id = some it ∧ guard s.epoch it r ∧
      s' = { s.put r.id (set it) with log := s.log ++ entries } := by
  unfold exec
  cases hitem : s.items r.id with
  | none => simp
  | some it =>
    by_cases hguard : guard s.epoch it r
    · simp only [hguard, if_true, Option.some.injEq, exists_eq_left', true_and]
      exact eq_comm
    simp [hguard]

theorem keepsFailing_refl (s : State) : KeepsFailing s s := fun _ r _ _ h => ⟨r, h, rfl⟩

theorem keepsFailing_setRun
    (hphase : rs.phase = .over ∨ ∃ r : Run, s.runs[k]? = some ⟨r, rs.phase⟩ ∧ r.key = rs.run.key) :
    KeepsFailing s (s.setRun k rs) := by
  intro j r cause w hget
  simp only [State.setRun, getElem?_set] at hget
  by_cases hj : k = j
  · subst hj
    rw [if_pos rfl] at hget
    split at hget
    · obtain rfl : rs = ⟨r, .failing cause w⟩ := by simpa using hget
      rcases hphase with hphase | hphase
      · simp at hphase
      exact hphase
    simp at hget
  rw [if_neg hj] at hget
  exact ⟨r, hget, rfl⟩

theorem moves_add (hfresh : it.Fresh cfg) : Moves cfg s a (s.add it) := by
  unfold State.add
  cases hitem : s.items it.id with
  | none => exact .added hitem hfresh
  | some _ => exact .quiet rfl rfl rfl rfl (keepsFailing_refl s)

/-- A lost or failed write only leaves the worker where it is. -/
theorem moves_lost {phase : Phase} (hrun : s.runs[k]? = some rs)
    (hphase : phase = .over ∨ phase = rs.phase) : Moves cfg s a (s.setRun k ⟨rs.run, phase⟩) := by
  refine .quiet rfl rfl rfl (State.claims_setRun hrun rfl) (keepsFailing_setRun ?_)
  rcases hphase with rfl | rfl
  · exact .inl rfl
  exact .inr ⟨rs.run, hrun, rfl⟩

theorem write_next (w : Write) (phase : Phase) : w.next phase = .over ∨ w.next phase = phase := by
  cases w <;> simp [Write.next]

theorem moves_write {w : Write} {result : TxResult}
    (hstep : step cfg s (.write k w result) = some s') :
    Moves cfg s (.write k w result) s' := by
  simp only [step] at hstep
  split at hstep
  next rs hrun =>
    split at hstep
    next hallows =>
      cases hdone : s.exec rs.run (w.set s.now cfg.lease rs.run) (w.entries rs.run.id k) with
      | none =>
        rw [hdone] at hstep
        obtain rfl : s.setRun k ⟨rs.run, w.next rs.phase⟩ = s' := by
          cases result <;> simpa using hstep
        exact moves_lost hrun (write_next w rs.phase)
      | some t =>
        rw [hdone] at hstep
        obtain ⟨it, hitem, hguard, rfl⟩ := State.exec_eq_some.mp hdone
        cases result with
        | committed =>
          cases hstep
          exact .wrote hrun hallows hitem hguard (note_key w rs.run)
        | answerLost =>
          cases hstep
          exact .wrote hrun hallows hitem hguard rfl
        | failed =>
          cases hstep
          exact moves_lost hrun (write_next w rs.phase)
    simp at hstep
  simp at hstep

theorem moves_settle {result : TxResult} (hstep : step cfg s (.settle k result) = some s') :
    Moves cfg s (.settle k result) s' := by
  simp only [step] at hstep
  split at hstep
  next r cause w hrun =>
    cases hdone : s.exec r (w.set s.now r cause) [.failed r.id cause.kind w] with
    | none =>
      rw [hdone] at hstep
      obtain rfl : s.setRun k ⟨r, .over⟩ = s' := by
        cases hres : result.applied <;> simpa [hres] using hstep
      exact moves_lost hrun (.inl rfl)
    | some t =>
      rw [hdone] at hstep
      obtain ⟨it, hitem, hguard, rfl⟩ := State.exec_eq_some.mp hdone
      cases hres : result.applied with
      | true =>
        obtain rfl := by simpa [hres] using hstep
        exact .settled hrun hitem hguard
      | false =>
        obtain rfl := by simpa [hres] using hstep
        exact moves_lost hrun (.inl rfl)
  simp at hstep

theorem step_moves (hstep : step cfg s a = some s') : Moves cfg s a s' := by
  cases a with simp only [step] at hstep
  | tick micros | setEpoch epoch =>
    obtain rfl := by simpa [step] using hstep
    exact .quiet rfl rfl rfl rfl (keepsFailing_refl s)
  | enqueue id job args runAt =>
    split at hstep
    next hjob _ =>
      split at hstep <;> cases hstep
      exact moves_add ⟨⟨_, hjob, rfl⟩, rfl, rfl, .inl rfl⟩
    simp at hstep
  | materialize job slot op runAt paused =>
    split at hstep
    next hjob =>
      split at hstep <;> cases hstep
      refine moves_add ⟨⟨_, hjob, rfl⟩, rfl, rfl, ?_⟩
      cases paused
      · exact .inl rfl
      exact .inr ⟨rfl, rfl⟩
    simp at hstep
  | ensureSingleton job op =>
    split at hstep
    next hjob =>
      split at hstep <;> cases hstep
      exact moves_add ⟨⟨_, hjob, rfl⟩, rfl, rfl, .inl rfl⟩
    simp at hstep
  | claim holder id result =>
    split at hstep
    next it hitem =>
      split at hstep
      next job hjob =>
        split at hstep <;> cases hstep
        rename_i hclaim
        exact .claimed hitem hjob hclaim.2
      simp at hstep
    simp at hstep
  | write k w result => exact moves_write hstep
  | report k cause readOk =>
    split at hstep
    next rs hrun =>
      obtain ⟨r, phase⟩ := rs
      split at hstep <;> cases hstep
      rename_i hphase
      obtain rfl : phase = .handling := hphase
      exact .reported hrun
    simp at hstep
  | settle k result => exact moves_settle hstep
  | leave k =>
    split at hstep <;> cases hstep
    rename_i rs hrun
    exact moves_lost hrun (.inl rfl)
  | requeue id verified =>
    split at hstep
    next it hitem =>
      split at hstep <;> cases hstep
      rename_i hok
      exact .operated hitem (.requeued verified hok) rfl
    simp at hstep
  | resolve id reason =>
    split at hstep
    next it hitem =>
      split at hstep <;> cases hstep
      rename_i hok
      exact .operated hitem (.resolved reason hok) (by simp [State.put])
    simp at hstep
  | hold id =>
    split at hstep
    next it hitem =>
      split at hstep <;> cases hstep
      rename_i hok
      exact .operated hitem (.held hok) (by simp [State.put])
    simp at hstep

/-! ## The table after a step -/

theorem State.claims_claim (holder : String) (job : Job) (it : Item) (result : TxResult) :
    (s.claim cfg holder job it result).claims =
      s.claims ++ ((Work.claim s.now cfg.lease s.epoch holder job it).2.map Run.key).toList := by
  simp only [State.claim, State.claims, map_append]
  cases (Work.claim s.now cfg.lease s.epoch holder job it).2 <;> rfl

theorem Operated.keeps {id : String} {now : Nat} {it' : Item}
    (hop : Operated id now it a it' entries) : it.Keeps it' := by
  cases hop <;> exact ⟨rfl, rfl, rfl, rfl⟩

theorem Operated.epoch {id : String} {now : Nat} {it' : Item}
    (hop : Operated id now it a it' entries) : it'.epoch = it.epoch := by
  cases hop <;> rfl

end BeSdk.Work

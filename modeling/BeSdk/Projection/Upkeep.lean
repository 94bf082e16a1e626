import BeSdk.Library.Runs
import BeSdk.Projection.Watermarked

/-!
# The upkeep of a watermark source

`Watermarked.Run` calls `Step` over and over, in any number of processes, while the bus delivers
events to `Handle` and operators confirm. `Step` reads the state without a lock and then does what
is due: nothing, a pull, or an alignment. One `Step` at a time runs in a process, so a process is
where its `Step` stands (`Pc`), and the transactions of everything else come in between.

Nothing is assumed of what answers a pull, a snapshot or a read: the answers are labels of the
actions. A process may fail at any point, by an error or because it dies.

`State.log` remembers what the stored state does not: the inputs of the alignment state table with
the state each was given to, the pulls that were sent and who answered them.
-/

namespace BeSdk.Projection

open Runs Function

/-! ## What is due -/

inductive Chore where
  | rest
  | align
  | pull
deriving DecidableEq, Repr

variable {J : Type}

section Due

/-- The watermark's age, if every partition has an echo. -/
def Db.age (db : Db J) : Option Int :=
  if db.wm.parts.any (·.echoMP.isNone) then none
  else (db.wm.parts.filterMap (·.echoMP)).min?.map fun mp => (db.now : Int) - mp

/-- The time since the last recorded pull. -/
def Db.last (db : Db J) : Option Int := (db.pulls.map (·.2)).max?.map fun mp => (db.now : Int) - mp

/-- The switch of `Step`, with what it leaves of the request for a pull soon: half the freshness is
what an age is compared with. -/
def due (cfg : Config J) (st : WmState) (age last : Option Int) (soon : Bool) : Chore × Bool :=
  if st.state = .blocked ∧ st.confirmed = false then
    (.rest, soon) -- a misconfigured address: no pull writes echoes into another deployment
  else if st.adopted.impl ≠ "" ∧ (st.refetch = true ∨ st.state = .aligning) then (.align, soon)
  else if soon = true ∨ st.adopted.impl = "" ∨
      st.state = .aligned ∧ age.all ((cfg.freshness : Int) ≤ 2 * ·) then (.pull, false)
  else if st.state ≠ .aligned ∧ last.all ((cfg.freshness : Int) ≤ 2 * ·) then (.pull, false)
  else (.rest, false)

end Due

/-! ## Processes -/

inductive Pc (J : Type) where
  | idle
  -- It has read the state, the watermark's age and the time since the last pull.
  | stepping (st : WmState) (age last : Option Int)
  -- A pull is due, its nonce not recorded yet.
  | pulling
  | recorded (nonce : String)
  -- A page is asked for, the first one or one of the source that answered it.
  | asking (nonce : String) (requested : List Nat) (first : Option Declaration)
  -- The partitions of a page that are still to be applied.
  | applying (nonce : String) (requested : List Nat) (first : Declaration)
      (rows : List (List (Received J))) (more : Bool)
  | aligning (st : WmState)
  -- The generation began.
  | begun (st : WmState) (run : Run J)
  -- The echo-only pull is sent.
  | pointing (st : WmState) (run : Run J) (nonce : String)
  -- P0 is known, not saved.
  | pointed (run : Run J) (nonce : String) (p0 : List Nat)
  | refetching (run : Run J) (nonce : String) (p0 : List Nat)

/-- Where a `Step` goes on that has read the state `st`. -/
def Chore.start {J : Type} (st : WmState) : Chore → Pc J
  | .rest => .idle
  | .align => .aligning st
  | .pull => .pulling

structure Process (J : Type) where
  pc : Pc J
  -- A pull was asked for, whatever the watermark's age.
  soon : Bool

/-- What the log has. -/
inductive Note where
  | turned (st : WmState) (ev : SourceEvent)
  | sent (nonce : String)
  | answered (nonce : String) (source : Declaration)
deriving DecidableEq

structure State (J : Type) where
  db : Db J
  procs : Nat → Process J
  log : List Note

inductive Action (J : Type) where
  | clock (now : Nat)
  | handle (e : Received J) (fault : Fault)
  | confirm
  | pullSoon (p : Nat)
  | read (p : Nat)
  | choose (p : Nat)
  | record (p : Nat) (nonce dbEpoch : String)
  -- A pull reads the positions it asks from and is sent.
  | positions (p : Nat)
  -- A pull is answered.
  | answer (p : Nat) (resp : PullResponse J)
  -- One partition of a page is applied.
  | applyRows (p : Nat) (faults : Nat → Fault)
  | turnPage (p : Nat)
  -- The first transaction of `alignTo`.
  | begin (p : Nat)
  | savePoint (p : Nat)
  -- A page of the snapshot is answered.
  | page (p : Nat) (page : Page J)
  | put (p : Nat)
  | select (p : Nat)
  -- A read by ID is answered.
  | reads (p : Nat) (results : List (ReadResult J)) (source : Identity)
  | done (p : Nat)
  | fail (p : Nat)

section System

def State.setPc (s : State J) (p : Nat) (pc : Pc J) : State J :=
  { s with procs := update s.procs p { s.procs p with pc := pc } }

def State.commit (s : State J) (result : Result J) : State J :=
  { s with db := result.1, log := s.log ++ result.2.map fun turn => .turned turn.1 turn.2 }

def State.note (s : State J) (n : Note) : State J := { s with log := s.log ++ [n] }

/-- The position past which a purged record's tombstone takes inputs: P0 of its partition. -/
def purgedAt (cfg : Config J) (p0 : List Nat) (id : String) : Option Nat := p0[cfg.partitionOf id]?

/-- The run goes on, or the `Step` returns its error. -/
def State.goOn (s : State J) (p : Nat) (nonce : String) (p0 : List Nat) (run : Option (Run J)) :
    State J :=
  s.setPc p ((run.map fun run => .refetching run nonce p0).getD .idle)

/-- A later page, and the echo-only pull of an alignment, have to be of the same source. -/
def State.answer (cfg : Config J) (s : State J) (p : Nat) (resp : PullResponse J) :
    Option (State J) :=
  let rows := (resp.partitions.map (·.events)).filter (· ≠ [])
  match (s.procs p).pc with
  | .asking nonce requested none =>
    let s := s.note (.answered nonce resp.source)
    match s.db.identify resp.source requested resp.partitions with
    | none => some (s.setPc p .idle)
    | some (result, use) =>
      some ((s.commit result).setPc p
        (if use then .applying nonce requested resp.source rows resp.more else .idle))
  | .asking nonce requested (some first) =>
    some (s.setPc p (if declared resp.source = declared first then
      .applying nonce requested first rows resp.more else .idle))
  | .pointing st run nonce =>
    let s := s.note (.answered nonce resp.source)
    some (s.setPc p (if decideEpoch st.adopted (declared resp.source) = .use then
      ((pointsOf cfg.partitions resp.partitions).map fun p0 => .pointed run nonce p0).getD .idle
      else .idle))
  | _ => none

variable [DecidableEq J] [EmptyCollection J] [Append J]

def step (cfg : Config J) (s : State J) : Action J → Option (State J)
  | .clock now => some { s with db := { s.db with now := now } }
  | .handle e fault => some (s.commit (s.db.handle cfg e fault))
  | .confirm => some (s.commit s.db.confirm)
  | .pullSoon p =>
    some { s with procs := update s.procs p { s.procs p with soon := true } }
  | .read p =>
    match (s.procs p).pc with
    | .idle => some (s.setPc p (.stepping s.db.wm s.db.age s.db.last))
    | _ => none
  | .choose p =>
    match (s.procs p).pc with
    | .stepping st age last =>
      let (chore, soon) := due cfg st age last (s.procs p).soon
      some { s with procs := update s.procs p { pc := chore.start st, soon := soon } }
    | _ => none
  | .record p nonce dbEpoch =>
    match (s.procs p).pc with
    | .pulling => some ({ s with db := s.db.record nonce dbEpoch }.setPc p (.recorded nonce))
    | .begun st run =>
      some (({ s with db := s.db.record nonce dbEpoch }.setPc p
        (.pointing st run nonce)).note (.sent nonce))
    | _ => none
  | .positions p =>
    match (s.procs p).pc with
    | .recorded nonce =>
      some ((s.setPc p (.asking nonce s.db.wm.requested none)).note (.sent nonce))
    | _ => none
  | .answer p resp => s.answer cfg p resp
  | .applyRows p faults =>
    match (s.procs p).pc with
    | .applying nonce requested first (rows :: rest) more =>
      let (result, ok) := s.db.applyPartition cfg (rows.mapIdx fun i e => (e, faults i))
      some ((s.commit result).setPc p
        (if ok then .applying nonce requested first rest more else .idle))
    | _ => none
  | .turnPage p =>
    match (s.procs p).pc with
    | .applying nonce requested first [] more =>
      some (s.setPc p (if more then .asking nonce requested (some first) else .idle))
    | _ => none
  | .begin p =>
    match (s.procs p).pc with
    | .aligning st =>
      some ({ s with db := (s.db.beginAlign cfg st).1 }.setPc p
        (.begun st (s.db.beginAlign cfg st).2))
    | _ => none
  | .savePoint p =>
    match (s.procs p).pc with
    | .pointed run nonce p0 =>
      if run.Current s.db.sourceRow then
        some ({ s with db := s.db.savePoint p0 }.setPc p
          (.refetching { run with phase := .paging "" } nonce p0))
      else some (s.setPc p .idle)
    | _ => none
  | .page p page =>
    match (s.procs p).pc with
    | .refetching run nonce p0 => some (s.goOn p nonce p0 (run.receivePage page))
    | _ => none
  | .put p =>
    match (s.procs p).pc with
    | .refetching run nonce p0 =>
      if run.Current s.db.sourceRow then
        some ({ s with db := { s.db with
          rows := run.putAll s.db.rows (run.pending (purgedAt cfg p0)) } }.goOn p nonce p0
            run.afterPut)
      else some (s.setPc p .idle)
    | _ => none
  | .select p =>
    match (s.procs p).pc with
    | .refetching run nonce p0 => some (s.goOn p nonce p0 (run.select s.db.rows))
    | _ => none
  | .reads p results source =>
    match (s.procs p).pc with
    | .refetching run nonce p0 => some (s.goOn p nonce p0 (run.receiveReads results source))
    | _ => none
  | .done p =>
    match (s.procs p).pc with
    | .refetching run nonce p0 =>
      if run.phase = .completing then
        if run.Current s.db.sourceRow then
          some ((s.commit (s.db.done nonce p0)).setPc p .idle)
        else some (s.setPc p .idle)
      else none
    | _ => none
  | .fail p => some (s.setPc p .idle)

/-- `Install`: the source aligning and nothing adopted. -/
def State.init (cfg : Config J) (now : Nat) : State J where
  db :=
    { now := now
      wm :=
        { state := .aligning, confirmed := false, rollback := false, stalledGen := none,
          blockedGen := none, prior := none, alignGen := 0, refetch := false
          adopted :=
            { deployment := cfg.deployment, impl := "", systemID := "", epoch := "",
              primary := false, purpose := .unspecified }
          parts := List.replicate cfg.partitions {} }
      rows := ∅
      pulls := []
      maxSeen := none
      dbEpoch := none
      failures := []
      quarantine := [] }
  procs := fun _ => { pc := .idle, soon := false }
  log := []

end System

/-! ## The parts of a `Step` -/

section Parts
variable [DecidableEq J] [EmptyCollection J] [Append J] (cfg : Config J) {s : State J}
  {p : Nat}

/-- A `Step` reads the state and goes on with what is due. -/
theorem run_look (hidle : (s.procs p).pc = .idle) :
    ∃ s', run (step cfg) s [.read p, .choose p] = some s' ∧ s'.db = s.db ∧ s'.log = s.log ∧
      s'.procs p = { pc := (due cfg s.db.wm s.db.age s.db.last (s.procs p).soon).1.start s.db.wm
                     soon := (due cfg s.db.wm s.db.age s.db.last (s.procs p).soon).2 } := by
  simp [run, step, hidle, State.setPc]

theorem run_ask (hpc : (s.procs p).pc = .pulling) (nonce dbEpoch : String) :
    ∃ s', run (step cfg) s [.record p nonce dbEpoch, .positions p] = some s' ∧
      s'.db = s.db.record nonce dbEpoch ∧ s'.log = s.log ++ [.sent nonce] ∧
      s'.procs p = { s.procs p with
        pc := .asking nonce (s.db.record nonce dbEpoch).wm.requested none } := by
  simp [run, step, hpc, State.setPc, State.note]

/-- An alignment begins and sends its echo-only pull. -/
theorem run_begin {st : WmState} (hpc : (s.procs p).pc = .aligning st) (nonce dbEpoch : String) :
    ∃ s', run (step cfg) s [.begin p, .record p nonce dbEpoch] = some s' ∧
      s'.db = (s.db.beginAlign cfg st).1.record nonce dbEpoch ∧ s'.log = s.log ++ [.sent nonce] ∧
      s'.procs p = { s.procs p with pc := .pointing st (s.db.beginAlign cfg st).2 nonce } := by
  simp [run, step, hpc, State.setPc, State.note]

end Parts
end BeSdk.Projection

import BeSdk.Db.Epoch
import BeSdk.Library.Runs
import Mathlib.Data.List.Sort

/-!
# The outbox

`be_outbox` with the transactions that work on it, at READ COMMITTED
(`events/producer.go`, `events/number.go`, `events/forwarder.go`).  Business
transactions insert rows and commit or roll back; any number of workers number the
rows of a partition; published rows are marked and, much later, deleted.

A row's `ord` is drawn when it is inserted, so here it is the row's index in `rows`,
which keeps the rows of every transaction: what a statement sees are the rows whose
transaction had committed when the statement began, and not those deleted since.

`numberIn` locks the partition's counter, reads the epoch, and only then takes the
snapshot it numbers from; `Session` is how far the transaction holding the lock has
come, with what it is about to write.  Nothing of that is in the table before the
transaction commits.

The event type is a parameter: numbering does not read it.
-/

namespace BeSdk.Events

open List Function

/-- `events.Point`: a place on one partition. -/
@[ext] structure Point where
  epoch : Epoch
  seq : Nat
deriving DecidableEq, Repr

namespace Point

/-- `Point.Less`: the epoch, then the sequence. -/
def less (p q : Point) : Bool := p.epoch < q.epoch || (p.epoch == q.epoch && p.seq < q.seq)

instance : LT Point := ⟨fun p q => p.less q = true⟩

instance : LE Point := ⟨fun p q => ¬ q < p⟩

instance (p q : Point) : Decidable (p < q) := inferInstanceAs (Decidable (p.less q = true))

instance (p q : Point) : Decidable (p ≤ q) := inferInstanceAs (Decidable (¬ q < p))

theorem lt_iff {p q : Point} : p < q ↔ p.epoch < q.epoch ∨ p.epoch = q.epoch ∧ p.seq < q.seq := by
  change p.less q = true ↔ _
  simp [less]

theorem le_iff {p q : Point} : p ≤ q ↔ p.epoch < q.epoch ∨ p.epoch = q.epoch ∧ p.seq ≤ q.seq := by
  change ¬ q < p ↔ _
  rw [lt_iff]
  rcases lt_trichotomy p.epoch q.epoch with h | h | h
  · simp [h, h.not_gt, h.ne']
  · simp [h]
  simp [h, h.not_gt, h.ne']

/-- `Less` is the strict part of a linear order. -/
instance : LinearOrder Point where
  le_refl p := by rw [le_iff]; exact .inr ⟨rfl, le_refl _⟩
  le_trans p q r h₁ h₂ := by
    rw [le_iff] at *
    rcases h₁ with h₁ | ⟨h₁, h₁'⟩ <;> rcases h₂ with h₂ | ⟨h₂, h₂'⟩
    · exact .inl (h₁.trans h₂)
    · exact .inl (h₂ ▸ h₁)
    · exact .inl (h₁ ▸ h₂)
    exact .inr ⟨h₁.trans h₂, h₁'.trans h₂'⟩
  lt_iff_le_not_ge p q := by
    change p < q ↔ ¬ q < p ∧ ¬ ¬ p < q
    rw [not_not, lt_iff, lt_iff]
    refine ⟨fun h => ⟨?_, h⟩, fun h => h.2⟩
    rcases h with h | ⟨h, h'⟩
    · simp [h.not_gt, h.ne']
    simp only [h, lt_irrefl, true_and, false_or]
    omega
  le_antisymm p q h₁ h₂ := by
    rw [le_iff] at h₁ h₂
    rcases h₁ with h₁ | ⟨h₁, h₁'⟩ <;> rcases h₂ with h₂ | ⟨h₂, h₂'⟩
    · exact absurd h₁ h₂.not_gt
    · exact absurd h₁ (by simp [h₂])
    · exact absurd h₂ (by simp [h₁])
    exact Point.ext h₁ (le_antisymm h₁' h₂')
  le_total p q := by
    rw [le_iff, le_iff]
    rcases lt_trichotomy p.epoch q.epoch with h | h | h
    · exact .inl (.inl h)
    · rcases le_total p.seq q.seq with h' | h'
      · exact .inl (.inr ⟨h, h'⟩)
      exact .inr (.inr ⟨h.symm, h'⟩)
    exact .inr (.inl h)
  toDecidableLE := inferInstance
  toDecidableEq := inferInstance
  toDecidableLT := inferInstance

end Point

structure StreamPart where
  stream : String
  n : Nat
deriving DecidableEq, Repr

/-- A row of `be_outbox`: its place once numbered, whether `published_at` is set and
whether it was deleted since.  `numberedBy` is history: the numbering transaction. -/
structure Row (E : Type*) where
  part : StreamPart
  event : E
  tx : Nat
  pos : Option Point := none
  numberedBy : Option Nat := none
  published : Bool := false
  purged : Bool := false
deriving DecidableEq, Repr

/-- A business transaction.  `committed at_` is history: the `ord` that the next row
inserted anywhere was going to draw at the commit. -/
inductive TxStatus
  | active
  | committed (at_ : Nat)
  | aborted
deriving DecidableEq, Repr

/-- A row of `be_outbox_partition`: the epoch numbered in last and its last sequence. -/
structure Counter where
  epoch : Option Epoch := none
  last : Nat := 0
deriving DecidableEq, Repr

/-- A row of `be_epoch_history`. -/
structure HistoryEntry where
  part : StreamPart
  old : Epoch
  forkSeq : Nat
  new : Epoch
deriving DecidableEq, Repr

/-- Where a `numberIn` that holds the counter's lock is. -/
inductive Stage
  -- it has read the counter
  | locked (counter : Counter)
  -- it has read the epoch; `fork` is the history entry to write, `last` what it counts from
  | started (fork : Option HistoryEntry) (epoch : Epoch) (last : Nat)
  -- it has numbered the rows of `picked`, in that order
  | assigned (fork : Option HistoryEntry) (epoch : Epoch) (last : Nat) (picked : List Nat)
deriving DecidableEq, Repr

structure Session where
  serial : Nat
  batch : Nat
  stage : Stage
deriving DecidableEq, Repr

structure State (E : Type*) where
  epoch : Epoch
  rows : List (Row E)
  txs : Nat → TxStatus
  counters : StreamPart → Counter
  history : List HistoryEntry
  sessions : StreamPart → Option Session
  serial : Nat

inductive Action (E : Type*)
  -- `be_current_db_epoch()` moves on
  | setEpoch (epoch : Epoch)
  | insert (tx : Nat) (part : StreamPart) (event : E)
  | commit (tx : Nat)
  | abort (tx : Nat)
  -- `numberIn`, up to the lock on the counter
  | lock (part : StreamPart) (batch : Nat)
  -- its read of the epoch, with the history entry of a new one
  | readEpoch (part : StreamPart)
  -- its numbering statement
  | assign (part : StreamPart)
  -- the counter written and the transaction committed
  | finish (part : StreamPart)
  | rollback (part : StreamPart)
  | markPublished (ords : List Nat)
  | purge (ords : List Nat)
deriving DecidableEq, Repr

variable {E : Type*}

/-- `SELECT ord ... WHERE ... ORDER BY ord`. -/
def ordsWhere (cond : Row E → Bool) (rows : List (Row E)) : List Nat :=
  (List.range rows.length).filter fun ord => (rows[ord]?).any cond

theorem mem_ordsWhere {cond : Row E → Bool} {rows : List (Row E)} {ord : Nat} :
    ord ∈ ordsWhere cond rows ↔ ∃ r, rows[ord]? = some r ∧ cond r = true := by
  rw [ordsWhere, mem_filter, mem_range, Option.any_eq_true]
  constructor
  · exact fun h => h.2
  rintro ⟨r, hr, hcond⟩
  exact ⟨(List.getElem?_eq_some_iff.mp hr).1, r, hr, hcond⟩

theorem ordsWhere_sorted (cond : Row E → Bool) (rows : List (Row E)) :
    (ordsWhere cond rows).Pairwise (· < ·) :=
  pairwise_lt_range.filter _

namespace State

variable (s : State E)

/-- The transaction has committed and the row was not deleted. -/
def visible (r : Row E) : Bool :=
  match s.txs r.tx with
  | .committed _ => !r.purged
  | _ => false

/-- `SELECT ord ... WHERE seq IS NULL ORDER BY ord LIMIT batch`. -/
def unnumbered (p : StreamPart) (batch : Nat) : List Nat :=
  (ordsWhere (fun r => r.part = p ∧ r.pos = none ∧ s.visible r) s.rows).take batch

end State

/-- The rows with those of `picked` numbered after `last`, in its order. -/
def assignRows (serial : Nat) (epoch : Epoch) (last : Nat) (picked : List Nat)
    (rows : List (Row E)) : List (Row E) :=
  rows.mapIdx fun ord r =>
    if ord ∈ picked then
      { r with pos := some ⟨epoch, last + picked.idxOf ord + 1⟩, numberedBy := some serial }
    else r

/-- What reading `now` off the database makes of the counter: the history entry when it
starts a new epoch after another one, and the sequence to count from. -/
def startEpoch (p : StreamPart) (c : Counter) (now : Epoch) : Option HistoryEntry × Nat :=
  if c.epoch = some now then (none, c.last)
  else (c.epoch.map fun old => ⟨p, old, c.last, now⟩, 0)

def step (s : State E) : Action E → Option (State E)
  | .setEpoch epoch => if s.epoch ≤ epoch then some { s with epoch := epoch } else none
  | .insert tx part event =>
    if s.txs tx = .active then
      some { s with rows := s.rows ++ [{ part := part, event := event, tx := tx }] }
    else none
  | .commit tx =>
    if s.txs tx = .active then
      some { s with txs := update s.txs tx (.committed s.rows.length) }
    else none
  | .abort tx =>
    if s.txs tx = .active then some { s with txs := update s.txs tx .aborted }
    else none
  | .lock p batch =>
    match s.sessions p with
    | some _ => none
    | none =>
      let session : Session := ⟨s.serial, batch, .locked (s.counters p)⟩
      some { s with
        sessions := update s.sessions p (some session), serial := s.serial + 1 }
  | .readEpoch p =>
    match s.sessions p with
    | some ⟨serial, batch, .locked c⟩ =>
      let start := startEpoch p c s.epoch
      let session : Session := ⟨serial, batch, .started start.1 s.epoch start.2⟩
      some { s with sessions := update s.sessions p (some session) }
    | _ => none
  | .assign p =>
    match s.sessions p with
    | some ⟨serial, batch, .started fork epoch last⟩ =>
      let session : Session := ⟨serial, batch, .assigned fork epoch last (s.unnumbered p batch)⟩
      some { s with sessions := update s.sessions p (some session) }
    | _ => none
  | .finish p =>
    match s.sessions p with
    | some ⟨serial, _, .assigned fork epoch last picked⟩ =>
      some { s with
        rows := assignRows serial epoch last picked s.rows
        counters := update s.counters p ⟨some epoch, last + picked.length⟩
        history := s.history ++ fork.toList
        sessions := update s.sessions p none }
    | _ => none
  | .rollback p =>
    match s.sessions p with
    | some _ => some { s with sessions := update s.sessions p none }
    | none => none
  | .markPublished ords =>
    -- the caller has read these rows' positions
    if ords.all fun ord => ((s.rows[ord]?).bind (·.pos)).isSome then
      some { s with
        rows := s.rows.mapIdx fun ord r => if ord ∈ ords then { r with published := true } else r }
    else none
  | .purge ords =>
    if ords.all fun ord => ((s.rows[ord]?).map (·.published)).getD false then
      some { s with
        rows := s.rows.mapIdx fun ord r => if ord ∈ ords then { r with purged := true } else r }
    else none

def init (E : Type*) (epoch : Epoch) : State E :=
  { epoch := epoch, rows := [], txs := fun _ => .active, counters := fun _ => {},
    history := [], sessions := fun _ => none, serial := 0 }

/-! ## What a step does -/

def State.setSession (s : State E) (p : StreamPart) (session : Option Session) : State E :=
  { s with sessions := update s.sessions p session }

def State.finish (s : State E) (p : StreamPart) (serial : Nat) (fork : Option HistoryEntry)
    (epoch : Epoch) (last : Nat) (picked : List Nat) : State E :=
  { s with
    rows := assignRows serial epoch last picked s.rows
    counters := update s.counters p ⟨some epoch, last + picked.length⟩
    history := s.history ++ fork.toList
    sessions := update s.sessions p none }

/-- `published_at` set, or the row deleted. -/
def State.flag (s : State E) (f : Nat → Row E → Row E) : State E :=
  { s with rows := s.rows.mapIdx f }

inductive Moves (s : State E) : Action E → State E → Prop
  | epochSet {epoch : Epoch} (hle : s.epoch ≤ epoch) :
      Moves s (.setEpoch epoch) { s with epoch := epoch }
  | inserted {tx : Nat} {p : StreamPart} {event : E} (hactive : s.txs tx = .active) :
      Moves s (.insert tx p event)
        { s with rows := s.rows ++ [{ part := p, event := event, tx := tx }] }
  | ended {a : Action E} {tx : Nat} {status : TxStatus} (hactive : s.txs tx = .active)
      (hstatus : a = .commit tx ∧ status = .committed s.rows.length ∨
        a = .abort tx ∧ status = .aborted) :
      Moves s a { s with txs := update s.txs tx status }
  | locked {p : StreamPart} {batch : Nat} (hnone : s.sessions p = none) :
      Moves s (.lock p batch)
        { s.setSession p (some ⟨s.serial, batch, .locked (s.counters p)⟩) with
          serial := s.serial + 1 }
  | epochRead {p : StreamPart} {serial batch : Nat} {c : Counter}
      (hsession : s.sessions p = some ⟨serial, batch, .locked c⟩) :
      Moves s (.readEpoch p) (s.setSession p (some ⟨serial, batch,
        .started (startEpoch p c s.epoch).1 s.epoch (startEpoch p c s.epoch).2⟩))
  | assigned {p : StreamPart} {serial batch : Nat} {fork : Option HistoryEntry} {epoch : Epoch}
      {last : Nat} (hsession : s.sessions p = some ⟨serial, batch, .started fork epoch last⟩) :
      Moves s (.assign p) (s.setSession p (some ⟨serial, batch,
        .assigned fork epoch last (s.unnumbered p batch)⟩))
  | finished {p : StreamPart} {serial batch : Nat} {fork : Option HistoryEntry} {epoch : Epoch}
      {last : Nat} {picked : List Nat}
      (hsession : s.sessions p = some ⟨serial, batch, .assigned fork epoch last picked⟩) :
      Moves s (.finish p) (s.finish p serial fork epoch last picked)
  | rolledBack {p : StreamPart} : Moves s (.rollback p) (s.setSession p none)
  | marked {ords : List Nat}
      (hall : ∀ o ∈ ords, ((s.rows[o]?).bind (·.pos)).isSome) :
      Moves s (.markPublished ords)
        (s.flag fun o r => if o ∈ ords then { r with published := true } else r)
  | purged {ords : List Nat}
      (hall : ∀ o ∈ ords, ((s.rows[o]?).map (·.published)).getD false = true) :
      Moves s (.purge ords) (s.flag fun o r => if o ∈ ords then { r with purged := true } else r)

theorem step_moves {s s' : State E} {a : Action E} (hstep : step s a = some s') : Moves s a s' := by
  cases a with simp only [step] at hstep
  | setEpoch epoch =>
    split at hstep <;> cases hstep
    rename_i hle
    exact .epochSet hle
  | insert tx part event =>
    split at hstep <;> cases hstep
    rename_i hactive
    exact .inserted hactive
  | commit tx =>
    split at hstep <;> cases hstep
    rename_i hactive
    exact .ended hactive (.inl ⟨rfl, rfl⟩)
  | abort tx =>
    split at hstep <;> cases hstep
    rename_i hactive
    exact .ended hactive (.inr ⟨rfl, rfl⟩)
  | lock p batch =>
    split at hstep <;> cases hstep
    rename_i hnone
    exact .locked hnone
  | readEpoch p =>
    split at hstep <;> cases hstep
    rename_i hsession
    exact .epochRead hsession
  | assign p =>
    split at hstep <;> cases hstep
    rename_i hsession
    exact .assigned hsession
  | finish p =>
    split at hstep <;> cases hstep
    rename_i hsession
    exact .finished hsession
  | rollback p =>
    split at hstep <;> cases hstep
    exact .rolledBack
  | markPublished ords =>
    split at hstep <;> cases hstep
    rename_i hall
    exact .marked (all_eq_true.mp hall)
  | purge ords =>
    split at hstep <;> cases hstep
    rename_i hall
    exact .purged (all_eq_true.mp hall)

end BeSdk.Events

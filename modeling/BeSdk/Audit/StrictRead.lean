import BeSdk.Library.Batch
import BeSdk.Library.Runs

/-!
# Strict reads

`audit/audit.go` and `audit/transfer.go`: a Read of a strict operation writes its row, numbers one
batch of the oldest rows without a number, reads its row back with its number and sends it alone.
Behind a backlog of a whole batch its row has no number then, and is not found.

A run has the Reads of any number of callers, with Number, Transfer and other writes between their
transactions, which all succeed; the sender's answers are in the actions.  A Read that is refused
over capacity is no step.  The columns that only the audit component reads are left out.
-/

namespace BeSdk.Audit.StrictRead

open Runs Function Batch List

/-- `Batch`. -/
def batchSize : Nat := 500

/-- Generation and timeline. -/
abbrev Epoch := Int × Int

inductive TransferState
  | pending | received | conflict
deriving DecidableEq

/-- A row of `be_audit_log`; its ID, a UUID, as a number. -/
structure LogRow where
  ord : Nat
  id : Nat
  digest : String
  record : Option String
  seq : Option (Epoch × Nat) := none
  state : TransferState := .pending

structure Wire where
  id : Nat
  epoch : Epoch
  seq : Nat
  digest : String
  record : Option String

structure Receipt where
  id : Nat
  status : String

/-- Where a strict Read is. -/
inductive Reading
  | idle
  | inserted (id : Nat)
  | numbered (id : Nat)
  | wired (id : Nat) (w : Wire)
  | answered (id : Nat) (receipts : List Receipt)
  -- without an error, or with wire's or receipt's own
  | returned | notFound | noReceipt

structure System where
  log : List LogRow
  -- `be_audit_counter`
  epoch : Option Epoch
  last : Nat
  reads : Nat → Reading := fun _ => .idle
  transfers : Nat → List Wire := fun _ => []

/-- The transactions of a Read, and the answer to its Send. -/
inductive ReadStep
  | insert (ord id : Nat) (digest record : String)
  | number (epoch : Epoch)
  | wire
  | send (receipts : List Receipt)
  | settle

inductive Action
  | write (row : LogRow)
  | number (epoch : Epoch)
  | transfer (f : Nat)
  | settle (f : Nat) (receipts : List Receipt)
  | read (p : Nat) (x : ReadStep)

/-- A numbered row as it travels. -/
def LogRow.wire (r : LogRow) : Option Wire := r.seq.map fun (epoch, seq) => { r with epoch, seq }

/-- settle's statement, on one row. -/
def LogRow.settle (r : LogRow) (x : Receipt) : LogRow :=
  if r.id = x.id ∧ r.state = .pending then
    { r with state := if x.status = "received" then .received else .conflict }
  else r

namespace System

variable (s : System)

def insert (row : LogRow) : Option System :=
  if s.log.any fun r => r.ord = row.ord ∨ r.id = row.id then none
  else some { s with log := s.log ++ [row] }

/-- The `ord`s Number picks. -/
def picked : List Nat := (batch LogRow.ord batchSize (s.log.filter (·.seq.isNone))).map LogRow.ord

def number (epoch : Epoch) : System :=
  let last := if s.epoch = some epoch then s.last else 0
  { s with
    log := s.log.map fun r =>
      let n := last + s.picked.idxOf r.ord + 1
      { r with seq := if r.ord ∈ s.picked then some (epoch, n) else r.seq }
    epoch := some epoch
    last := last + s.picked.length }

/-- The batch Transfer sends. -/
def pending : List Wire :=
  (batch LogRow.ord batchSize (s.log.filter fun r =>
    r.state = .pending ∧ r.seq.isSome ∧ r.record.isSome)).filterMap LogRow.wire

def wire (id : Nat) : Option Wire := s.log.findSome? fun r => if r.id = id then r.wire else none

def settle (receipts : List Receipt) : System :=
  { s with log := s.log.map fun r => receipts.foldl LogRow.settle r }

def goTo (p : Nat) (reading : Reading) : System := { s with reads := update s.reads p reading }

end System

/-- The end of receipt. -/
def judge (id : Nat) : List Receipt → Reading
  | [r] => if r.id = id ∧ r.status = "received" then .returned else .noReceipt
  | _ => .noReceipt

/-- One transaction, or an answer of the audit component. -/
def step (s : System) : Action → Option System
  | .write row => s.insert row
  | .number epoch => some (s.number epoch)
  | .transfer f => some { s with transfers := update s.transfers f s.pending }
  | .settle f receipts =>
    if (s.transfers f).isEmpty then none
    else some { s.settle receipts with transfers := update s.transfers f [] }
  | .read p x =>
    match s.reads p, x with
    | .idle, .insert ord id digest record =>
      (s.insert { ord, id, digest, record }).map (·.goTo p (.inserted id))
    | .inserted id, .number epoch => some ((s.number epoch).goTo p (.numbered id))
    | .numbered id, .wire => some (s.goTo p ((s.wire id).elim .notFound (.wired id)))
    | .wired id _, .send receipts => some (s.goTo p (.answered id receipts))
    | .answered id receipts, .settle => some ((s.settle receipts).goTo p (judge id receipts))
    | _, _ => none

/-- The audit component answers received for the record that a Read sends. -/
def System.answers (s : System) : Action → Bool
  | .read p (.send receipts) =>
    match s.reads p with
    | .wired _ w => receipts.map (fun r => (r.id, r.status)) = [(w.id, "received")]
    | _ => true
  | _ => true

/-- When a Read numbers, its row has a number, or is one of the first 500 without. -/
def System.inReach (s : System) : Action → Bool
  | .read p (.number _) =>
    match s.reads p with
    | .inserted id => s.log.all fun r => r.id = id → r.seq = none →
        (s.log.filter fun x => x.seq.isNone && x.ord ≤ r.ord).length ≤ batchSize
    | _ => true
  | _ => true

/-- The transactions and answers up to its return. -/
def Reading.left : Reading → Nat
  | .inserted _ => 4
  | .numbered _ => 3
  | .wired .. => 2
  | .answered .. => 1
  | _ => 0

variable {s t : System} {a : Action}

/-- Rows stay, and so do their numbers. -/
def Kept (log log' : List LogRow) : Prop :=
  ∀ r ∈ log, ∃ r' ∈ log', r'.id = r.id ∧ (r.seq.isSome → r'.seq.isSome)

theorem Kept.map {log : List LogRow} {f : LogRow → LogRow}
    (h : ∀ r, (f r).id = r.id ∧ (r.seq.isSome → (f r).seq.isSome)) : Kept log (log.map f) :=
  fun r hr => ⟨f r, mem_map_of_mem hr, h r⟩

theorem kept_insert {row : LogRow} (h : s.insert row = some t) : Kept s.log t.log := by
  obtain ⟨-, ⟨⟩⟩ := Option.ite_none_left_eq_some.1 h
  exact fun r hr => ⟨r, mem_append_left _ hr, rfl, id⟩

theorem kept_number (s : System) (epoch : Epoch) : Kept s.log (s.number epoch).log :=
  Kept.map fun r => ⟨rfl, by dsimp only; split <;> simp⟩

theorem kept_settle (s : System) (receipts : List Receipt) :
    Kept s.log (s.settle receipts).log := by
  refine Kept.map fun r => ?_
  induction receipts generalizing r with
  | nil => exact ⟨rfl, id⟩
  | cons x receipts ih =>
    have hone : (r.settle x).id = r.id ∧ (r.settle x).seq = r.seq := by
      unfold LogRow.settle
      split <;> exact ⟨rfl, rfl⟩
    rw [foldl_cons, ← hone.1, ← hone.2]
    exact ih _

/-- What holds where a Read is: its row is there, and then has its number. -/
def ReadOk (log : List LogRow) : Reading → Prop
  | .inserted id => ∃ r ∈ log, r.id = id
  | .numbered id => ∃ r ∈ log, r.id = id ∧ r.seq.isSome
  | .wired id w => w.id = id
  | .answered id receipts => judge id receipts = .returned
  | .notFound | .noReceipt => False
  | .idle | .returned => True

theorem ReadOk.kept {log log' : List LogRow} {reading : Reading} (h : ReadOk log reading)
    (hkept : Kept log log') : ReadOk log' reading := by
  cases reading with
  | inserted id =>
    obtain ⟨r, hr, hid⟩ := h
    obtain ⟨r', hr', hid', -⟩ := hkept r hr
    exact ⟨r', hr', hid'.trans hid⟩
  | numbered id =>
    obtain ⟨r, hr, hid, hseq⟩ := h
    obtain ⟨r', hr', hid', hseq'⟩ := hkept r hr
    exact ⟨r', hr', hid'.trans hid, hseq' hseq⟩
  | _ => exact h

/-- Number reaches a row with at most a batch of rows without a number up to it. -/
theorem numbered_of_inReach {r : LogRow} (hr : r ∈ s.log) (epoch : Epoch) (hreach : r.seq = none →
      (s.log.filter fun x => x.seq.isNone && x.ord ≤ r.ord).length ≤ batchSize) :
    ∃ r' ∈ (s.number epoch).log, r'.id = r.id ∧ r'.seq.isSome := by
  refine ⟨_, mem_map_of_mem hr, rfl, ?_⟩
  dsimp only
  split
  · rfl
  · next hpicked =>
    refine Option.isSome_iff_ne_none.2 fun hnone => hpicked ?_
    refine mem_map_of_mem (mem_batch_of_length_le (mem_filter.2 ⟨hr, by simp [hnone]⟩) ?_)
    simpa [filter_filter, Bool.and_comm] using hreach hnone

theorem wire_of_numbered {id : Nat} (h : ReadOk s.log (.numbered id)) :
    ∃ w, s.wire id = some w ∧ w.id = id := by
  obtain ⟨r, hr, hid, hseq⟩ := h
  cases hwire : s.wire id with
  | none =>
    have := findSome?_eq_none_iff.1 hwire r hr
    simp_all [LogRow.wire]
  | some w =>
    obtain ⟨x, -, hx⟩ := exists_of_findSome?_eq_some hwire
    obtain ⟨hid', hx⟩ := Option.ite_none_right_eq_some.1 hx
    obtain ⟨n, -, rfl⟩ := Option.map_eq_some_iff.1 hx
    exact ⟨_, rfl, hid'⟩

theorem readOk_goTo {log : List LogRow} (h : ∀ q, ReadOk s.log (s.reads q)) (hkept : Kept s.log log)
    {p : Nat} {reading : Reading} (hp : ReadOk log reading) (q : Nat) :
    ReadOk log (update s.reads p reading q) := by
  rcases eq_or_ne q p with rfl | hq
  · rwa [update_self]
  rw [update_of_ne hq]
  exact (h q).kept hkept

/-- **One step.** -/
theorem step_readOk (h : ∀ q, ReadOk s.log (s.reads q)) (hok : s.answers a ∧ s.inReach a)
    (hstep : step s a = some t) : ∀ q, ReadOk t.log (t.reads q) := by
  have hsame : Kept s.log s.log := fun r hr => ⟨r, hr, rfl, id⟩
  cases a with simp only [step] at hstep
  | write row =>
    have hkept := kept_insert hstep
    obtain ⟨-, ⟨⟩⟩ := Option.ite_none_left_eq_some.1 hstep
    exact fun q => (h q).kept hkept
  | number epoch =>
    cases hstep
    exact fun q => (h q).kept (kept_number s epoch)
  | transfer f =>
    cases hstep
    exact h
  | settle f receipts =>
    obtain ⟨-, ⟨⟩⟩ := Option.ite_none_left_eq_some.1 hstep
    exact fun q => (h q).kept (kept_settle s receipts)
  | read p x =>
    have hp := h p
    split at hstep
    · obtain ⟨s', hinsert, ⟨⟩⟩ := Option.map_eq_some_iff.1 hstep
      have hkept := kept_insert hinsert
      obtain ⟨-, ⟨⟩⟩ := Option.ite_none_left_eq_some.1 hinsert
      exact readOk_goTo h hkept ⟨_, mem_append_right _ (mem_singleton_self _), rfl⟩
    · next id epoch hread =>
      cases hstep
      rw [hread] at hp
      obtain ⟨r, hr, hid⟩ := hp
      have hreach := hok.2
      simp only [System.inReach, hread, all_eq_true, decide_eq_true_eq] at hreach
      have hown : ReadOk (s.number epoch).log (.numbered id) :=
        hid ▸ numbered_of_inReach hr epoch (hreach r hr hid)
      exact readOk_goTo h (kept_number s epoch) hown
    · next id hread =>
      cases hstep
      rw [hread] at hp
      obtain ⟨w, hwire, hid⟩ := wire_of_numbered hp
      rw [hwire]
      exact readOk_goTo h hsame hid
    · next id w receipts hread =>
      cases hstep
      rw [hread] at hp
      have hanswer := hok.1
      simp only [System.answers, hread, decide_eq_true_eq, map_eq_singleton_iff,
        Prod.mk.injEq] at hanswer
      obtain ⟨r, rfl, hid, hreceived⟩ := hanswer
      exact readOk_goTo h hsame (if_pos ⟨hid.trans hp, hreceived⟩)
    · next id receipts hread =>
      cases hstep
      rw [hread] at hp
      exact readOk_goTo h (kept_settle s receipts) (hp ▸ trivial)
    cases hstep

/-- A Read that has not returned can go on, and once it is numbered by a step that is in order. -/
theorem exists_step (s : System) (p : Nat) (h : 0 < (s.reads p).left) :
    ∃ x t, step s (.read p x) = some t ∧ (t.reads p).left < (s.reads p).left ∧
      s.answers (.read p x) ∧ ((s.reads p).left < 4 → s.inReach (.read p x)) := by
  cases hp : s.reads p with
  | inserted id =>
    exact ⟨.number (0, 0), _, by simp only [step, hp]; rfl, by simp [System.goTo, Reading.left],
      rfl, by simp [Reading.left]⟩
  | numbered id =>
    refine ⟨.wire, _, by simp only [step, hp]; rfl, ?_, rfl, fun _ => rfl⟩
    cases s.wire id <;> simp [System.goTo, Reading.left]
  | wired id w =>
    exact ⟨.send [⟨w.id, "received"⟩], _, by simp only [step, hp]; rfl,
      by simp [System.goTo, Reading.left], by simp [System.answers, hp], fun _ => rfl⟩
  | answered id receipts =>
    refine ⟨.settle, _, by simp only [step, hp]; rfl, ?_, rfl, fun _ => rfl⟩
    simp only [System.goTo, update_self, judge]
    split <;> [split; skip] <;> simp [Reading.left]
  | _ => simp [hp, Reading.left] at h

/-- **Strict reads.**  Whatever the log has and whatever runs between its transactions, a Read whose
row is in reach when it numbers has returned without an error or goes on to. -/
theorem strict_reads_return (log : List LogRow) (epoch : Option Epoch) (last : Nat)
    (acts : List Action) (s : System)
    (hmeets : Meets step (fun s a => s.answers a ∧ s.inReach a) { log, epoch, last } acts)
    (hrun : run step { log, epoch, last } acts = some s) (p : Nat) :
    s.reads p ≠ .notFound ∧ s.reads p ≠ .noReceipt ∧ (0 < (s.reads p).left →
      ∃ x t, step s (.read p x) = some t ∧ (t.reads p).left < (s.reads p).left ∧
        s.answers (.read p x) ∧ ((s.reads p).left < 4 → s.inReach (.read p x))) := by
  have hok : ReadOk s.log (s.reads p) := run_invariant (P := fun s => ∀ q, ReadOk s.log (s.reads q))
    (fun _ _ _ => step_readOk) (fun _ => show ReadOk _ .idle from trivial) hmeets hrun p
  refine ⟨fun hp => ?_, fun hp => ?_, exists_step s p⟩
  all_goals
    rw [hp] at hok
    exact hok

/-- Only rows without a number. -/
def backlog (n : Nat) : System where
  log := (List.range n).map fun k => { ord := k, id := k, digest := "", record := none }
  epoch := none
  last := 0

/-- A Read, to its return. -/
def readBy (p n : Nat) : List Action :=
  [.insert n n "" "", .number (1, 1), .wire, .send [⟨n, "received"⟩], .settle].map (.read p)

/-- A Read behind two rows. -/
theorem strict_read_behind_two :
    ∃ s, run step (backlog 2) (readBy 0 2) = some s ∧ s.reads 0 ≠ .notFound :=
  exists_of_run rfl fun hrun => (strict_reads_return _ _ _ _ _ (by decide) hrun 0).1

/-- Behind 500 rows a Read does not find its own. -/
theorem read_behind_a_batch_fails :
    ((run step (backlog 500) ((readBy 0 500).take 3)).map fun s =>
      s.reads 0 matches .notFound) = some true := by
  decide +kernel

end BeSdk.Audit.StrictRead

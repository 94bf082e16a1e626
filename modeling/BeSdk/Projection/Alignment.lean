import BeSdk.Library.Runs
import BeSdk.Projection.Align

/-!
# Alignments among themselves and with the stream

Three writers meet in the rows of a projection: the pages of a snapshot, the rounds of reads by ID,
and the inputs of the stream. This file puts the program of `Align.lean` into a system with any
number of runs, any number of inputs and a source that goes on changing, and says what the rows are
when a run completes.

The system. A run's transactions and the answers it gets are single steps, so anything may stand
between two of them. An input that is handled by a watermark source is one step, since its
transaction holds the lock on the source row that every writing transaction of a run needs too. An
input given to `Projection.Apply` itself is two: it reads the source row and the record's row, and
writes later; what holds in between is the lock on the record and, if there was a row, on that row.
The source has its own records for each instance and epoch, which only move to larger versions, and
it answers from them.

The invariant follows the mark of a row. A row that the run of the current generation has touched
(it carries its mark, or the run has put an answer for it) is *good*: it belongs to the run's
identity, it is at least as new as the run's last answer for its record, and it holds an answer of
the run or an input of the stream. When no row of another generation is left, every row is good.
-/

namespace BeSdk.Projection

open Runs Option Function

/-! ## The system -/

/-- An instance and an epoch of it: what a source's records belong to. -/
abbrev Site := String × String

def Identity.site (d : Identity) : Site := (d.impl, d.epoch)

/-- A run of `alignTo` with what is remembered of it: the source's records at P0 and the answers it
put, the last first. -/
structure Refetch (J : Type) where
  run : Run J
  p0 : Site → Facts J
  purgedAt : String → Option Nat
  answers : List (Answer J)

/-- A transaction of `Projection.Apply` between its reads and its write. -/
structure Applying (J : Type) where
  input : Input J
  src : SourceRow
  stored : Option (Stored J)

structure AlignState (J : Type) where
  src : SourceRow
  rows : Rows J
  sources : Site → Facts J
  runs : Nat → Option (Refetch J)
  -- The transaction of `Apply` that holds the lock on a record.
  applies : String → Option (Applying J)
  -- Every input of the stream that was stored.
  received : List (Input J)

inductive AlignAction (J : Type) where
  | begin (p : Nat) (want : Identity) (status : Status)
  -- P0 is known: the first page is asked for.
  | point (p : Nat) (purgedAt : String → Option Nat)
  | page (p : Nat) (source : Identity) (limit : Nat)
  | learn (p : Nat)
  -- The transaction that writes a page or the reads of a round.
  | put (p : Nat)
  | select (p : Nat)
  -- A batch read is answered for some of its IDs.
  | read (p : Nat) (source : Identity) (ids : List String)
  | complete (p : Nat) (status : Status)
  -- A run returns with an error, or its process dies.
  | fail (p : Nat)
  | handle (i : Input J)
  | applyRead (i : Input J)
  | applyWrite (id : String)
  | applyRollback (id : String)
  -- The alignment state table moved the source for another reason.
  | turn (status : Status)
  | change (site : Site) (id : String) (fact : Fact J)

section System
variable {J : Type} [DecidableEq J] [EmptyCollection J] [Append J]

/-- An input of the stream is taken: of the adopted instance and epoch once there is one, and a
record's change. -/
def SourceRow.Accepts (src : SourceRow) (i : Input J) : Prop :=
  i.kind ≠ .purged ∧ (src.impl ≠ "" → i.impl = src.impl ∧ i.epoch = src.epoch)

instance (src : SourceRow) (i : Input J) : Decidable (src.Accepts i) :=
  inferInstanceAs (Decidable (_ ∧ _))

/-- No transaction of `Apply` has read the row of a record that is to be written: the row would be
locked. -/
def AlignState.unlocked (s : AlignState J) (answers : List (Answer J)) : Bool :=
  answers.all fun a => (s.applies a.id).all fun t => t.stored.isNone

/-- The input is stored over what was read of the record's row. -/
def AlignState.store (s : AlignState J) (stored : Option (Stored J)) (i : Input J) : AlignState J :=
  match receive s.src.mark stored i with
  | none => s
  | some r => { s with rows := s.rows.insert i.recordID r, received := i :: s.received }

def AlignState.setRun (s : AlignState J) (p : Nat) (f : Option (Refetch J)) : AlignState J :=
  { s with runs := update s.runs p f }

/-- The run goes on, or is over where it returned an error. -/
def AlignState.proceed (s : AlignState J) (p : Nat) (f : Refetch J) (run : Option (Run J)) :
    AlignState J :=
  s.setRun p (run.map fun r => { f with run := r })

/-- The transaction that writes what a run has pending, if its generation is the current one. -/
def AlignState.putPending (s : AlignState J) (p : Nat) (f : Refetch J) : AlignState J :=
  let answers := f.run.pending f.purgedAt
  { s with rows := f.run.putAll s.rows answers }.setRun p
    (f.run.afterPut.map fun r => { f with run := r, answers := answers.reverse ++ f.answers })

/-- A source's record moves: to a larger version, or from deleted to purged. -/
def Fact.moves (old new : Fact J) : Bool :=
  old.version < new.version ∨
    old.version = new.version ∧ old.content = .deleted ∧ new.content = .purged

/-- One step of the projection, its runs and its source. -/
def AlignState.step (s : AlignState J) : AlignAction J → Option (AlignState J)
  | .begin p want status =>
    -- the callers hand in a whole identity or none
    if (s.runs p).isNone ∧ (want.impl = "" ↔ want.epoch = "") then
      some ({ s with src := s.src.begin want status }.setRun p
        (some ⟨Run.ofBegin s.src want, s.sources, fun _ => none, []⟩))
    else none
  | .point p purgedAt => do
    let f ← s.runs p
    if f.run.phase = .started then
      some (s.setRun p
        (some ⟨{ f.run with phase := .paging "" }, s.sources, purgedAt, f.answers⟩))
    else none
  | .page p source limit => do
    let f ← s.runs p
    match f.run.phase with
    | .paging cursor =>
      if 0 < limit ∧ source.impl ≠ "" then
        some (s.proceed p f
          (f.run.receivePage ((s.sources source.site).snapshot source cursor limit)))
      else none
    | _ => none
  | .learn p => do
    let f ← s.runs p
    match f.run.phase with
    | .learning _ =>
      if f.run.Current s.src then
        some ({ s with src := f.run.adopt s.src }.proceed p f f.run.learned)
      else some (s.setRun p none)
    | _ => none
  | .put p => do
    let f ← s.runs p
    match f.run.phase with
    | .putting _ _ | .answered _ _ =>
      if f.run.Current s.src then
        if s.unlocked (f.run.pending f.purgedAt) then some (s.putPending p f) else none
      else some (s.setRun p none)
    | _ => none
  | .select p => do
    let f ← s.runs p
    if f.run.phase = .selecting then some (s.proceed p f (f.run.select s.rows)) else none
  | .read p source ids => do
    let f ← s.runs p
    match f.run.phase with
    | .reading asked =>
      some (s.proceed p f (f.run.receiveReads
        ((asked.filter (· ∈ ids)).map (s.sources source.site).read) source))
    | _ => none
  | .complete p status => do
    let f ← s.runs p
    if f.run.phase = .completing then
      if f.run.Current s.src then
        some ({ s with src := { s.src with status := status } }.setRun p none)
      else some (s.setRun p none)
    else none
  | .fail p => some (s.setRun p none)
  | .handle i =>
    if (s.applies i.recordID).isNone ∧ s.src.impl ≠ "" ∧ s.src.Accepts i then
      some (s.store (s.rows.lookup i.recordID) i)
    else none
  | .applyRead i =>
    if (s.applies i.recordID).isNone ∧ s.src.Accepts i then
      some { s with
        applies := update s.applies i.recordID
          (some ⟨i, s.src, s.rows.lookup i.recordID⟩) }
    else none
  | .applyWrite id => do
    let t ← s.applies id
    some { s.store t.stored t.input with applies := update s.applies id none }
  | .applyRollback id => some { s with applies := update s.applies id none }
  | .turn status => some { s with src := { s.src with status := status } }
  | .change site id fact =>
    if ((s.sources site).lookup id).all (·.moves fact) then
      some { s with sources := update s.sources site ((s.sources site).insert id fact) }
    else none

/-- A projection that was never aligned, of a source with any records. -/
def AlignState.init (sources : Site → Facts J) : AlignState J where
  src := { impl := "", epoch := "", alignGen := 0, status := .aligning }
  rows := ∅
  sources := sources
  runs := fun _ => none
  applies := fun _ => none
  received := []

/-- What a step can be, by what it changes. -/
inductive AlignState.Moves (s : AlignState J) : AlignAction J → AlignState J → Prop where
  | begin {p : Nat} {want : Identity} {status : Status} (hwant : want.impl = "" ↔ want.epoch = "") :
      Moves s (.begin p want status) ({ s with src := s.src.begin want status }.setRun p
        (some ⟨Run.ofBegin s.src want, s.sources, fun _ => none, []⟩))
  | point {p : Nat} {purgedAt : String → Option Nat} {f : Refetch J} (hf : s.runs p = some f)
      (hphase : f.run.phase = .started) :
      Moves s (.point p purgedAt)
        (s.setRun p (some ⟨{ f.run with phase := .paging "" }, s.sources, purgedAt, f.answers⟩))
  | first {p limit : Nat} {source : Identity} {f : Refetch J} {cursor : String}
      (hf : s.runs p = some f) (hphase : f.run.phase = .paging cursor) (hlimit : 0 < limit)
      (hsource : source.impl ≠ "") (hlearn : f.run.learn = true) :
      Moves s (.page p source limit) (s.setRun p (some { f with
        run := { f.run with
          want := source
          learn := false
          phase := .learning ((s.sources source.site).snapshot source cursor limit) } }))
  | page {p limit : Nat} {source : Identity} {f : Refetch J} {cursor : String}
      (hf : s.runs p = some f) (hphase : f.run.phase = .paging cursor) (hlimit : 0 < limit)
      (hlearn : f.run.learn = false) (hsource : source.site = f.run.want.site) :
      Moves s (.page p source limit) (s.setRun p (some { f with
        run := { f.run with
          phase := .putting cursor ((s.sources source.site).snapshot source cursor limit) } }))
  | learn {p : Nat} {f : Refetch J} {page : Page J} (hf : s.runs p = some f)
      (hphase : f.run.phase = .learning page) (hcurrent : f.run.Current s.src) :
      Moves s (.learn p) ({ s with src := f.run.adopt s.src }.setRun p
        (some { f with run := { f.run with phase := .putting "" page } }))
  | put {p : Nat} {f : Refetch J} (hf : s.runs p = some f)
      (hphase : (∃ cursor page, f.run.phase = .putting cursor page) ∨
        ∃ ids results, f.run.phase = .answered ids results)
      (hcurrent : f.run.Current s.src) : Moves s (.put p) (s.putPending p f)
  | select {p : Nat} {f : Refetch J} {run : Run J} (hf : s.runs p = some f)
      (hphase : f.run.phase = .selecting) (hselect : f.run.select s.rows = some run) :
      Moves s (.select p) (s.setRun p (some { f with run := run }))
  | read {p : Nat} {source : Identity} {ids asked : List String} {f : Refetch J}
      (hf : s.runs p = some f) (hphase : f.run.phase = .reading asked) :
      Moves s (.read p source ids) (s.setRun p (some { f with
        run := { f.run with
          phase := .answered asked ((asked.filter (· ∈ ids)).map (s.sources source.site).read) } }))
  | complete {p : Nat} {status : Status} {f : Refetch J} (hf : s.runs p = some f)
      (hphase : f.run.phase = .completing) (hcurrent : f.run.Current s.src) :
      Moves s (.complete p status)
        ({ s with src := { s.src with status := status } }.setRun p none)
  -- The run is over, by an error or because a newer alignment started.
  | drop {a : AlignAction J} {p : Nat} : Moves s a (s.setRun p none)
  | handle {i : Input J} (haccepts : s.src.Accepts i) :
      Moves s (.handle i) (s.store (s.rows.lookup i.recordID) i)
  | applyRead {i : Input J} (haccepts : s.src.Accepts i) :
      Moves s (.applyRead i) { s with
        applies := update s.applies i.recordID
          (some ⟨i, s.src, s.rows.lookup i.recordID⟩) }
  | applyWrite {id : String} {t : Applying J} (ht : s.applies id = some t) :
      Moves s (.applyWrite id)
        { s.store t.stored t.input with applies := update s.applies id none }
  | applyRollback {id : String} :
      Moves s (.applyRollback id) { s with applies := update s.applies id none }
  | turn {status : Status} : Moves s (.turn status)
      { s with src := { s.src with status := status } }
  | change {site : Site} {id : String} {fact : Fact J}
      (hmoves : ∀ old, (s.sources site).lookup id = some old → old.moves fact = true) :
      Moves s (.change site id fact)
        { s with sources := update s.sources site ((s.sources site).insert id fact) }

omit [DecidableEq J] [EmptyCollection J] [Append J] in
theorem AlignState.proceed_none (s : AlignState J) (p : Nat) (f : Refetch J) :
    s.proceed p f none = s.setRun p none := rfl

omit [DecidableEq J] [EmptyCollection J] [Append J] in
theorem AlignState.proceed_some (s : AlignState J) (p : Nat) (f : Refetch J) (run : Run J) :
    s.proceed p f (some run) = s.setRun p (some { f with run := run }) := rfl

omit [DecidableEq J] [EmptyCollection J] [Append J] in
theorem Identity.site_of_accepts {d want : Identity} (haccepts : d.accepts want = true) :
    d.site = want.site := by
  obtain ⟨_, himpl, hepoch, _⟩ := of_decide_eq_true haccepts
  exact Prod.ext himpl hepoch

theorem AlignState.page_moves {s s' : AlignState J} {p limit : Nat} {source : Identity}
    (hstep : s.step (.page p source limit) = some s') : s.Moves (.page p source limit) s' := by
  simp only [AlignState.step, bind_eq_bind, bind_eq_some_iff] at hstep
  obtain ⟨f, hf, hstep⟩ := hstep
  split at hstep
  next cursor hphase =>
    obtain ⟨⟨hlimit, hsource⟩, rfl⟩ := ite_none_right_eq_some.mp hstep |>.imp_right Option.some.inj
    simp only [Run.receivePage, hphase]
    by_cases hlearn : f.run.learn = true
    · rw [if_pos hlearn]
      by_cases hprimary : ((s.sources source.site).snapshot source cursor limit).source.primary
      · rw [if_pos hprimary, AlignState.proceed_some]
        exact .first hf hphase hlimit hsource hlearn
      rw [if_neg hprimary, AlignState.proceed_none]
      exact .drop
    rw [if_neg hlearn]
    by_cases haccepts : ((s.sources source.site).snapshot source cursor
        limit).source.accepts f.run.want = true
    · rw [if_pos haccepts, AlignState.proceed_some]
      exact .page hf hphase hlimit (by simpa using hlearn) (Identity.site_of_accepts haccepts)
    rw [if_neg haccepts, AlignState.proceed_none]
    exact .drop
  cases hstep

theorem AlignState.step_moves {s s' : AlignState J} {a : AlignAction J}
    (hstep : s.step a = some s') : s.Moves a s' := by
  cases a with
  | begin p want status =>
    obtain ⟨⟨_, hwant⟩, ⟨⟩⟩ := ite_none_right_eq_some.mp hstep
    exact .begin hwant
  | point p purgedAt =>
    obtain ⟨f, hf, hstep⟩ := bind_eq_some_iff.1 hstep
    obtain ⟨hphase, ⟨⟩⟩ := ite_none_right_eq_some.mp hstep
    exact .point hf hphase
  | page p source limit => exact AlignState.page_moves hstep
  | learn p =>
    obtain ⟨f, hf, hstep⟩ := bind_eq_some_iff.1 hstep
    split at hstep
    next page hphase =>
      split at hstep
      next hcurrent =>
        cases hstep
        simp only [Run.learned, hphase, AlignState.proceed_some]
        exact .learn hf hphase hcurrent
      · cases hstep
        exact .drop
    cases hstep
  | put p =>
    obtain ⟨f, hf, hstep⟩ := bind_eq_some_iff.1 hstep
    have hput (hphase : (∃ cursor page, f.run.phase = .putting cursor page) ∨
        ∃ ids results, f.run.phase = .answered ids results)
        (hwrite : (if f.run.Current s.src then
          if s.unlocked (f.run.pending f.purgedAt) then some (s.putPending p f) else none
        else some (s.setRun p none)) = some s') : s.Moves (.put p) s' := by
      split at hwrite
      next hcurrent =>
        obtain ⟨_, ⟨⟩⟩ := ite_none_right_eq_some.mp hwrite
        exact .put hf hphase hcurrent
      · cases hwrite
        exact .drop
    split at hstep
    · next hphase => exact hput (.inl ⟨_, _, hphase⟩) hstep
    · next hphase => exact hput (.inr ⟨_, _, hphase⟩) hstep
    cases hstep
  | select p =>
    obtain ⟨f, hf, hstep⟩ := bind_eq_some_iff.1 hstep
    obtain ⟨hphase, ⟨⟩⟩ := ite_none_right_eq_some.mp hstep
    cases hselect : f.run.select s.rows with
    | none => exact .drop
    | some run => exact .select hf hphase hselect
  | read p source ids =>
    obtain ⟨f, hf, hstep⟩ := bind_eq_some_iff.1 hstep
    split at hstep <;> cases hstep
    rename_i asked hphase
    simp only [Run.receiveReads, hphase]
    split
    · exact .read hf hphase
    exact .drop
  | complete p status =>
    obtain ⟨f, hf, hstep⟩ := bind_eq_some_iff.1 hstep
    split at hstep
    next hphase =>
      split at hstep
      next hcurrent =>
        cases hstep
        exact .complete hf hphase hcurrent
      · cases hstep
        exact .drop
    cases hstep
  | fail p =>
    cases hstep
    exact .drop
  | handle i =>
    obtain ⟨⟨_, _, haccepts⟩, ⟨⟩⟩ := ite_none_right_eq_some.mp hstep
    exact .handle haccepts
  | applyRead i =>
    obtain ⟨⟨_, haccepts⟩, ⟨⟩⟩ := ite_none_right_eq_some.mp hstep
    exact .applyRead haccepts
  | applyWrite id =>
    obtain ⟨t, ht, ⟨⟩⟩ := bind_eq_some_iff.1 hstep
    exact .applyWrite ht
  | applyRollback id =>
    cases hstep
    exact .applyRollback
  | turn status =>
    cases hstep
    exact .turn
  | change site id fact =>
    obtain ⟨hall, ⟨⟩⟩ := ite_none_right_eq_some.mp hstep
    exact .change (all_eq_true _ _ |>.mp hall)

end System
end BeSdk.Projection

import BeSdk.Library.RowLocks
import BeSdk.Library.Runs
import Mathlib.Algebra.Group.Int.Defs

/-!
# Document numbers

`db/docno.go`: the numbers of a series come from one row of `be_doc_series`, which the transaction
that takes a number holds to its end.  NextNumber and NextGappedNumber insert the row or raise it
by one, RegisterImported raises it to the last imported number, and RaiseContinuous, by which a
recovery (`recovery/server.go`, AdvanceNumbers) raises the used maximum, reads the row and then
writes it.

A step is one statement.  An `INSERT … ON CONFLICT DO UPDATE` waits for whoever holds the row, also
for one that is inserting it.  RaiseContinuous reads with `FOR UPDATE`: it waits for a row that is
there and locks it, but where there is none it locks nothing, and one that another transaction is
inserting is not there.

A transaction keeps what became of the numbers it took (`Use`), and they join the log when it
commits.  A call that answers an error leaves it to its caller to roll back; a statement that fails
does not (`failed`).
-/

namespace BeSdk.Db

open Function RowLocks

structure Series where
  legalEntity : String
  code : String
  period : String
deriving DecidableEq, Repr

def Series.key (s : Series) : String := s.legalEntity ++ "/" ++ s.code ++ "/" ++ s.period

/-- A row of `be_doc_series`. -/
structure SeriesRow where
  lastNumber : Int
  gapless : Bool
deriving DecidableEq, Repr

/-- The largest `bigint`. -/
def maxNumber : Int := 2 ^ 63 - 1

/-- What became of numbers: given to a caller, passed over by an import, or passed to the void
function; a range is empty where its end is below its begin. -/
inductive Use where
  | issued (s : Series) (n : Int)
  | skipped (s : Series) (lo hi : Int)
  | voided (s : Series) (lo hi : Int)
deriving DecidableEq, Repr

inductive SeriesPhase where
  -- there is none
  | idle
  -- between two calls of its function
  | running
  -- RaiseContinuous has read the row
  | raising (s : Series) (upTo : Int) (seen : Option SeriesRow)
  -- AdvanceNumbers, with what is left of the request
  | advancing (todo : List (Series × Int))
  | advanceRaising (s : Series) (upTo : Int) (seen : Option SeriesRow) (todo : List (Series × Int))
  | voiding (s : Series) (lo hi : Int) (todo : List (Series × Int))
  -- a statement failed: only the rollback is left
  | failed
deriving DecidableEq, Repr

structure Numbers where
  rows : Table String SeriesRow
  phases : Nat → SeriesPhase
  -- what each transaction under way took
  uses : Nat → List Use
  -- what the committed ones took, the latest first
  log : List Use

inductive SeriesAction where
  | begin (w : Nat)
  -- AdvanceNumbers begins
  | advance (w : Nat) (request : List (Series × Int))
  -- NextNumber, and NextGappedNumber in a transaction of its own
  | next (w : Nat) (s : Series) (gapless : Bool)
  | registerImported (w : Nat) (s : Series) (gapless : Bool) (last : Int)
  | raiseRead (w : Nat) (s : Series) (upTo : Int)
  | raiseWrite (w : Nat)
  | advanceRead (w : Nat)
  | advanceWrite (w : Nat)
  -- the component voids the numbers, or fails to
  | void (w : Nat) (ok : Bool)
  | commit (w : Nat)
  | rollback (w : Nat)
deriving DecidableEq, Repr

namespace Numbers

variable (s : Numbers)

def goTo (w : Nat) (phase : SeriesPhase) : Numbers := { s with phases := update s.phases w phase }

def use (w : Nat) (u : Use) : Numbers := { s with uses := update s.uses w (u :: s.uses w) }

/-- The transaction writes the row, and what it took for it. -/
def write (w : Nat) (k : String) (row : SeriesRow) (u : Option Use) (phase : SeriesPhase) :
    Numbers :=
  { s with
    rows := s.rows.put w k (some row)
    phases := update s.phases w phase
    uses := update s.uses w (u.toList ++ s.uses w) }

def lock (w : Nat) (k : String) (phase : SeriesPhase) : Numbers :=
  { s with rows := s.rows.lock w k, phases := update s.phases w phase }

/-- The insert of next. -/
def next (w : Nat) (sr : Series) (gapless : Bool) : Numbers :=
  match s.rows.sees w sr.key with
  | none => s.write w sr.key ⟨1, gapless⟩ (some (.issued sr 1)) .running
  | some r =>
    if r.lastNumber = maxNumber then s.goTo w .failed
    else
      -- sameKind: a number of the other kind is not given
      s.write w sr.key { r with lastNumber := r.lastNumber + 1 }
        (if gapless = r.gapless then some (.issued sr (r.lastNumber + 1)) else none) .running

/-- The insert of RegisterImported. -/
def registerImported (w : Nat) (sr : Series) (gapless : Bool) (last : Int) : Numbers :=
  match s.rows.sees w sr.key with
  | none => s.write w sr.key ⟨last, gapless⟩ (some (.skipped sr 1 last)) .running
  | some r =>
    s.write w sr.key { r with lastNumber := max r.lastNumber last }
      (some (.skipped sr (r.lastNumber + 1) (max r.lastNumber last))) .running

/-- The select of RaiseContinuous: refused, done, or to be written next; a row that is there is
locked. -/
def raiseRead (w : Nat) (sr : Series) (upTo : Int) (refused done : SeriesPhase)
    (raise : Option SeriesRow → SeriesPhase) : Option Numbers :=
  match s.rows.sees w sr.key with
  | none => some (s.goTo w (if upTo ≤ 0 then done else raise none))
  | some r =>
    if s.rows.free w sr.key then
      some (s.lock w sr.key (if r.gapless = false then refused
        else if upTo ≤ r.lastNumber then done else raise (some r)))
    else none

/-- The insert of RaiseContinuous. -/
def raiseWrite (w : Nat) (sr : Series) (upTo : Int) (phase : SeriesPhase) : Numbers :=
  match s.rows.sees w sr.key with
  | none => s.write w sr.key ⟨upTo, true⟩ none phase
  | some r => s.write w sr.key { r with lastNumber := upTo } none phase

/-- The maximum that RaiseContinuous answers. -/
def before (seen : Option SeriesRow) : Int := seen.elim 0 SeriesRow.lastNumber

def commit (w : Nat) : Numbers where
  rows := s.rows.commit w
  phases := update s.phases w .idle
  uses := update s.uses w []
  log := s.uses w ++ s.log

def rollback (w : Nat) : Numbers where
  rows := s.rows.rollback w
  phases := update s.phases w .idle
  uses := update s.uses w []
  log := s.log

def start (rows : String → Option SeriesRow) : Numbers where
  rows := Table.atRest rows
  phases := fun _ => .idle
  uses := fun _ => []
  log := []

variable {s} {w w' : Nat} {k : String} {row : SeriesRow} {u : Option Use} {p : SeriesPhase}

@[simp] theorem goTo_phases_self : (s.goTo w p).phases w = p := update_self ..

@[simp] theorem write_phases_self : (s.write w k row u p).phases w = p := update_self ..

@[simp] theorem write_uses_self : (s.write w k row u p).uses w = u.toList ++ s.uses w :=
  update_self ..

@[simp] theorem lock_phases_self : (s.lock w k p).phases w = p := update_self ..

theorem commit_phases : (s.commit w).phases = update s.phases w .idle := rfl

theorem commit_uses : (s.commit w).uses = update s.uses w [] := rfl

theorem rollback_phases : (s.rollback w).phases = update s.phases w .idle := rfl

theorem rollback_uses : (s.rollback w).uses = update s.uses w [] := rfl

end Numbers

def seriesStep (s : Numbers) : SeriesAction → Option Numbers
  | .begin w =>
    match s.phases w with
    | .idle => some (s.goTo w .running)
    | _ => none
  | .advance w request =>
    match s.phases w with
    | .idle => some (s.goTo w (.advancing request))
    | _ => none
  | .next w sr gapless =>
    match s.phases w with
    | .running => if s.rows.free w sr.key then some (s.next w sr gapless) else none
    | _ => none
  | .registerImported w sr gapless last =>
    match s.phases w with
    | .running => if s.rows.free w sr.key then some (s.registerImported w sr gapless last) else none
    | _ => none
  | .raiseRead w sr upTo =>
    match s.phases w with
    | .running => s.raiseRead w sr upTo .running .running fun seen => .raising sr upTo seen
    | _ => none
  | .raiseWrite w =>
    match s.phases w with
    | .raising sr upTo _ =>
      if s.rows.free w sr.key then some (s.raiseWrite w sr upTo .running) else none
    | _ => none
  | .advanceRead w =>
    match s.phases w with
    | .advancing ((sr, upTo) :: todo) =>
      if upTo < 0 then some (s.goTo w .failed)
      else
        s.raiseRead w sr upTo .failed (.advancing todo) fun seen =>
          .advanceRaising sr upTo seen todo
    | _ => none
  | .advanceWrite w =>
    match s.phases w with
    | .advanceRaising sr upTo seen todo =>
      if s.rows.free w sr.key then
        some (s.raiseWrite w sr upTo (.voiding sr (Numbers.before seen + 1) upTo todo))
      else none
    | _ => none
  | .void w ok =>
    match s.phases w with
    | .voiding sr lo hi todo =>
      if ok then some ((s.use w (.voided sr lo hi)).goTo w (.advancing todo))
      else some (s.goTo w .failed)
    | _ => none
  | .commit w =>
    match s.phases w with
    | .running => some (s.commit w)
    | .advancing [] => some (s.commit w)
    | _ => none
  | .rollback w =>
    match s.phases w with
    | .idle => none
    | _ => some (s.rollback w)

/-- What a step can do, with what it was taken for. -/
inductive SeriesStepped (s : Numbers) : SeriesAction → Numbers → Prop
  | begin {w : Nat} (hphase : s.phases w = .idle) : SeriesStepped s (.begin w) (s.goTo w .running)
  | advance {w : Nat} {request : List (Series × Int)} (hphase : s.phases w = .idle) :
      SeriesStepped s (.advance w request) (s.goTo w (.advancing request))
  | next {w : Nat} {sr : Series} {gapless : Bool} (hphase : s.phases w = .running)
      (hfree : s.rows.free w sr.key = true) :
      SeriesStepped s (.next w sr gapless) (s.next w sr gapless)
  | registerImported {w : Nat} {sr : Series} {gapless : Bool} {last : Int}
      (hphase : s.phases w = .running) (hfree : s.rows.free w sr.key = true) :
      SeriesStepped s (.registerImported w sr gapless last) (s.registerImported w sr gapless last)
  | raiseRead {w : Nat} {sr : Series} {upTo : Int} {t : Numbers} (hphase : s.phases w = .running)
      (hread : s.raiseRead w sr upTo .running .running (.raising sr upTo) = some t) :
      SeriesStepped s (.raiseRead w sr upTo) t
  | raiseWrite {w : Nat} {sr : Series} {upTo : Int} {seen : Option SeriesRow}
      (hphase : s.phases w = .raising sr upTo seen) (hfree : s.rows.free w sr.key = true) :
      SeriesStepped s (.raiseWrite w) (s.raiseWrite w sr upTo .running)
  | negative {w : Nat} (hphase : ∃ todo, s.phases w = .advancing todo) :
      SeriesStepped s (.advanceRead w) (s.goTo w .failed)
  | advanceRead {w : Nat} {sr : Series} {upTo : Int} {todo : List (Series × Int)} {t : Numbers}
      (hphase : s.phases w = .advancing ((sr, upTo) :: todo))
      (hread : (s.raiseRead w sr upTo .failed (.advancing todo) fun seen =>
        .advanceRaising sr upTo seen todo) = some t) : SeriesStepped s (.advanceRead w) t
  | advanceWrite {w : Nat} {sr : Series} {upTo : Int} {seen : Option SeriesRow}
      {todo : List (Series × Int)} (hphase : s.phases w = .advanceRaising sr upTo seen todo)
      (hfree : s.rows.free w sr.key = true) :
      SeriesStepped s (.advanceWrite w)
        (s.raiseWrite w sr upTo (.voiding sr (Numbers.before seen + 1) upTo todo))
  | void {w : Nat} {sr : Series} {lo hi : Int} {todo : List (Series × Int)}
      (hphase : s.phases w = .voiding sr lo hi todo) :
      SeriesStepped s (.void w true) ((s.use w (.voided sr lo hi)).goTo w (.advancing todo))
  | voidFailed {w : Nat} (hphase : ∃ sr lo hi todo, s.phases w = .voiding sr lo hi todo) :
      SeriesStepped s (.void w false) (s.goTo w .failed)
  | commit {w : Nat} (hphase : s.phases w = .running ∨ s.phases w = .advancing []) :
      SeriesStepped s (.commit w) (s.commit w)
  | rollback {w : Nat} (hphase : s.phases w ≠ .idle) :
      SeriesStepped s (.rollback w) (s.rollback w)

theorem seriesStepped {s t : Numbers} {a : SeriesAction} (hstep : seriesStep s a = some t) :
    SeriesStepped s a t := by
  cases a with simp only [seriesStep] at hstep
  | begin w | advance w request =>
    split at hstep <;> cases hstep
    rename_i hphase
    constructor
    exact hphase
  | next w sr gapless | registerImported w sr gapless last =>
    split at hstep
    next hphase =>
      split at hstep <;> cases hstep
      rename_i hfree
      constructor
      · exact hphase
      exact hfree
    cases hstep
  | raiseRead w sr upTo =>
    split at hstep
    · next hphase => exact .raiseRead hphase hstep
    cases hstep
  | raiseWrite w =>
    split at hstep
    next hphase =>
      split at hstep <;> cases hstep
      rename_i hfree
      exact .raiseWrite hphase hfree
    cases hstep
  | advanceRead w =>
    split at hstep
    next hphase =>
      split at hstep
      · cases hstep
        exact .negative ⟨_, hphase⟩
      exact .advanceRead hphase hstep
    cases hstep
  | advanceWrite w =>
    split at hstep
    next hphase =>
      split at hstep <;> cases hstep
      rename_i hfree
      exact .advanceWrite hphase hfree
    cases hstep
  | void w ok =>
    split at hstep
    next hphase =>
      cases ok with
      | true =>
        cases hstep
        exact .void hphase
      | false =>
        cases hstep
        exact .voidFailed ⟨_, _, _, _, hphase⟩
    cases hstep
  | commit w =>
    split at hstep
    next hphase =>
      cases hstep
      exact .commit (.inl hphase)
    next hphase =>
      cases hstep
      exact .commit (.inr hphase)
    cases hstep
  | rollback w =>
    split at hstep <;> cases hstep
    rename_i hphase
    exact .rollback hphase

end BeSdk.Db

import Mathlib.Data.List.Sort
import Mathlib.Data.String.Basic
import BeSdk.Projection.Rows

/-!
# The program of an alignment

`alignTo` re-fetches everything: a first transaction begins a new generation, snapshot pages are
written one after the other, and the local rows that no page had are read by ID, round after round,
until none is left; the last transaction completes. Between two of its transactions anything may
happen to the projection, so the program is given here in the pieces a transaction or a call to the
source separates. `Run` is what a run remembers between them, `Phase` says where it stands, and each
piece is a function to the next phase, or to nothing where the run returns an error.

Every writing transaction first checks that the run's generation is still the current one
(`Run.Current`). What a piece writes is a function of the rows alone, and it is the same whether the
run belongs to a watermark source or to a plain projection: the hooks only differ in when the first
page is asked for, in the position a purged record's tombstone keeps, and in the completion.

The last part is the other side of the contract: the records of the source, the page it answers at a
cursor and its answer to a read by ID (`RecordSource` of package `events`).
-/

namespace BeSdk.Projection

open List

/-! ## Answers of a source -/

structure Record (J : Type) where
  id : String
  version : Int
  data : J
deriving DecidableEq, Repr

/-- Read results of a batch read by ID. -/
inductive ReadState (J : Type) where
  | existing (data : J)
  | gone
  | purged
deriving DecidableEq, Repr

structure ReadResult (J : Type) where
  id : String
  version : Int
  state : ReadState J
deriving DecidableEq, Repr

/-- One page of a snapshot: an empty `next` ends it. -/
structure Page (J : Type) where
  records : List (Record J)
  next : String
  source : Identity
deriving DecidableEq, Repr

/-- The check of one answer against what the run uses; an empty deployment is not compared. -/
def Identity.accepts (d want : Identity) : Bool :=
  d.primary ∧ d.impl = want.impl ∧ d.epoch = want.epoch ∧
    (want.deployment = "" ∨ d.deployment = want.deployment)

/-! ## Runs -/

inductive Phase (J : Type) where
  -- The generation began; the first page has not been asked for.
  | started
  -- The page after the cursor is asked for.
  | paging (cursor : String)
  -- The first page told a run that learns its source who answers.
  | learning (page : Page J)
  -- The page after the cursor is to be written.
  | putting (cursor : String) (page : Page J)
  -- The rows of other generations are to be listed.
  | selecting
  | reading (ids : List String)
  | answered (ids : List String) (results : List (ReadResult J))
  | completing
deriving DecidableEq, Repr

/-- What a run of `alignTo` remembers between its transactions. -/
structure Run (J : Type) where
  gen : Nat
  -- The identity it runs for, empty until the first page where it learns it.
  want : Identity
  learn : Bool
  phase : Phase J
  -- The rows the last round read by ID.
  last : List String
deriving DecidableEq, Repr

/-- An identity that is not given leaves the adopted one. -/
def SourceRow.begin (src : SourceRow) (want : Identity) (status : Status) : SourceRow where
  impl := if want.impl = "" then src.impl else want.impl
  epoch := if want.epoch = "" then src.epoch else want.epoch
  alignGen := src.alignGen + 1
  status := status

section Runs
variable {J : Type}

def Run.ofBegin (src : SourceRow) (want : Identity) : Run J where
  gen := src.alignGen + 1
  want := want
  learn := want.impl = ""
  phase := .started
  last := []

/-- The check of every writing transaction: no newer alignment started. -/
def Run.Current (r : Run J) (src : SourceRow) : Prop := src.alignGen = r.gen

instance (r : Run J) (src : SourceRow) : Decidable (r.Current src) :=
  inferInstanceAs (Decidable (_ = _))

/-- A snapshot page was answered. A run that learns its source takes the first page's, which must be
a primary's. -/
def Run.receivePage (r : Run J) (page : Page J) : Option (Run J) :=
  match r.phase with
  | .paging cursor =>
    if r.learn then
      if page.source.primary then
        some { r with want := page.source, learn := false, phase := .learning page }
      else none
    else if page.source.accepts r.want then some { r with phase := .putting cursor page }
    else none
  | _ => none

/-- The run that learned its source wrote it, under its generation. -/
def Run.learned (r : Run J) : Option (Run J) :=
  match r.phase with
  | .learning page => some { r with phase := .putting "" page }
  | _ => none

def Run.adopt (r : Run J) (src : SourceRow) : SourceRow :=
  { src with impl := r.want.impl, epoch := r.want.epoch }

def Record.answer (rec : Record J) : Answer J where
  id := rec.id
  state := .complete
  version := rec.version
  data := some rec.data
  minReadSeq := none

/-- How a read by ID is written: a deleted record as a tombstone of its version, a purged one as a
tombstone of version 0 that takes inputs past `purgedAt`. -/
def ReadResult.answer (res : ReadResult J) (purgedAt : String → Option Nat) : Answer J :=
  match res.state with
  | .existing data =>
    { id := res.id, state := .complete, version := res.version, data := some data,
      minReadSeq := none }
  | .gone =>
    { id := res.id, state := .tombstone, version := res.version, data := none, minReadSeq := none }
  | .purged =>
    { id := res.id, state := .tombstone, version := 0, data := none, minReadSeq := purgedAt res.id }

/-- One writing transaction: every answer put under the run's identity and generation. -/
def Run.putAll (r : Run J) (rows : Rows J) (answers : List (Answer J)) : Rows J :=
  answers.foldl (put r.gen r.want.impl r.want.epoch) rows

def Run.pending (r : Run J) (purgedAt : String → Option Nat) : List (Answer J) :=
  match r.phase with
  | .putting _ page => page.records.map Record.answer
  | .answered _ results => results.map (·.answer purgedAt)
  | _ => []

/-- The run after its page or its reads are written. An ID the read omitted ends it. -/
def Run.afterPut (r : Run J) : Option (Run J) :=
  match r.phase with
  | .putting _ page =>
    some { r with phase := if page.next = "" then .selecting else .paging page.next }
  | .answered ids results =>
    if ∀ id ∈ ids, id ∈ results.map ReadResult.id then some { r with phase := .selecting }
    else none
  | _ => none

/-- Local rows the snapshot did not touch, by ID, a batch at a time. -/
def selectRows (gen : Nat) (rows : Rows J) : List String :=
  ((rows.keys.filter fun id => (rows.lookup id).any (·.alignedGen ≠ some gen)).insertionSort
    (· ≤ ·)).take 500

/-- The listing of the rows of other generations. A round that finds the same rows again made no
progress and ends the run. -/
def Run.select (r : Run J) (rows : Rows J) : Option (Run J) :=
  match r.phase with
  | .selecting =>
    let ids := selectRows r.gen rows
    if ids = [] then some { r with phase := .completing }
    else if ids = r.last then none
    else some { r with phase := .reading ids, last := ids }
  | _ => none

def Run.receiveReads (r : Run J) (results : List (ReadResult J)) (source : Identity) :
    Option (Run J) :=
  match r.phase with
  | .reading ids =>
    if source.accepts r.want then some { r with phase := .answered ids results } else none
  | _ => none

end Runs

/-! ## The records of a source -/

/-- What a source has of a record: its content, a tombstone, or nothing but that it was purged. -/
inductive Content (J : Type) where
  | existing (data : J)
  | deleted
  | purged
deriving DecidableEq, Repr

structure Fact (J : Type) where
  version : Int
  content : Content J
deriving DecidableEq, Repr

abbrev Facts (J : Type) := AList fun _ : String => Fact J

section Source
variable {J : Type}

/-- The record as a snapshot returns it, if it exists. -/
def Facts.record (facts : Facts J) (id : String) : Option (Record J) :=
  match facts.lookup id with
  | some ⟨version, .existing data⟩ => some { id := id, version := version, data := data }
  | _ => none

/-- The IDs of the existing records past the cursor, ascending. -/
def Facts.idsAfter (facts : Facts J) (cursor : String) : List String :=
  (facts.keys.filter fun id => cursor < id ∧ (facts.record id).isSome).insertionSort (· ≤ ·)

/-- One page of the existing records, by ID. -/
def Facts.snapshot (facts : Facts J) (source : Identity) (cursor : String) (limit : Nat) :
    Page J where
  records := ((facts.idsAfter cursor).take limit).filterMap facts.record
  next :=
    if limit < (facts.idsAfter cursor).length then
      ((facts.idsAfter cursor).take limit).getLast?.getD ""
    else ""
  source := source

/-- The answer to a read by ID. A record the source knows nothing of was purged. -/
def Facts.read (facts : Facts J) (id : String) : ReadResult J :=
  match facts.lookup id with
  | some ⟨version, .existing data⟩ => { id := id, version := version, state := .existing data }
  | some ⟨version, .deleted⟩ => { id := id, version := version, state := .gone }
  | _ => { id := id, version := 0, state := .purged }

theorem Facts.mem_idsAfter {facts : Facts J} {cursor id : String} :
    id ∈ facts.idsAfter cursor ↔ cursor < id ∧ (facts.record id).isSome := by
  simp only [Facts.idsAfter, mem_insertionSort, mem_filter, decide_eq_true_eq,
    and_iff_right_iff_imp]
  rintro ⟨_, hsome⟩
  rw [← AList.mem_keys, ← AList.lookup_isSome]
  unfold Facts.record at hsome
  split at hsome
  · simp_all
  cases hsome

theorem empty_le (s : String) : "" ≤ s := by
  rw [String.le_iff_toList_le]
  exact not_lt.mp (not_lt_nil s.toList)

/-- A page is complete for the stretch of IDs it covers: every existing record past the cursor, up
to the next cursor where there is one, is on it. -/
theorem Facts.mem_snapshot {facts : Facts J} {source : Identity} {cursor id : String} {limit : Nat}
    {rec : Record J} (hlimit : 0 < limit) (hrecord : facts.record id = some rec)
    (hcursor : cursor < id) (hnext : (facts.snapshot source cursor limit).next = "" ∨
      id ≤ (facts.snapshot source cursor limit).next) :
    rec ∈ (facts.snapshot source cursor limit).records := by
  have hmem : id ∈ facts.idsAfter cursor := Facts.mem_idsAfter.mpr ⟨hcursor, by rw [hrecord]; rfl⟩
  refine mem_filterMap.mpr ⟨id, ?_, hrecord⟩
  by_contra hnot
  -- the record is past the page's limit, so the page's last ID is the next cursor, and below it
  have hdrop : id ∈ (facts.idsAfter cursor).drop limit := by
    rw [← take_append_drop limit (facts.idsAfter cursor)] at hmem
    exact (mem_append.mp hmem).resolve_left hnot
  have hlength : limit < (facts.idsAfter cursor).length := by
    by_contra hle
    rw [drop_of_length_le (not_lt.mp hle)] at hdrop
    cases hdrop
  obtain ⟨last, hlast⟩ : ∃ last, ((facts.idsAfter cursor).take limit).getLast? = some last := by
    refine Option.isSome_iff_exists.mp (getLast?_isSome.mpr ?_)
    exact ne_nil_of_length_pos (by rw [length_take]; omega)
  have hin : last ∈ (facts.idsAfter cursor).take limit := mem_of_getLast? hlast
  have hle : last ≤ id := by
    have hsorted := pairwise_insertionSort (· ≤ ·)
      (facts.keys.filter fun id => cursor < id ∧ (facts.record id).isSome)
    rw [← take_append_drop limit (List.insertionSort _ _)] at hsorted
    exact (pairwise_append.mp hsorted).2.2 last hin id hdrop
  have hvalue : (facts.snapshot source cursor limit).next = last := by
    simp [Facts.snapshot, hlength, hlast]
  rcases hnext with hempty | hle'
  · have hpast : cursor < last := (Facts.mem_idsAfter.mp (mem_of_mem_take hin)).1
    rw [← hvalue, hempty] at hpast
    exact not_lt.mpr (empty_le cursor) hpast
  rw [hvalue] at hle'
  exact hnot (le_antisymm hle' hle ▸ hin)

end Source
end BeSdk.Projection

import BeSdk.Library.Gather
import BeSdk.Projection.Rows
import Mathlib.Data.List.Dedup

/-!
# Judging records

Whether a decision may rely on a projected record: the judgement table `Judge` of `decide.go`, and
the two functions of `watermark.go` that fill it from the database in one statement each.
`Snapshot.judge` asks for one record.  `Snapshot.judgeMany` asks for many: its statement joins the
source with the watermark, the quarantined ones of all subjects and the rows of all records, and
what is one record's is picked out of that afterwards.

Both statements are written as the queries they are, over a snapshot of the four tables.  The two
ways of asking agree on every record (`judgeMany_agrees`), since the parts they share are read alike
and a record's own parts are found again: its row under its key, its subjects among those of all.
An age is a number of any kind, as a float is, made from microseconds.
-/

namespace BeSdk.Projection

open List Prod

/-! ## The judgement table -/

inductive Verdict where
  | usable
  | provablyAbsent
  | unprovable
  | queryTheSource
deriving DecidableEq, Repr

inductive ProjectionState where
  | serving
  | untrusted
  | aligning
deriving DecidableEq, Repr

structure JudgedRow where
  state : RowState
  -- Of the adopted implementation instance and epoch.
  adopted : Bool
deriving DecidableEq, Repr

structure JudgeInput (φ : Type) where
  lastApplied : Bool := false
  watermarkSource : Bool
  sourceState : Status
  projectionState : ProjectionState
  quarantined : Bool := false
  watermarkAge : Option φ := none
  freshness : φ
  row : Option JudgedRow := none

variable {φ : Type} [LT φ] [DecidableLT φ]

/-- Judge is the judgement table, first matching row wins. -/
def judgeTable (q : JudgeInput φ) : Verdict :=
  if q.watermarkSource = false then .queryTheSource
  else if q.sourceState ≠ .aligned ∧ ¬ (q.lastApplied = true ∧ q.sourceState = .stalled) ∨
      q.projectionState ≠ .serving ∨ q.quarantined = true then .unprovable
  else if q.lastApplied = false ∧ q.watermarkAge.all (fun age => q.freshness < age) then .unprovable
  else
    match q.row with
    | none => .provablyAbsent
    | some r =>
      if r.adopted = false then .unprovable
      else
        match r.state with
        | .complete => .usable
        | .tombstone => .provablyAbsent
        | .incomplete => .unprovable

theorem row_of_usable {q : JudgeInput φ} (h : judgeTable q = .usable) :
    ∃ r, q.row = some r ∧ r.state = .complete := by
  unfold judgeTable at h
  split_ifs at h
  split at h
  · cases h
  rename_i r hr
  split_ifs at h
  split at h
  · next hstate => exact ⟨r, hr, hstate⟩
  · cases h
  cases h

/-! ## The tables -/

/-- A row of `be_projection_source`. -/
structure SourceRecord where
  projection : String
  status : Status
  impl : Option String
  epoch : Option String
deriving DecidableEq, Repr

/-- A row of `be_watermark_partition`. -/
structure PartitionRecord where
  projection : String
  partition : Nat
  echoMP : Option Int
deriving DecidableEq, Repr

/-- A row of `be_watermark_quarantine`. -/
structure QuarantineRecord where
  projection : String
  subject : String
deriving DecidableEq, Repr

/-- A row of `be_projection`. -/
structure ProjectionRecord (J : Type) where
  projection : String
  recordID : String
  version : Int
  state : RowState
  impl : Option String
  epoch : Option String
  data : Option J
deriving DecidableEq, Repr

/-- What a statement reads: the clock and the tables, with their keys.  Times are microseconds. -/
structure Snapshot (J : Type) where
  now : Int
  sources : List SourceRecord
  partitions : List PartitionRecord
  quarantine : List QuarantineRecord
  rows : List (ProjectionRecord J)
  source_key : (sources.map SourceRecord.projection).Nodup
  row_key : (rows.map fun r => (r.projection, r.recordID)).Nodup

variable {J : Type}

namespace Snapshot

variable (s : Snapshot J) (name : String)

def marks : List (Option Int) :=
  (s.partitions.filter fun p => p.projection = name).map PartitionRecord.echoMP

/-- `CASE WHEN count(*) FILTER (WHERE echo_mp IS NULL) > 0 THEN NULL ELSE now() - min(echo_mp) END`;
of no rows `min` is null. -/
def age : Option Int :=
  if 0 < (s.marks name).countP Option.isNone then none
  else ((s.marks name).filterMap id).min?.map fun mp => s.now - mp

/-- The age as judgeMany's statement has it, with `OR count(*) = 0`. -/
def ageMany : Option Int :=
  if 0 < (s.marks name).countP Option.isNone ∨ (s.marks name).length = 0 then none
  else ((s.marks name).filterMap id).min?.map fun mp => s.now - mp

/-- `LEFT JOIN`: each of the first with those of the second it matches, or with none. -/
def leftJoin {α β : Type} (xs : List α) (ys : List β) (on : α → β → Bool) : List (α × Option β) :=
  xs.flatMap fun x =>
    match ys.filter (on x) with
    | [] => [(x, none)]
    | matching => matching.map fun y => (x, some y)

variable (seconds : Int → φ) (freshness : φ)

/-- Judge answers whether a decision may rely on the projected record; `none` where the source is
not installed. -/
def judge (recordID : String) (subjects : List String) : Option Verdict :=
  let found := leftJoin (s.sources.filter fun ps => ps.projection = name) s.rows fun ps r =>
    r.projection = ps.projection ∧ r.recordID = recordID
  found.head?.map fun (ps, r) => judgeTable
    { watermarkSource := true, sourceState := ps.status, projectionState := .serving,
      quarantined := s.quarantine.any fun q => q.projection = name ∧ q.subject ∈ subjects,
      watermarkAge := (s.age name).map seconds, freshness,
      row := r.map fun r => ⟨r.state, decide (r.impl.getD "" = ps.impl.getD "" ∧
        r.epoch.getD "" = ps.epoch.getD "")⟩ }

end Snapshot

/-- One record's judgement and, when it is usable, what the projection holds of it. -/
structure Judged (J : Type) where
  verdict : Verdict
  version : Int := 0
  data : Option J := none
deriving DecidableEq, Repr

structure Judgement (φ J : Type) where
  source : Verdict
  sourceState : Status
  age : Option φ
  records : List (String × Judged J)

namespace Snapshot

variable (s : Snapshot J) (name : String) (seconds : Int → φ)

/-- The subjects of the asked that are quarantined. -/
def quarantined (subjects : List String) : List String :=
  ((s.quarantine.filter fun q => q.projection = name ∧ q.subject ∈ subjects).map
    QuarantineRecord.subject).dedup

/-- The rows of judgeMany's statement. -/
def manyRows (ids : List String) : List (SourceRecord × Option (ProjectionRecord J)) :=
  leftJoin (s.sources.filter fun ps => ps.projection = name) s.rows fun _ r =>
    r.projection = name ∧ r.recordID ∈ ids

/-- The map of the rows found, filled one after the other. -/
def foundRow (found : List (SourceRecord × Option (ProjectionRecord J))) (id : String) :
    Option (ProjectionRecord J) :=
  found.foldl (fun m row =>
    match row.2 with
    | some r => if r.recordID = id then some r else m
    | none => m) none

/-- One of the asked, from what the statement has read. -/
def judgeOne (base : JudgeInput φ) (ps : SourceRecord) (quarantined : List String)
    (row : Option (ProjectionRecord J)) (subjects : List String) : Judged J :=
  let q := { base with
    quarantined := subjects.any fun subject => subject ∈ quarantined
    row := row.map fun r => ⟨r.state, decide (r.impl.getD "" = ps.impl.getD "" ∧
      r.epoch.getD "" = ps.epoch.getD "")⟩ }
  { verdict := judgeTable q
    version := (row.map ProjectionRecord.version).getD 0
    data := if judgeTable q = .usable then
        row.bind fun r => if r.state = .complete then r.data else none
      else none }

/-- What the judgements of the asked records have in common. -/
def manyBase (ps : SourceRecord) (within : φ) (lastApplied : Bool) : JudgeInput φ where
  lastApplied
  watermarkSource := true
  sourceState := ps.status
  projectionState := .serving
  watermarkAge := (s.ageMany name).map seconds
  freshness := within

/-- judgeMany judges many records at once: `asked` has each record with the subjects behind it. -/
def judgeMany (asked : List (String × List String)) (within : φ) (lastApplied : Bool) :
    Option (Judgement φ J) :=
  let found := s.manyRows name (asked.map fst)
  let quarantined := s.quarantined name (asked.flatMap snd)
  -- every row has the source, the last one counts
  found.getLast?.map fun (ps, _) =>
    let base := s.manyBase name seconds ps within lastApplied
    { source := if judgeTable base ≠ .unprovable then .usable else .unprovable
      sourceState := ps.status
      age := (s.ageMany name).map seconds
      records := asked.map fun (id, subjects) =>
        (id, judgeOne base ps quarantined (foundRow found id) subjects) }

/-! ## One record and many -/

variable {s name}

def rowOf (s : Snapshot J) (name recordID : String) : Option (ProjectionRecord J) :=
  s.rows.find? fun r => r.projection = name ∧ r.recordID = recordID

theorem filter_rows_eq (recordID : String) :
    (s.rows.filter fun r => r.projection = name ∧ r.recordID = recordID) =
      (s.rowOf name recordID).toList := by
  refine Gather.filter_eq_toList_find? s.row_key.of_map fun a ha b hb hpa hpb => ?_
  have hkey := of_decide_eq_true hpa
  have hkey' := of_decide_eq_true hpb
  exact inj_on_of_nodup_map s.row_key ha hb
    (Prod.ext (hkey.1.trans hkey'.1.symm) (hkey.2.trans hkey'.2.symm))

theorem filter_sources_cases (s : Snapshot J) (name : String) :
    (s.sources.filter fun ps => ps.projection = name) = [] ∨
      ∃ ps, ps.projection = name ∧ (s.sources.filter fun ps => ps.projection = name) = [ps] := by
  have hfilter := @Gather.filter_eq_toList_find? _ s.sources
    (fun ps => decide (ps.projection = name)) s.source_key.of_map fun a ha b hb hpa hpb =>
      inj_on_of_nodup_map s.source_key ha hb
        ((of_decide_eq_true hpa).trans (of_decide_eq_true hpb).symm)
  cases hfind : s.sources.find? fun ps => ps.projection = name with
  | none =>
    rw [hfind] at hfilter
    exact .inl hfilter
  | some ps =>
    rw [hfind] at hfilter
    have hname := find?_some hfind
    exact .inr ⟨ps, of_decide_eq_true hname, hfilter⟩

theorem ageMany_eq (s : Snapshot J) (name : String) : s.ageMany name = s.age name := by
  unfold ageMany age
  by_cases hnull : 0 < (s.marks name).countP Option.isNone
  · rw [if_pos (.inl hnull), if_pos hnull]
  rw [if_neg hnull]
  by_cases hempty : (s.marks name).length = 0
  · rw [if_pos (.inr hempty), length_eq_zero_iff.1 hempty]
    rfl
  rw [if_neg (by simp only [hnull, hempty, or_self, not_false_eq_true])]

theorem any_quarantined {all subjects : List String} (hsub : subjects ⊆ all) :
    (subjects.any fun subject => subject ∈ s.quarantined name all) =
      s.quarantine.any fun q => q.projection = name ∧ q.subject ∈ subjects := by
  have hmem : ∀ subject, subject ∈ s.quarantined name all ↔
      ∃ q ∈ s.quarantine, (q.projection = name ∧ q.subject ∈ all) ∧ q.subject = subject := by
    intro subject
    simp [quarantined, and_assoc]
  rw [Bool.eq_iff_iff, any_eq_true, any_eq_true]
  simp only [decide_eq_true_eq, hmem]
  constructor
  · rintro ⟨subject, hsubject, q, hq, ⟨hname, -⟩, rfl⟩
    exact ⟨q, hq, hname, hsubject⟩
  rintro ⟨q, hq, hname, hsubject⟩
  exact ⟨q.subject, hsubject, q, hq, ⟨hname, hsub hsubject⟩, rfl⟩

variable {ps : SourceRecord}

theorem foundRow_eq {ids : List String} {recordID : String} (hid : recordID ∈ ids) :
    foundRow (leftJoin [ps] s.rows fun _ r => r.projection = name ∧ r.recordID ∈ ids) recordID =
      s.rowOf name recordID := by
  have hfold : foundRow (leftJoin [ps] s.rows fun _ r => r.projection = name ∧ r.recordID ∈ ids)
      recordID = ((s.rows.filter fun r => r.projection = name ∧ r.recordID ∈ ids).filter
        fun r => r.recordID = recordID).getLast? := by
    rw [leftJoin, flatMap_singleton, foundRow]
    split
    next hnil =>
      rw [hnil]
      rfl
    rw [foldl_map]
    have hlast := Gather.foldl_keep_last (fun r : ProjectionRecord J => r.recordID = recordID)
      (s.rows.filter fun r => r.projection = name ∧ r.recordID ∈ ids) none
    simp only [decide_eq_true_eq, Option.or_none] at hlast
    exact hlast
  rw [hfold, filter_filter]
  have hfilter : (s.rows.filter fun r => (decide (r.recordID = recordID) &&
      decide (r.projection = name ∧ r.recordID ∈ ids))) =
        s.rows.filter fun r => r.projection = name ∧ r.recordID = recordID := by
    refine filter_congr fun r _ => ?_
    rw [Bool.eq_iff_iff]
    simp only [Bool.and_eq_true, decide_eq_true_eq]
    constructor
    · rintro ⟨hrecord, hname, -⟩
      exact ⟨hname, hrecord⟩
    rintro ⟨hname, rfl⟩
    exact ⟨rfl, hname, hid⟩
  rw [hfilter, filter_rows_eq]
  cases s.rowOf name recordID <;> rfl

theorem judge_eq (hps : ps.projection = name)
    (hsource : (s.sources.filter fun ps => ps.projection = name) = [ps]) (freshness : φ)
    (recordID : String) (subjects : List String) :
    s.judge name seconds freshness recordID subjects = some (judgeTable
      { watermarkSource := true, sourceState := ps.status, projectionState := .serving,
        quarantined := s.quarantine.any fun q => q.projection = name ∧ q.subject ∈ subjects,
        watermarkAge := (s.age name).map seconds, freshness,
        row := (s.rowOf name recordID).map fun r => ⟨r.state,
          decide (r.impl.getD "" = ps.impl.getD "" ∧ r.epoch.getD "" = ps.epoch.getD "")⟩ }) := by
  have hjoin : (leftJoin [ps] s.rows fun ps r =>
      r.projection = ps.projection ∧ r.recordID = recordID).head? =
        some (ps, s.rowOf name recordID) := by
    rw [leftJoin, flatMap_singleton, hps, filter_rows_eq]
    cases s.rowOf name recordID <;> rfl
  rw [judge, hsource]
  simp only [hjoin, Option.map_some]

theorem judgeMany_lookup (hsource : (s.sources.filter fun ps => ps.projection = name) = [ps])
    (within : φ) (lastApplied : Bool) {asked : List (String × List String)}
    (hkeys : (asked.map fst).Nodup) {recordID : String} {subjects : List String}
    (hasked : (recordID, subjects) ∈ asked) :
    ∃ j, s.judgeMany name seconds asked within lastApplied = some j ∧
      j.records.lookup recordID = some (judgeOne (s.manyBase name seconds ps within lastApplied) ps
        (s.quarantined name (asked.flatMap snd)) (s.rowOf name recordID) subjects) := by
  have hlast : ∃ row, (s.manyRows name (asked.map fst)).getLast? = some (ps, row) := by
    rw [manyRows, hsource, leftJoin, flatMap_singleton]
    split
    · exact ⟨none, rfl⟩
    rename_i hne
    rw [getLast?_map]
    cases hlast : (s.rows.filter _).getLast? with
    | none => exact absurd (getLast?_eq_none_iff.1 hlast) hne
    | some r => exact ⟨some r, rfl⟩
  obtain ⟨row, hrow⟩ := hlast
  have hid : recordID ∈ asked.map fst := mem_map.2 ⟨_, hasked, rfl⟩
  have hfound : foundRow (s.manyRows name (asked.map fst)) recordID =
      s.rowOf name recordID := by
    rw [manyRows, hsource, foundRow_eq hid]
  rw [judgeMany, hrow, Option.map_some, ← hfound]
  refine ⟨_, rfl, (Gather.lookup_eq_some_iff_mem ?_).2 (mem_map.2 ⟨_, hasked, rfl⟩)⟩
  simpa [Function.comp_def] using hkeys

theorem judgeOne_data (base : JudgeInput φ) (ps : SourceRecord) (quarantined : List String)
    (row : Option (ProjectionRecord J)) (subjects : List String) :
    ((judgeOne base ps quarantined row subjects).verdict = .usable →
      ∃ r, row = some r ∧ (judgeOne base ps quarantined row subjects).version = r.version ∧
        (judgeOne base ps quarantined row subjects).data = r.data) ∧
    ((judgeOne base ps quarantined row subjects).verdict ≠ .usable →
      (judgeOne base ps quarantined row subjects).data = none) := by
  constructor
  · intro husable
    obtain ⟨judged, hjudged, hstate⟩ := row_of_usable husable
    obtain ⟨r, rfl, rfl⟩ := Option.map_eq_some_iff.1 hjudged
    refine ⟨r, rfl, rfl, (if_pos husable).trans ?_⟩
    exact if_pos hstate
  exact fun hnot => if_neg hnot

/-- The verdict of each asked record is the one it has when it is asked for alone, and its data are
given exactly when it is usable. -/
theorem judgeMany_agrees (s : Snapshot J) (name : String) (seconds : Int → φ) (freshness : φ)
    (asked : List (String × List String)) (hkeys : (asked.map fst).Nodup) (recordID : String)
    (subjects : List String) (hasked : (recordID, subjects) ∈ asked) :
    (s.judgeMany name seconds asked freshness false = none ∧
      s.judge name seconds freshness recordID subjects = none) ∨
    ∃ j judged, s.judgeMany name seconds asked freshness false = some j ∧
      j.records.lookup recordID = some judged ∧
      s.judge name seconds freshness recordID subjects = some judged.verdict ∧
      (judged.verdict = .usable →
        ∃ r, s.rowOf name recordID = some r ∧ judged.version = r.version ∧ judged.data = r.data) ∧
      (judged.verdict ≠ .usable → judged.data = none) := by
  rcases s.filter_sources_cases name with hnone | ⟨ps, hps, hsource⟩
  · refine .inl ⟨?_, ?_⟩
    · rw [judgeMany, manyRows, hnone]
      rfl
    rw [judge, hnone]
    rfl
  obtain ⟨j, hj, hlookup⟩ := judgeMany_lookup seconds hsource freshness false hkeys hasked
  refine .inr ⟨j, _, hj, hlookup, ?_, judgeOne_data ..⟩
  have hsubjects : subjects ⊆ asked.flatMap snd :=
    fun subject hsubject => mem_flatMap.2 ⟨_, hasked, hsubject⟩
  rw [judge_eq seconds hps hsource, judgeOne, any_quarantined hsubjects, manyBase, ageMany_eq]

end Snapshot

/-- Accounts with a watermark of 10 microseconds, one of them projected, one subject under
quarantine. -/
def accounts : Snapshot Nat where
  now := 100
  sources := [⟨"accounts", .aligned, some "app", some "1.1"⟩, ⟨"orders", .stalled, none, none⟩]
  partitions := [⟨"accounts", 0, some 90⟩, ⟨"accounts", 1, some 95⟩, ⟨"orders", 0, none⟩]
  quarantine := [⟨"accounts", "s2"⟩]
  rows := [⟨"accounts", "a", 3, .complete, some "app", some "1.1", some 7⟩]
  source_key := by decide
  row_key := by decide

theorem accounts_judged : accounts.judge "accounts" id 20 "a" ["s1"] = some .usable ∧
    ∃ j judged, accounts.judgeMany "accounts" id [("a", ["s1"]), ("b", ["s2"])] 20 false = some j ∧
      j.records.lookup "a" = some judged ∧
      accounts.judge "accounts" id 20 "a" ["s1"] = some judged.verdict ∧
      (judged.verdict = .usable → ∃ r, accounts.rowOf "accounts" "a" = some r ∧
        judged.version = r.version ∧ judged.data = r.data) ∧
      (judged.verdict ≠ .usable → judged.data = none) := by
  refine ⟨by decide, (Snapshot.judgeMany_agrees accounts "accounts" id 20
    [("a", ["s1"]), ("b", ["s2"])] (by decide) "a" ["s1"] (by simp)).resolve_left ?_⟩
  rintro ⟨-, hnone⟩
  exact absurd hnone (by decide)

end BeSdk.Projection

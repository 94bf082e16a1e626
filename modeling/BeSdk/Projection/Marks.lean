import BeSdk.Projection.Judge
import BeSdk.Projection.Upkeep

/-!
# Marks and the watermark

A consumer's pull leaves an echo at the end of each partition; when the consumer applies it, the
partition's mark is the `m_p` of the pull, if that is still recorded.  `decide.go` has what the mark
is meant to be, the largest of the recorded echoes up to the contiguous position (`lastEcho`), and
the watermark over the partitions (`watermark`).  `watermark.go` has instead one column for each
partition, which every recorded echo overwrites, and statements that take the minimum of the column.

A run applies rows at the contiguous position of their partitions, in transactions of one or more,
while pulls are recorded and dropped; beside what is stored it keeps the echoes that were applied
(`Marking`).  The column is the mark of the last recorded echo (`MarkOk`), whichever came before it,
so that it is what it is meant to be exactly when the last is the largest
(`stored_mark_is_last_echo_iff`).  From the column on nothing is lost: the minimum of the marks is
the watermark (`watermark_eq`).
-/

namespace BeSdk.Projection

open Runs Function Option

/-- An echo the consumer applied in a partition: its position and, when it is one of the consumer's
pulls whose record is still kept, that pull's `m_p`. -/
structure Echo where
  seq : Nat
  mp : Nat
  recorded : Bool
deriving DecidableEq, Repr

/-- LastEcho is a partition's mark: the largest `m_p` of a recorded echo within the contiguous
range. -/
def lastEcho (contiguous : Nat) (echoes : List Echo) : Option Nat :=
  echoes.foldl (fun mark e =>
    if e.recorded = true ∧ e.seq ≤ contiguous ∧ mark.all (· < e.mp) then some e.mp else mark) none

/-- The loop of Watermark, with the minimum so far. -/
def watermarkFrom (w : Option Nat) : List (Option Nat) → Option Nat
  | [] => w
  | none :: _ => none
  | some mark :: marks => watermarkFrom (some (if w.all (mark < ·) then mark else w.getD 0)) marks

/-- Watermark is the minimum of the partitions' marks; none when a partition has none. -/
def watermark (marks : List (Option Nat)) : Option Nat := watermarkFrom none marks

def recordedMarks (echoes : List Echo) : List Nat := (echoes.filter Echo.recorded).map Echo.mp

/-! ## Runs -/

variable {J : Type}

/-- The echo that applying the row adds, if it is one at the next position. -/
def Txn.echoOf (t : Txn J) (e : Received J) : Option Echo :=
  if e.echo = true ∧ ((t.st.parts[e.partition]?).bind PartState.seq).any (· + 1 = e.seq) ∧
      t.db.due e = false then
    some ⟨e.seq, (t.db.mark e.recordID).getD 0, (t.db.mark e.recordID).isSome⟩
  else none

/-- A transaction that applies rows, and the echoes applied so far. -/
structure Marking (J : Type) where
  txn : Txn J
  echoes : Nat → List Echo

inductive MarkingAction (J : Type) where
  | row (e : Received J) (fault : Fault)
  -- The transaction is committed, and another one begins.
  | commit
  -- Time passes, pulls are recorded or dropped, failures counted.
  | around (now : Nat) (pulls : List (String × Nat)) (failures : List Failure)

/-- The column is the mark of the last recorded echo, and all echoes are within the contiguous
range. -/
structure MarkOk (s : Marking J) : Prop where
  parts : s.txn.st.parts = s.txn.db.wm.parts
  mark : ∀ n p, s.txn.db.wm.parts[n]? = some p →
    p.echoMP = (recordedMarks (s.echoes n)).getLast? ∧ ∀ e ∈ s.echoes n, e.seq ≤ p.seq.getD 0
  others : ∀ n, s.txn.db.wm.parts[n]? = none → s.echoes n = []

/-- What applying a row did to its partition: its position is the row's, and its mark that of a
recorded echo, if the row is one. -/
structure Passed (t t' : Txn J) (e : Received J) (p p' : PartState) : Prop where
  before : t.st.parts[e.partition]? = some p
  position : p'.seq = some e.seq
  next : p.seq.getD 0 ≤ e.seq
  state : t'.st.parts = t.st.parts.set e.partition p'
  stored : t'.db.wm.parts = t.db.wm.parts.set e.partition p'
  mark : p'.echoMP = ((t.echoOf e).bind fun echo =>
    if echo.recorded then some echo.mp else none).or p.echoMP
  echo : ∀ echo ∈ t.echoOf e, echo.seq = e.seq

/-- The row of a partition passes its position, whatever else was written before that. -/
theorem passed_advance {t t₁ : Txn J} {e : Received J} {p p₁ : PartState}
    (hbefore : t.st.parts[e.partition]? = some p) (hnext : p.seq.getD 0 ≤ e.seq)
    (hstate : t₁.st.parts = t.st.parts) (hstored : t₁.db.wm.parts = t.db.wm.parts)
    (hmark : p₁.echoMP = ((t.echoOf e).bind fun echo =>
      if echo.recorded then some echo.mp else none).or p.echoMP) :
    ∃ p', Passed t (t₁.advance e p₁) e p p' := by
  refine ⟨{ p₁ with seq := some e.seq, identity := some e.identity }, hbefore, rfl, hnext, ?_, ?_,
    hmark, ?_⟩
  · rw [← hstate]
    rfl
  · rw [← hstored]
    rfl
  intro echo hecho
  unfold Txn.echoOf at hecho
  split at hecho <;> cases hecho
  rfl

section Applying
variable [DecidableEq J] [EmptyCollection J] [Append J]

def markingStep (cfg : Config J) (s : Marking J) : MarkingAction J → Option (Marking J)
  | .row e fault =>
    match s.txn.applyAt cfg e fault true with
    | .done t => some ⟨t, update s.echoes e.partition
        (s.echoes e.partition ++ (s.txn.echoOf e).toList)⟩
    | _ => none
  | .commit => some { s with txn := s.txn.db.load }
  | .around now pulls failures =>
    some { s with txn := { s.txn with db := { s.txn.db with now, pulls, failures } } }

variable {cfg : Config J} {e : Received J}

theorem applyInput_parts {t t' : Txn J} (h : t.applyInput cfg e = some t') :
    t'.st.parts = t.st.parts ∧ t'.db.wm.parts = t.db.wm.parts := by
  unfold Txn.applyInput at h
  split at h
  · cases h
  split at h <;> cases h
  split
  · unfold Txn.digestTripwire
    split <;> exact ⟨rfl, rfl⟩
  exact ⟨rfl, rfl⟩

/-- A row is applied already, or passes the position. -/
theorem applyAt_cases {t t' : Txn J} {fault : Fault} (h : t.applyAt cfg e fault true = .done t') :
    (t' = t ∧ t.echoOf e = none) ∨ ∃ p p', Passed t t' e p p' := by
  unfold Txn.applyAt at h
  cases hp : t.st.parts[e.partition]? with
  | none =>
    rw [hp] at h
    cases h
  | some p =>
    rw [hp] at h
    simp only [true_and] at h
    cases hseq : p.seq with
    | none =>
      rw [if_pos hseq] at h
      cases h
    | some seq =>
      simp only [hseq, reduceCtorEq, if_false, any_some, decide_eq_true_eq] at h
      have hnext : ((t.st.parts[e.partition]?).bind PartState.seq).any (· + 1 = e.seq) =
          decide (seq + 1 = e.seq) := by
        simp [hp, hseq]
      split at h
      next hle =>
        cases h
        refine .inl ⟨rfl, ?_⟩
        rw [Txn.echoOf, if_neg]
        rintro ⟨-, hnext', -⟩
        rw [hnext, decide_eq_true_eq] at hnext'
        omega
      split at h
      · cases h
      rename_i hle hgap
      have hle' : p.seq.getD 0 ≤ e.seq := by
        rw [hseq, getD_some]
        omega
      have hat : ((t.st.parts[e.partition]?).bind PartState.seq).any (· + 1 = e.seq) = true := by
        rw [hnext, decide_eq_true_eq]
        exact not_not.1 hgap
      refine .inr ⟨p, ?_⟩
      split at h
      · -- the row is quarantined
        next hdue =>
        have hecho : t.echoOf e = none := by
          rw [Txn.echoOf, if_neg]
          simp [hdue]
        split at h <;> cases h
        exact passed_advance hp hle' rfl rfl (hecho ▸ rfl)
      split at h
      · -- an echo
        next hdue hecho =>
        cases h
        refine passed_advance hp hle' rfl rfl ?_
        rw [Txn.echoOf, if_pos ⟨hecho, hat, by simpa using hdue⟩]
        cases hmark : t.db.mark e.recordID <;> rfl
      split at h
      · cases h
      rename_i hecho _
      have hnone : t.echoOf e = none := by
        rw [Txn.echoOf, if_neg]
        simp [hecho]
      cases hinput : t.applyInput cfg e with
      | none =>
        rw [hinput] at h
        cases h
      | some t₁ =>
        rw [hinput] at h
        cases h
        obtain ⟨hstate, hstored⟩ := applyInput_parts hinput
        exact passed_advance hp hle' hstate hstored (hnone ▸ rfl)

theorem markOk_row {s : Marking J} {t' : Txn J} {fault : Fault}
    (hok : MarkOk s) (h : s.txn.applyAt cfg e fault true = .done t') :
    MarkOk ⟨t', update s.echoes e.partition (s.echoes e.partition ++ (s.txn.echoOf e).toList)⟩ := by
  rcases applyAt_cases h with ⟨rfl, hnone⟩ | ⟨p, p', hpassed⟩
  · have hsame : update s.echoes e.partition
        (s.echoes e.partition ++ (s.txn.echoOf e).toList) = s.echoes := by
      rw [hnone, toList_none, List.append_nil, update_eq_self]
    rw [hsame]
    exact ⟨hok.parts, hok.mark, hok.others⟩
  have hp : s.txn.db.wm.parts[e.partition]? = some p := hok.parts ▸ hpassed.before
  obtain ⟨hmark, hseqs⟩ := hok.mark _ _ hp
  obtain ⟨hlt, -⟩ := List.getElem?_eq_some_iff.1 hp
  refine ⟨?_, ?_, ?_⟩
  · rw [hpassed.state, hpassed.stored, hok.parts]
  · intro n q hq
    rw [hpassed.stored] at hq
    by_cases hn : n = e.partition
    · subst hn
      rw [List.getElem?_set_self hlt] at hq
      cases hq
      simp only [update_self]
      refine ⟨?_, ?_⟩
      · rw [hpassed.mark, hmark, recordedMarks, recordedMarks, List.filter_append, List.map_append]
        cases hecho : s.txn.echoOf e with
        | none => simp
        | some echo =>
          cases hrecorded : echo.recorded with
          | true => simp [hrecorded]
          | false => simp [hrecorded]
      intro echo hmem
      rw [hpassed.position, getD_some]
      rcases List.mem_append.1 hmem with hold | hnew
      · exact (hseqs echo hold).trans hpassed.next
      exact (hpassed.echo echo (mem_toList.1 hnew)).le
    rw [List.getElem?_set_ne (Ne.symm hn)] at hq
    simp only [update_of_ne hn]
    exact hok.mark n q hq
  intro n hn
  rw [hpassed.stored, List.getElem?_eq_none_iff, List.length_set, ← List.getElem?_eq_none_iff] at hn
  have hne : n ≠ e.partition := by
    rintro rfl
    rw [hp] at hn
    cases hn
  simp only [update_of_ne hne]
  exact hok.others n hn

theorem markOk_step {s s' : Marking J} {a : MarkingAction J} (hok : MarkOk s)
    (h : markingStep cfg s a = some s') : MarkOk s' := by
  cases a with
  | row e fault =>
    unfold markingStep at h
    simp only at h
    split at h <;> cases h
    rename_i t' happly
    exact markOk_row hok happly
  | commit =>
    cases h
    exact ⟨rfl, hok.mark, hok.others⟩
  | around now pulls failures =>
    cases h
    exact ⟨hok.parts, hok.mark, hok.others⟩

end Applying

/-! ## The marks as they are meant -/

def IsLargest (l : List Nat) (largest : Option Nat) : Prop :=
  match largest with
  | none => l = []
  | some m => m ∈ l ∧ ∀ x ∈ l, x ≤ m

theorem lastEcho_largest {contiguous : Nat} {echoes : List Echo}
    (h : ∀ e ∈ echoes, e.seq ≤ contiguous) :
    IsLargest (recordedMarks echoes) (lastEcho contiguous echoes) := by
  have hbest : Gather.IsBest (fun a b : Nat => b < a)
      (fun m => ∃ e ∈ echoes, (e.recorded = true ∧ e.seq ≤ contiguous) ∧ e.mp = m)
      (lastEcho contiguous echoes) := by
    have hfold := Gather.foldl_best (fun a b : Nat => b < a) (fun a => lt_irrefl a)
      (fun a b c hab hbc => hbc.trans hab)
      (fun e : Echo => e.recorded = true ∧ e.seq ≤ contiguous) Echo.mp echoes
    simpa only [lastEcho, and_assoc] using hfold
  have hmem : ∀ m, (∃ e ∈ echoes, (e.recorded = true ∧ e.seq ≤ contiguous) ∧ e.mp = m) ↔
      m ∈ recordedMarks echoes := by
    intro m
    simp only [recordedMarks, List.mem_map, List.mem_filter, and_assoc]
    exact exists_congr fun e => and_congr_right fun he => by simp [h e he]
  simp only [hmem] at hbest
  cases hlast : lastEcho contiguous echoes with
  | none =>
    rw [hlast] at hbest
    exact List.eq_nil_iff_forall_not_mem.2 hbest
  | some m =>
    rw [hlast] at hbest
    exact ⟨hbest.1, fun x hx => not_lt.1 (hbest.2 x hx)⟩

/-- The last of some numbers is the largest exactly when none is larger. -/
theorem getLast?_eq_iff {l : List Nat} {largest : Option Nat} (h : IsLargest l largest) :
    l.getLast? = largest ↔ ∀ last, l.getLast? = some last → ∀ x ∈ l, x ≤ last := by
  cases largest with
  | none =>
    have hnil : l = [] := h
    simp [hnil]
  | some m =>
    obtain ⟨hmem, hle⟩ : m ∈ l ∧ ∀ x ∈ l, x ≤ m := h
    constructor
    · intro hlast last hlast' x hx
      cases hlast.symm.trans hlast'
      exact hle x hx
    intro hall
    cases hlast : l.getLast? with
    | none => exact absurd (List.getLast?_eq_none_iff.1 hlast ▸ hmem) (by simp)
    | some last =>
      have hlarge := hall last hlast m hmem
      have hsmall := hle last (List.mem_of_getLast? hlast)
      rw [le_antisymm hsmall hlarge]

/-! ## The watermark -/

theorem watermarkFrom_eq (w : Nat) (marks : List (Option Nat)) : watermarkFrom (some w) marks =
    if marks.any isNone then none else some ((marks.filterMap id).foldl min w) := by
  induction marks generalizing w with
  | nil => rfl
  | cons mark marks ih =>
    cases mark with
    | none => simp [watermarkFrom]
    | some m =>
      have hmin : (if (some w).all (m < ·) then m else (some w).getD 0) = min w m := by
        simp only [all_some, decide_eq_true_eq, getD_some]
        split <;> omega
      rw [watermarkFrom, hmin, ih]
      simp

/-- The watermark is the minimum, if every partition has a mark. -/
theorem watermark_eq (marks : List (Option Nat)) : watermark marks =
    if marks.any isNone then none else (marks.filterMap id).min? := by
  cases marks with
  | nil => rfl
  | cons mark marks =>
    cases mark with
    | none => simp [watermark, watermarkFrom]
    | some m =>
      rw [watermark, watermarkFrom]
      simp only [all_none, if_true]
      rw [watermarkFrom_eq, List.any_cons, List.filterMap_cons, id, List.min?_cons']
      rfl

theorem min?_map_cast (l : List Nat) :
    (l.map (Nat.cast : Nat → Int)).min? = l.min?.map Nat.cast := by
  have hfold : ∀ (l : List Nat) (a : Nat),
      (l.map (Nat.cast : Nat → Int)).foldl min (a : Int) = ((l.foldl min a : Nat) : Int) := by
    intro l
    induction l with
    | nil => exact fun a => rfl
    | cons b l ih =>
      intro a
      have hmin : min (a : Int) (b : Int) = ((min a b : Nat) : Int) := by omega
      rw [List.map_cons, List.foldl_cons, List.foldl_cons, hmin, ih]
  cases l with
  | nil => rfl
  | cons a l => rw [List.map_cons, List.min?_cons', List.min?_cons', hfold, map_some]

/-- The age that a statement computes is that of the watermark of the stored marks. -/
theorem age_eq {s : Snapshot J} {name : String} {marks : List (Option Nat)}
    (h : s.marks name = marks.map (Option.map Nat.cast)) :
    s.age name = (watermark marks).map fun w : Nat => s.now - (w : Int) := by
  have hnone : 0 < (s.marks name).countP isNone ↔ marks.any isNone = true := by
    rw [h, List.countP_pos_iff]
    simp
  have hmarks : (s.marks name).filterMap id = (marks.filterMap id).map Nat.cast := by
    rw [h, List.filterMap_map, List.map_filterMap]
    rfl
  rw [Snapshot.age, watermark_eq, hmarks, min?_map_cast]
  by_cases hany : marks.any isNone = true
  · rw [if_pos (hnone.2 hany), if_pos hany, map_none]
  rw [if_neg (hnone.not.2 hany), if_neg hany, map_map]
  rfl

theorem db_age_eq (db : Db J) : db.age =
    (watermark (db.wm.parts.map PartState.echoMP)).map fun w : Nat => (db.now : Int) - w := by
  have hany : (db.wm.parts.map PartState.echoMP).any isNone =
      db.wm.parts.any fun p => p.echoMP.isNone := List.any_map
  have hmarks : (db.wm.parts.map PartState.echoMP).filterMap id =
      db.wm.parts.filterMap fun p => p.echoMP := List.filterMap_map
  rw [Db.age, watermark_eq, hany, hmarks]
  split
  · rfl
  cases (db.wm.parts.filterMap fun p => p.echoMP).min? <;> rfl

/-- The marks as they are meant, of all partitions. -/
def meantMarks (s : Marking J) : List (Option Nat) :=
  s.txn.db.wm.parts.mapIdx fun n p => lastEcho (p.seq.getD 0) (s.echoes n)

/-- What the stored marks, and the ages that `Judge`, `JudgeMany` and `Step` compute from them, are
meant to be. -/
def MarksMeant (s : Marking J) : Prop :=
  (∀ n p, s.txn.db.wm.parts[n]? = some p → p.echoMP = lastEcho (p.seq.getD 0) (s.echoes n)) ∧
  (∀ (snap : Snapshot J) (name : String), snap.now = s.txn.db.now →
    snap.marks name = s.txn.db.wm.parts.map (fun p => p.echoMP.map Nat.cast) →
    snap.age name = (watermark (meantMarks s)).map (fun w : Nat => (s.txn.db.now : Int) - w) ∧
    snap.ageMany name = (watermark (meantMarks s)).map (fun w : Nat => (s.txn.db.now : Int) - w)) ∧
  s.txn.db.age = (watermark (meantMarks s)).map fun w : Nat => (s.txn.db.now : Int) - w

section Meant
variable [DecidableEq J] [EmptyCollection J] [Append J]

/-- The stored mark of each partition is the one that is meant, and so are the ages, exactly when of
the recorded echoes that were applied in a partition the last has the largest mark. -/
theorem stored_mark_is_last_echo_iff (cfg : Config J) (db : Db J)
    (hstart : ∀ p ∈ db.wm.parts, p.echoMP = none) (actions : List (MarkingAction J)) (s : Marking J)
    (hrun : run (markingStep cfg) ⟨db.load, fun _ => []⟩ actions = some s) :
    MarksMeant s ↔ ∀ n last, (recordedMarks (s.echoes n)).getLast? = some last →
      ∀ e ∈ s.echoes n, e.recorded = true → e.mp ≤ last := by
  have hok : MarkOk s := by
    refine run_invariant_of_step (fun _ _ _ => markOk_step) ⟨rfl, ?_, fun _ _ => rfl⟩ hrun
    exact fun n p hp => ⟨hstart p (List.mem_of_getElem? hp), by simp⟩
  have hiff : ∀ n p, s.txn.db.wm.parts[n]? = some p →
      (p.echoMP = lastEcho (p.seq.getD 0) (s.echoes n) ↔
        ∀ last, (recordedMarks (s.echoes n)).getLast? = some last →
          ∀ e ∈ s.echoes n, e.recorded = true → e.mp ≤ last) := by
    intro n p hp
    obtain ⟨hmark, hseqs⟩ := hok.mark n p hp
    rw [hmark, getLast?_eq_iff (lastEcho_largest hseqs)]
    simp only [recordedMarks, List.forall_mem_map, List.mem_filter, and_imp]
  constructor
  · rintro ⟨hmarks, -⟩ n
    cases hp : s.txn.db.wm.parts[n]? with
    | none => simp [hok.others n hp]
    | some p => exact (hiff n p hp).1 (hmarks n p hp)
  intro hlast
  have hmarks : ∀ n p, s.txn.db.wm.parts[n]? = some p →
      p.echoMP = lastEcho (p.seq.getD 0) (s.echoes n) := fun n p hp => (hiff n p hp).2 (hlast n)
  have hmeant : meantMarks s = s.txn.db.wm.parts.map PartState.echoMP := by
    refine List.ext_getElem? fun n => ?_
    rw [meantMarks, List.getElem?_mapIdx, List.getElem?_map]
    cases hp : s.txn.db.wm.parts[n]? with
    | none => rfl
    | some p => rw [map_some, map_some, hmarks n p hp]
  refine ⟨hmarks, ?_, ?_⟩
  · intro snap name hnow hsnap
    have hage : snap.age name =
        (watermark (meantMarks s)).map fun w : Nat => snap.now - (w : Int) :=
      age_eq (by rw [hsnap, hmeant, List.map_map]; rfl)
    rw [Snapshot.ageMany_eq, hage, hnow]
    exact ⟨rfl, rfl⟩
  rw [db_age_eq, hmeant]

end Meant

/-- A consumer of one partition, aligned up to position 3, with two pulls on record. -/
def pulledTwice : Db (List String) where
  now := 100
  wm :=
    { state := .aligned, confirmed := false, rollback := false, stalledGen := none,
      blockedGen := none, prior := none, alignGen := 1, refetch := false
      adopted :=
        { deployment := "main", impl := "impl-1", systemID := "sys-1", epoch := "1.1",
          primary := true, purpose := .unspecified }
      parts := [{ seq := some 3 }] }
  rows := ∅
  pulls := [("pull-1", 10), ("pull-2", 20)]
  maxSeen := none
  dbEpoch := none
  failures := []
  quarantine := []

def pulledTwice.config : Config (List String) where
  deployment := "main"
  partitions := 1
  partitionOf := fun _ => 0
  freshness := 60
  input := Received.input

def pullEcho (nonce : String) (seq : Nat) : Received (List String) where
  echo := true
  recordID := nonce
  version := 0
  projection := .full
  data := []
  impl := "impl-1"
  epoch := "1.1"
  partition := 0
  seq := seq
  subjects := []
  digest := ""

/-- The echoes of the two pulls in the order of their marks. -/
def echoesInOrder : List (MarkingAction (List String)) :=
  [.row (pullEcho "pull-1" 4) .ok, .commit, .row (pullEcho "pull-2" 5) .ok]

theorem marks_in_order : ∃ s,
    run (markingStep pulledTwice.config) ⟨pulledTwice.load, fun _ => []⟩ echoesInOrder = some s ∧
    MarksMeant s ∧ s.txn.db.age = some 80 := by
  refine ⟨_, rfl, ?_, by decide⟩
  refine (stored_mark_is_last_echo_iff pulledTwice.config pulledTwice (by decide) echoesInOrder _
    rfl).2 ?_
  rintro (_ | n) last hlast e he -
  · -- the partition: its last echo is that of the second pull
    cases hlast
    revert e
    decide
  cases he

/-- The second pull's echo is numbered first: the delayed echo of the first sets the mark back. -/
theorem delayed_echo_sets_mark_back : ∃ s,
    run (markingStep pulledTwice.config) ⟨pulledTwice.load, fun _ => []⟩
      [.row (pullEcho "pull-2" 4) .ok, .row (pullEcho "pull-1" 5) .ok] = some s ∧
    s.txn.db.wm.parts.map PartState.echoMP = [some 10] ∧
    lastEcho 5 (s.echoes 0) = some 20 ∧ s.txn.db.age = some 90 ∧
    (watermark (meantMarks s)).map (fun w : Nat => (s.txn.db.now : Int) - w) = some 80 ∧
    ¬ MarksMeant s := by
  refine ⟨_, rfl, by decide, by decide, by decide, by decide, ?_⟩
  rintro ⟨hmarks, -⟩
  exact absurd (hmarks 0 _ rfl) (by decide)

end BeSdk.Projection

import BeSdk.Library.Runs
import BeSdk.Work.Item
import BeSdk.Work.NextSlot

/-!
# Turning slots into work items

`Plan` of `work/cron.go` and the transaction of `Runner.materialize` that uses it: the slots after
the job's watermark and not after now become work items, and the watermark moves to the last of
them. `Purge` deletes finished items once their slot is behind the watermark.

A run takes any number of such transactions, with any values of now, with purges between them and
with items changed by everything else that works on them; an item keeps its id.  What it keeps
beside the tables is which rows were inserted and which values of now were used.  The invariant
(`CronState.Ok`) is about the two ends of what was materialized: all slots from the first watermark
up to the present one have been inserted, once, and none is left between the watermark and the
largest now (`ok_materialize`).  A slot behind the watermark is never looked at again, so that it
does not matter which rows a purge has taken.
-/

namespace BeSdk.Work

open Runs List Calendar

/-- Backfill is the policy for slots missed while stopped. -/
inductive Backfill
  | latest | all | none
deriving DecidableEq, Repr

structure CronJob where
  name : String
  schedule : Schedule
  zone : Zone
  backfill : Backfill
  maxBacklog : Nat

/-- A row of `be_work_item`, as far as materializing and purging read and write it. -/
structure CronItem where
  id : String
  state : ItemState
  pauseReason : Option PauseReason
  slot : String
  runAt : Int
  finishedAt : Option Int
deriving DecidableEq, Repr

/-- Plan splits the slots due in (watermark, now] by policy. -/
def plan (job : CronJob) (watermark now : Int) : Option (List Slot × List Slot × Int) :=
  (job.schedule.slots job.zone watermark now).map fun due =>
    match due.getLast? with
    | .none => ([], [], watermark)
    | some last =>
      match job.backfill with
      | .all =>
        if job.maxBacklog < due.length then
          (due.take job.maxBacklog, due.drop job.maxBacklog, last.runAt)
        else (due, [], last.runAt)
      | .none => (due.filter fun x => now - x.runAt ≤ 60 * second, [], last.runAt)
      | .latest => ([last], [], last.runAt)

/-- The tables of a job: its watermark and its items.  Beside them, the rows that were inserted and
the values of now that were used. -/
structure CronState where
  watermark : Option Int
  lastSlot : Option String
  items : List CronItem
  inserted : List CronItem
  nows : List Int

def CronState.init : CronState := ⟨none, none, [], [], []⟩

/-- A time as the database keeps it, to the microsecond. -/
def stored (t : Int) : Int := t / 1000 * 1000

def CronJob.itemID (job : CronJob) (x : Slot) : String := job.name ++ "@" ++ x.id

def CronJob.pendingRow (job : CronJob) (x : Slot) : CronItem :=
  ⟨job.itemID x, .pending, none, x.id, x.runAt, none⟩

def CronJob.pausedRow (job : CronJob) (x : Slot) : CronItem :=
  ⟨job.itemID x, .paused, some .backlogExceeded, x.id, x.runAt, none⟩

/-- The `INSERT … ON CONFLICT DO NOTHING` of one row. -/
def CronState.insert (st : CronState) (row : CronItem) : CronState :=
  if row.id ∈ st.items.map CronItem.id then st
  else { st with items := st.items ++ [row], inserted := st.inserted ++ [row] }

/-- materialize returns the state it commits and the first slot after the new watermark (far ahead
when the schedule has none).  `loc` is the location of the times that are read from the database. -/
def CronState.materialize (job : CronJob) (loc : Zone) (st : CronState) (now : Int) :
    Option (CronState × Int) := do
  let wm := st.watermark.getD (stored now)
  let (pending, paused, mark) ← plan job wm now
  let found ← job.schedule.next job.zone (if mark = wm then loc else utc) mark
  let next := (found.map Slot.runAt).getD (loc.addYears wm 100)
  let st := { st with watermark := some wm, nows := st.nows ++ [now] }
  let st := (pending.map job.pendingRow ++ paused.map job.pausedRow).foldl CronState.insert st
  if mark = wm then return (st, next)
  return ({ st with
    watermark := some mark
    lastSlot := ((pending ++ paused).getLast?.map Slot.id).or st.lastSlot }, next)

def cronRetention : Int := 30 * 86400 * second

/-- The finished items that `Purge` deletes: past their retention and behind the watermark. -/
def CronState.purgeable (st : CronState) (now : Int) (it : CronItem) : Bool :=
  (it.state = .done ∨ it.state = .resolved) ∧
    it.finishedAt.any (fun finished => finished < now - cronRetention) ∧
    st.watermark.any (fun watermark => it.runAt ≤ watermark)

inductive CronAction
  | materialize (now : Int)
  -- A batch of `Purge`: some of the rows that may go.
  | purge (now : Int) (ids : List String)
  -- Any other write of an item: a claim, its end, an operator's action.
  | change (id : String) (write : CronItem → CronItem)

/-- The now of a transaction, and its time in the database, are in a range. -/
def CronAction.In (lo hi : Int) : CronAction → Prop
  | .materialize now => lo ≤ stored now ∧ now ≤ hi
  | _ => True

def cronStep (job : CronJob) (loc : Zone) (st : CronState) : CronAction → Option CronState
  | .materialize now => (st.materialize job loc now).map Prod.fst
  | .purge now ids => some { st with
      items := st.items.filter fun it => ¬ (it.id ∈ ids ∧ st.purgeable now it = true) }
  | .change id write => some { st with
      items := st.items.map fun it => if it.id = id then { write it with id := it.id } else it }

/-- Every slot from the first watermark to the largest now was inserted once, pending or paused, and
nothing else was. -/
structure CronState.Materialized (job : CronJob) (st : CronState) : Prop where
  once : (st.inserted.map CronItem.id).Nodup
  exact : ∀ id, id ∈ st.inserted.map CronItem.id ↔
    ∃ x, job.schedule.IsSlot job.zone x ∧ job.itemID x = id ∧
      (∃ first ∈ st.nows.head?, stored first < x.runAt) ∧ ∃ now ∈ st.nows, x.runAt ≤ now
  rows : ∀ row ∈ st.inserted, ∃ x, job.schedule.IsSlot job.zone x ∧
    (row = job.pendingRow x ∨ row = job.pausedRow x)

/-! ## One transaction -/

section Materialize
variable {job : CronJob} {loc : Zone} {st : CronState} {wm now lo hi : Int} {l : List Slot}

/-- The rows of the slots that are due: pending up to the limit, paused beyond it. -/
def CronJob.rows (job : CronJob) (l : List Slot) : List CronItem :=
  (l.take job.maxBacklog).map job.pendingRow ++ (l.drop job.maxBacklog).map job.pausedRow

def markOf (wm : Int) (l : List Slot) : Int := (l.getLast?.map Slot.runAt).getD wm

theorem plan_all (hall : job.backfill = .all) (hl : job.schedule.slots job.zone wm now = some l) :
    plan job wm now = some (l.take job.maxBacklog, l.drop job.maxBacklog, markOf wm l) := by
  rw [plan, hl, Option.map_some, markOf]
  cases hlast : l.getLast? with
  | none => simp [getLast?_eq_none_iff.1 hlast]
  | some last =>
    simp only [hall, Option.map_some, Option.getD_some]
    split
    · rfl
    rename_i hle
    rw [take_of_length_le (not_lt.1 hle), drop_of_length_le (not_lt.1 hle)]

theorem ids_rows (job : CronJob) (l : List Slot) :
    (job.rows l).map CronItem.id = l.map job.itemID := by
  have hpending : CronItem.id ∘ job.pendingRow = job.itemID := rfl
  have hpaused : CronItem.id ∘ job.pausedRow = job.itemID := rfl
  rw [CronJob.rows, map_append, map_map, map_map, hpending, hpaused, ← map_append, take_append_drop]

theorem exists_slot_of_mem_rows {row : CronItem} (h : row ∈ job.rows l) :
    ∃ x ∈ l, row = job.pendingRow x ∨ row = job.pausedRow x := by
  rcases mem_append.1 h with h | h
  · obtain ⟨x, hx, rfl⟩ := mem_map.1 h
    exact ⟨x, mem_of_mem_take hx, .inl rfl⟩
  obtain ⟨x, hx, rfl⟩ := mem_map.1 h
  exact ⟨x, mem_of_mem_drop hx, .inr rfl⟩

theorem foldl_insert {rows : List CronItem} (hnodup : (rows.map CronItem.id).Nodup)
    (hnew : ∀ row ∈ rows, row.id ∉ st.items.map CronItem.id) : rows.foldl CronState.insert st =
      { st with items := st.items ++ rows, inserted := st.inserted ++ rows } := by
  induction rows generalizing st with
  | nil => simp
  | cons row rows ih =>
    rw [map_cons, nodup_cons] at hnodup
    obtain ⟨hrow, hrest⟩ := forall_mem_cons.1 hnew
    rw [foldl_cons, CronState.insert, if_neg hrow, ih hnodup.2]
    · simp
    intro row' hrow' hmem
    rw [map_append, mem_append] at hmem
    rcases hmem with hmem | hmem
    · exact hrest row' hrow' hmem
    refine hnodup.1 (mem_map.2 ⟨row', hrow', ?_⟩)
    simpa using hmem

theorem watermark_foldl_insert (rows : List CronItem) :
    (rows.foldl CronState.insert st).watermark = st.watermark := by
  induction rows generalizing st with
  | nil => rfl
  | cons row rows ih =>
    rw [foldl_cons, ih, CronState.insert]
    split <;> rfl

/-- What is committed, given the slots that are due. -/
theorem materialize_eq (loc : Zone) (hall : job.backfill = .all)
    (hl : job.schedule.slots job.zone (st.watermark.getD (stored now)) now = some l)
    (hnext : ∀ loc', ∃ found, job.schedule.next job.zone loc'
      (markOf (st.watermark.getD (stored now)) l) = some found) :
    ∃ next lastSlot, st.materialize job loc now = some ({ (job.rows l).foldl CronState.insert
      { st with watermark := some (st.watermark.getD (stored now)), nows := st.nows ++ [now] } with
        watermark := some (markOf (st.watermark.getD (stored now)) l), lastSlot := lastSlot },
      next) := by
  unfold CronState.materialize
  generalize st.watermark.getD (stored now) = wm at hl hnext ⊢
  obtain ⟨found, hfound⟩ := hnext (if markOf wm l = wm then loc else utc)
  simp only [plan_all hall hl, Option.bind_eq_bind, Option.bind_some, hfound]
  refine ⟨(found.map Slot.runAt).getD (loc.addYears wm 100), ?_⟩
  split
  next hmark =>
    -- nothing is due: the watermark stays as it is
    have hsame : ((job.rows l).foldl CronState.insert { st with
        watermark := some wm, nows := st.nows ++ [now] }).watermark = some wm :=
      watermark_foldl_insert _
    change ∃ lastSlot, some ((job.rows l).foldl CronState.insert _, _) = _
    generalize (job.rows l).foldl CronState.insert _ = committed at hsame ⊢
    refine ⟨committed.lastSlot, ?_⟩
    rw [hmark, ← hsame]
  exact ⟨_, rfl⟩

/-! ## What has been materialized -/

/-- The slots after the first watermark and up to a later one have been inserted. -/
structure CronState.Inserted (job : CronJob) (lo hi : Int) (st : CronState) (first w : Int) :
    Prop where
  within : lo ≤ w ∧ w ≤ hi
  watermark : st.watermark = some w
  start : st.nows.head? = some first
  after : stored first ≤ w
  reached : ∃ now ∈ st.nows, w ≤ now
  once : (st.inserted.map CronItem.id).Nodup
  exact : ∀ id, id ∈ st.inserted.map CronItem.id ↔
    ∃ x, job.schedule.IsSlot job.zone x ∧ job.itemID x = id ∧ stored first < x.runAt ∧ x.runAt ≤ w
  rows : ∀ row ∈ st.inserted, ∃ x, job.schedule.IsSlot job.zone x ∧
    (row = job.pendingRow x ∨ row = job.pausedRow x)
  items : ∀ it ∈ st.items, it.id ∈ st.inserted.map CronItem.id

/-- No slot is left between the watermark and one of the values of now. -/
def CronState.NoneLeft (job : CronJob) (st : CronState) (w : Int) : Prop :=
  ∀ x, job.schedule.IsSlot job.zone x → w < x.runAt → ∀ now ∈ st.nows, now < x.runAt

/-- Nothing has been done yet, or all slots up to the watermark have been inserted and none is left
behind the largest now. -/
def CronState.Ok (job : CronJob) (lo hi : Int) (st : CronState) : Prop :=
  (st.watermark = none ∧ st.nows = [] ∧ st.inserted = [] ∧ st.items = []) ∨
    ∃ first w, st.Inserted job lo hi first w ∧ st.NoneLeft job w

theorem stored_le (t : Int) : stored t ≤ t := by
  unfold stored
  omega

/-- The state in which a transaction finds its watermark. -/
theorem inserted_of_ok (hok : st.Ok job lo hi) (hnow : lo ≤ stored now ∧ now ≤ hi) : ∃ first,
    CronState.Inserted job lo hi { st with
      watermark := some (st.watermark.getD (stored now)), nows := st.nows ++ [now] } first
      (st.watermark.getD (stored now)) ∧
    st.NoneLeft job (st.watermark.getD (stored now)) := by
  rcases hok with ⟨hwm, hnows, hinserted, hitems⟩ | ⟨first, w, hst, hleft⟩
  · refine ⟨now, ⟨?_, rfl, by simp [hnows], ?_, ⟨now, by simp, ?_⟩, ?_, ?_, ?_, ?_⟩, ?_⟩
    · rw [hwm]
      exact ⟨hnow.1, (stored_le now).trans hnow.2⟩
    · rw [hwm]
      exact le_rfl
    · rw [hwm]
      exact stored_le now
    · simp [hinserted]
    · intro id
      simp only [hinserted, hwm, map_nil, not_mem_nil, false_iff, Option.getD_none]
      rintro ⟨x, -, -, hlt, hle⟩
      exact absurd hle (not_le.2 hlt)
    · simp [hinserted]
    · simp [hitems]
    simp [CronState.NoneLeft, hnows]
  have hwm := hst.watermark
  rw [hwm, Option.getD_some]
  obtain ⟨n, hn, hle⟩ := hst.reached
  exact ⟨first, { hst with
    watermark := rfl
    start := by simp [hst.start]
    reached := ⟨n, mem_append_left _ hn, hle⟩ }, hleft⟩

theorem itemID_injective {x y : Slot} (h : job.itemID x = job.itemID y) : x.id = y.id := by
  have hlist := congrArg String.toList h
  simp only [CronJob.itemID, String.toList_append] at hlist
  exact String.toList_injective (append_cancel_left hlist)

theorem markOf_spec (hsorted : l.Pairwise Slot.Before)
    (hmem : ∀ x ∈ l, wm < x.runAt ∧ x.runAt ≤ now) :
    wm ≤ markOf wm l ∧ (∀ x ∈ l, x.runAt ≤ markOf wm l) ∧
      (markOf wm l = wm ∧ l = [] ∨ markOf wm l ≤ now) := by
  unfold markOf
  cases hlast : l.getLast? with
  | none =>
    have hnil := getLast?_eq_none_iff.1 hlast
    simp [hnil]
  | some last =>
    have hlast' := mem_of_getLast? hlast
    rw [Option.map_some, Option.getD_some]
    refine ⟨(hmem last hlast').1.le, fun x hx => ?_, .inr (hmem last hlast').2⟩
    obtain ⟨init, rfl⟩ := getLast?_eq_some_iff.1 hlast
    rcases mem_append.1 hx with hx | hx
    · exact ((pairwise_append.1 hsorted).2.2 x hx last (by simp)).le
    · cases mem_singleton.1 hx
      exact le_rfl

section
variable (loc) (hall : job.backfill = .all) (hz : job.schedule.SteadyBetween job.zone lo hi)
  (hs : job.schedule.Plain) (hok : st.Ok job lo hi)
include hall hz hs hok

theorem ok_materialize (hin : lo ≤ stored now ∧ now ≤ hi) :
    ∃ st' next, st.materialize job loc now = some (st', next) ∧ st'.Ok job lo hi := by
  obtain ⟨first, hst, hleft⟩ := inserted_of_ok hok hin
  obtain ⟨hlo, hhi⟩ := hst.within
  obtain ⟨l, hl, hsorted, hmem⟩ :=
    slots_spec (hz.slots.mono ⟨hlo, hhi⟩ ⟨hin.1.trans (stored_le now), hin.2⟩) hs
  obtain ⟨hge, hlast, hnow⟩ := markOf_spec hsorted fun x hx => ((hmem x).1 hx).2
  have hmark := And.intro (hlo.trans hge)
    (hnow.elim (fun h => h.1.trans_le hhi) fun h => h.trans hin.2)
  obtain ⟨next, lastSlot, hcommit⟩ := materialize_eq loc hall hl fun loc' =>
    (nextFrom_spec hs (hz.next loc' _ hmark.1 hmark.2)).imp fun _ => And.left
  generalize st.watermark.getD (stored now) = wm at *
  have hids : (job.rows l).map CronItem.id = l.map job.itemID := ids_rows job l
  have hnodup : (l.map job.itemID).Nodup := by
    refine List.Nodup.map_on (fun x hx y hy hid => ?_) hsorted.nodup
    exact eq_of_id_eq hs ((hmem x).1 hx).1 ((hmem y).1 hy).1 (itemID_injective hid)
  -- the slots that were inserted before are behind the watermark
  have hfresh : ∀ x ∈ l, job.itemID x ∉ st.inserted.map CronItem.id := by
    intro x hx hold
    obtain ⟨y, hy, hid, -, hle⟩ := (hst.exact _).1 hold
    obtain ⟨hx', hlt, -⟩ := (hmem x).1 hx
    cases eq_of_id_eq hs hy hx' (itemID_injective hid)
    exact absurd hle (not_le.2 hlt)
  rw [foldl_insert (hids ▸ hnodup)] at hcommit
  · refine ⟨_, next, hcommit, .inr ⟨first, markOf wm l, ⟨hmark, rfl, hst.start,
      hst.after.trans hge, ?_, ?_, ?_, ?_, ?_⟩, ?_⟩⟩
    · rcases hnow with ⟨heq, -⟩ | hle
      · rw [heq]
        exact hst.reached
      exact ⟨now, by simp, hle⟩
    · rw [map_append, hids]
      refine nodup_append.2 ⟨hst.once, hnodup, ?_⟩
      rintro id hold _ hnew rfl
      obtain ⟨x, hx, rfl⟩ := mem_map.1 hnew
      exact hfresh x hx hold
    · intro id
      rw [map_append, hids, mem_append, hst.exact, mem_map]
      constructor
      · rintro (⟨x, hx, hid, hlt, hle⟩ | ⟨x, hx, hid⟩)
        · exact ⟨x, hx, hid, hlt, hle.trans hge⟩
        obtain ⟨hx', hlt, -⟩ := (hmem x).1 hx
        exact ⟨x, hx', hid, lt_of_le_of_lt hst.after hlt, hlast x hx⟩
      rintro ⟨x, hx, hid, hlt, hle⟩
      by_cases hold : x.runAt ≤ wm
      · exact .inl ⟨x, hx, hid, hlt, hold⟩
      refine .inr ⟨x, (hmem x).2 ⟨hx, not_le.1 hold, ?_⟩, hid⟩
      rcases hnow with ⟨heq, -⟩ | hle'
      · rw [heq] at hle
        exact absurd hle hold
      exact hle.trans hle'
    · intro row hrow
      rcases mem_append.1 hrow with hrow | hrow
      · exact hst.rows row hrow
      obtain ⟨x, hx, hrow'⟩ := exists_slot_of_mem_rows hrow
      exact ⟨x, ((hmem x).1 hx).1, hrow'⟩
    · intro it hit
      rw [map_append, mem_append]
      rcases mem_append.1 hit with hit | hit
      · exact .inl (hst.items it hit)
      exact .inr (mem_map.2 ⟨it, hit, rfl⟩)
    intro x hx hlt n hn
    have hlt' : wm < x.runAt := lt_of_le_of_lt hge hlt
    rcases mem_append.1 hn with hn | hn
    · exact hleft x hx hlt' n hn
    · cases mem_singleton.1 hn
      by_contra hle
      exact absurd (hlast x ((hmem x).2 ⟨hx, hlt', not_lt.1 hle⟩)) (not_le.2 hlt)
  intro row hrow hmem'
  have hrow' : row.id ∈ l.map job.itemID := hids ▸ mem_map.2 ⟨row, hrow, rfl⟩
  obtain ⟨x, hx, hid⟩ := mem_map.1 hrow'
  obtain ⟨it, hit, hid'⟩ := mem_map.1 hmem'
  have hold := hst.items it hit
  rw [hid', ← hid] at hold
  exact hfresh x hx hold

/-! ## Runs -/

/-- Every action can be taken, and keeps the invariant. -/
theorem ok_cronStep {a : CronAction} (ha : a.In lo hi) :
    ∃ st', cronStep job loc st a = some st' ∧ st'.Ok job lo hi := by
  -- the items may change and go, as long as they keep their ids
  have hkeep : ∀ items : List CronItem, (∀ it ∈ items, ∃ old ∈ st.items, it.id = old.id) →
      CronState.Ok job lo hi { st with items := items } := by
    intro items hitems
    rcases hok with ⟨hwm, hnows, hinserted, hnone⟩ | ⟨first, w, hst, hleft⟩
    · refine .inl ⟨hwm, hnows, hinserted, eq_nil_iff_forall_not_mem.2 fun it hit => ?_⟩
      obtain ⟨old, hold, -⟩ := hitems it hit
      rw [hnone] at hold
      cases hold
    refine .inr ⟨first, w, { hst with items := fun it hit => ?_ }, hleft⟩
    obtain ⟨old, hold, hid⟩ := hitems it hit
    rw [hid]
    exact hst.items old hold
  cases a with
  | materialize now =>
    obtain ⟨st', next, hcommit, hok'⟩ := ok_materialize loc hall hz hs hok ha
    exact ⟨st', by rw [cronStep, hcommit, Option.map_some], hok'⟩
  | purge now ids => exact ⟨_, rfl, hkeep _ fun it hit => ⟨it, mem_of_mem_filter hit, rfl⟩⟩
  | change id write =>
    refine ⟨_, rfl, hkeep _ fun it hit => ?_⟩
    obtain ⟨old, hold, rfl⟩ := mem_map.1 hit
    refine ⟨old, hold, ?_⟩
    split <;> rfl

theorem exists_run_ok {actions : List CronAction} (hactions : ∀ a ∈ actions, a.In lo hi) :
    ∃ st', run (cronStep job loc) st actions = some st' ∧ st'.Ok job lo hi := by
  induction actions generalizing st with
  | nil => exact ⟨st, rfl, hok⟩
  | cons a actions ih =>
    obtain ⟨ha, hactions⟩ := forall_mem_cons.1 hactions
    obtain ⟨st₁, hstep, hok₁⟩ := ok_cronStep loc hall hz hs hok ha
    obtain ⟨st', hrun, hok'⟩ := ih hok₁ hactions
    exact ⟨st', run_cons_eq_some.2 ⟨st₁, hstep, hrun⟩, hok'⟩

end

theorem CronState.Ok.materialized (hok : st.Ok job lo hi) : st.Materialized job := by
  rcases hok with ⟨-, hnows, hinserted, -⟩ | ⟨first, w, hst, hleft⟩
  · exact ⟨by simp [hinserted], by simp [hinserted, hnows], by simp [hinserted]⟩
  refine ⟨hst.once, fun id => (hst.exact id).trans (exists_congr fun x => ?_), hst.rows⟩
  refine and_congr_right fun hx => and_congr_right fun _ => ?_
  rw [hst.start]
  simp only [Option.mem_some_iff, exists_eq_left']
  refine and_congr_right fun _ => ⟨fun hle => ?_, ?_⟩
  · obtain ⟨now, hnow, hle'⟩ := hst.reached
    exact ⟨now, hnow, hle.trans hle'⟩
  rintro ⟨now, hnow, hle⟩
  by_contra hlt
  exact absurd hle (not_le.2 (hleft x hx (not_le.1 hlt) now hnow))

theorem run_one_slot {s : Schedule} {z : Zone} {x : Slot} {y : Option Slot} {t t' : Int}
    (ht : stored t = t) (hx : x.runAt ≠ t) (h : s.slots z t t = some [])
    (h' : s.slots z t t' = some [x]) (hx' : s.next z utc t = some (some x))
    (hy : s.next z utc x.runAt = some y) :
    (run (cronStep ⟨"report", s, z, .all, 24⟩ utc) .init [.materialize t, .materialize t']).map
      (fun st => st.inserted.map CronItem.id) = some ["report@" ++ x.id] := by
  simp [run, cronStep, CronState.init, CronState.materialize, plan, ht, h, h', hx, hx', hy,
    CronState.insert, CronJob.pendingRow, CronJob.itemID]

end Materialize

/-- Where the zone is steady on the days looked at, for every schedule that a clock can show,
accepted from an expression or not, every sequence of transactions inserts the slots from the first
watermark to the largest now, each once, and the slots of a range are those of its two parts, with
texts of their own. -/
theorem slots_materialized_once (s : Schedule) (hs : s.Plain) (z : Zone) (lo hi : Int)
    (hz : s.SteadyBetween z lo hi) (name : String) (maxBacklog : Nat) (loc : Zone)
    (actions : List CronAction) (hactions : ∀ a ∈ actions, a.In lo hi) :
    (∃ st, run (cronStep ⟨name, s, z, .all, maxBacklog⟩ loc) CronState.init actions = some st ∧
      st.Materialized ⟨name, s, z, .all, maxBacklog⟩) ∧
    ∀ a b c, lo ≤ a → a ≤ b → b ≤ c → c ≤ hi → ∃ l l', s.slots z a b = some l ∧
      s.slots z b c = some l' ∧ s.slots z a c = some (l ++ l') ∧
        ((l ++ l').map Slot.id).Nodup := by
  constructor
  · have hinit : CronState.Ok ⟨name, s, z, .all, maxBacklog⟩ lo hi CronState.init :=
      .inl ⟨rfl, rfl, rfl, rfl⟩
    obtain ⟨st, hrun, hok⟩ := exists_run_ok loc rfl hz hs hinit hactions
    exact ⟨st, hrun, hok.materialized⟩
  intro a b c ha hab hbc hc
  have hac := hz.slots.mono ⟨ha, by omega⟩ ⟨by omega, hc⟩
  exact slots_append hac hs hab hbc

theorem slot_of_left_out_day :
    parseCron "0 1 * * *" = .ok oneOClock ∧
    (∀ n, ∃ t, leavesOutADay.clock t / 86400 = n) ∧
    (run (cronStep ⟨"report", oneOClock, leavesOutADay, .all, 24⟩ utc) CronState.init
      [.materialize (860400 * second), .materialize (946800 * second)]).map
        (fun st => st.inserted.map CronItem.id) = some ["report@1970-01-12T01:00"] ∧
    ∃ x, oneOClock.IsSlot leavesOutADay x ∧ x.id = "1970-01-11T01:00" ∧
      860400 * second < x.runAt ∧ x.runAt ≤ 946800 * second := by
  refine ⟨by decide +kernel, fun n => ?_, ?_, ?_⟩
  · refine ⟨n * 86400 + if n ≤ 10 then 32400 else -46800, ?_⟩
    simp only [Zone.clock, leavesOutADay]
    split <;> split <;> omega
  · exact .trans (run_one_slot (x := ⟨ofDays 11, 1, 0, 903600 * second⟩)
      (y := some ⟨ofDays 12, 1, 0, 986400 * second⟩) (by decide) (by decide) (by decide +kernel)
      (by decide +kernel) (by decide +kernel) (by decide +kernel)) (by decide +kernel)
  refine ⟨leavesOutADay.slotAt (ofDays 10) 1 0, ⟨by decide +kernel, by decide, by decide,
    runAt_slotAt _ _ _ _⟩, by decide +kernel, by decide +kernel, by decide +kernel⟩

theorem utc_steady (a b : Int) : utc.SteadyOn a b where
  noon n _ _ := by simp [Zone.clock, Zone.noonAt, Zone.date, utc]
  forward t t' _ _ _ _ := by simp [utc]
  back t t' _ _ _ _ := by simp [utc]

def workdays : Schedule where
  minutes := [30]
  hours := [2]
  doms := (List.range 31).map fun i : Nat => (i : Int) + 1
  months := (List.range 12).map fun i : Nat => (i : Int) + 1
  dows := [1, 2, 3, 4, 5]
  domRestricted := false
  dowRestricted := true

/-- Working days in UTC: the slots of a week, in three transactions, one of them with an earlier
now. -/
theorem workdays_materialized : parseCron "30 2 * * 1-5" = .ok workdays ∧
    ∃ st, run (cronStep ⟨"report", workdays, utc, .all, 2⟩ utc) CronState.init
      [.materialize 0, .materialize (604800 * second), .purge (604800 * second) [],
        .materialize (86400 * second)] = some st ∧
      st.Materialized ⟨"report", workdays, utc, .all, 2⟩ := by
  have hexpr : parseCron "30 2 * * 1-5" = .ok workdays := by decide +kernel
  have hplain : workdays.Plain := ⟨by decide, by decide⟩
  have hz : workdays.SteadyBetween utc 0 (604800 * second) :=
    ⟨utc_steady _ _, fun _ _ _ _ => steadyFrom_of_steady utc_steady _ _ _⟩
  refine ⟨hexpr, (slots_materialized_once workdays hplain utc _ _ hz "report" 2 utc _ ?_).1⟩
  simp only [forall_mem_cons, not_mem_nil, false_implies, implies_true, CronAction.In]
  decide

end BeSdk.Work

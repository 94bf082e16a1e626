import BeSdk.Evidence.Commits
import BeSdk.Library.Tables
import Mathlib.Data.List.Perm.Basic

/-!
# The order of the change history

The commit sequences of the change history are consecutive in the order in which the transactions
committed, and no change is applied by two transactions that commit.

A transaction that has inserted a row holds the counter, so that at most one has, and the counter it
holds is as far ahead of the committed one as it has rows (`TxOk`).  What a transaction has applied
is what it has rows for and what it is still to record (`applied`); one that commits has a row for
each of its changes, and the identities of the history are distinct.
-/

namespace BeSdk.Evidence

open Function RowLocks Runs Tables Database List Table

/-- The changes that are applied and not yet recorded. -/
def EvidencePhase.unrecorded : EvidencePhase → List String
  | .running replays => replays.map Change.evidenceId
  | .counting c replays => c.evidenceId :: replays.map Change.evidenceId
  | .bumping c _ _ replays => c.evidenceId :: replays.map Change.evidenceId
  | .inserting c _ replays => c.evidenceId :: replays.map Change.evidenceId
  | _ => []

/-- The sequence that was read, or taken. -/
def EvidencePhase.counted : EvidencePhase → Option Int
  | .bumping _ _ last _ => some last
  | .inserting _ pos _ => some pos.seq
  | _ => none

/-- How far the counter is ahead of the rows. -/
def EvidencePhase.ahead : EvidencePhase → Int
  | .inserting _ _ _ => 1
  | _ => 0

/-- A transaction when the committed counter is at `base`, with the counter it sees. -/
structure TxOk (base : Int) (holds : Bool) (sees : Option Counter) (tx : EvidenceTx) : Prop where
  applied : tx.applied.Perm (tx.rows.map HistoryRow.evidenceId ++ tx.phase.unrecorded)
  numbered : ∀ (i : Nat) row, tx.rows[i]? = some row → row.commitSeq = base + 1 + i
  out : holds = false → tx.rows = [] ∧ tx.phase.counted = none
  counter : holds = true → ∃ epoch, sees = some ⟨epoch, base + tx.rows.length + tx.phase.ahead⟩
  counted : ∀ n, tx.phase.counted = some n → n = base + tx.rows.length + tx.phase.ahead

/-- The counter and the sequences that were taken of it. -/
structure CounterOk (first : Int) (s : Database) : Prop where
  committed : ∃ epoch, s.counter.committed () = some ⟨epoch, first + s.log.length⟩
  numbered : ∀ (i : Nat) row, s.log[i]? = some row → row.commitSeq = first + 1 + i
  applied : s.applied.Perm (s.log.map HistoryRow.evidenceId)
  txs : ∀ w, (s.txs w).phase = .failed ∨
    TxOk (first + s.log.length) (s.counter.holds w ()) (s.counter.sees w ()) (s.txs w)

/-- The history, which had the rows `rows` at first: its rows are those of the log, and the rows of
the transactions under way are held by them. -/
structure HistoryOk (rows : String → Option HistoryRow) (history : Table String HistoryRow)
    (log : List HistoryRow) (own : Nat → List HistoryRow) : Prop where
  committed : ∀ id row, history.committed id = some row ↔
    rows id = some row ∨ row ∈ log ∧ row.evidenceId = id
  new : ∀ row ∈ log, rows row.evidenceId = none
  distinct : (log.map HistoryRow.evidenceId).Nodup
  held : ∀ id w v, history.held id = some (w, v) ↔ ∃ row ∈ own w, row.evidenceId = id ∧ v = some row
  distinctOwn : ∀ w, ((own w).map HistoryRow.evidenceId).Nodup
  absent : ∀ id w v, history.held id = some (w, v) → history.committed id = none

/-! ## The counter -/

section Counter
variable {first : Int} {s : Database} {w : Nat} {tx : EvidenceTx}
  {base : Int} {sees : Option Counter}

theorem noTx_ok : TxOk base false sees noTx where
  applied := .refl _
  numbered := nofun
  out := fun _ => ⟨rfl, rfl⟩
  counter := fun h => by cases h
  counted := nofun

theorem CounterOk.start (c : Counter) (rows : String → Option HistoryRow) :
    CounterOk c.lastSeq (start c rows) where
  committed := ⟨c.epoch, by simp [Database.start, Table.atRest]⟩
  numbered := nofun
  applied := .refl _
  txs := fun _ => .inr noTx_ok

section
variable (h : CounterOk first s)
include h

/-- A step of one transaction that does not end it, with the counter as it is or as it writes it. -/
theorem CounterOk.move {counter : Table Unit Counter}
    {history : Table String HistoryRow} (hcommitted : counter.committed = s.counter.committed)
    (hholds : ∀ w', w' ≠ w → counter.holds w' () = s.counter.holds w' ())
    (hsees : ∀ w', w' ≠ w → counter.sees w' () = s.counter.sees w' ()) (htx : tx.phase = .failed ∨
      TxOk (first + s.log.length) (counter.holds w ()) (counter.sees w ()) tx) :
    CounterOk first ({ s with counter := counter, history := history }.setTx w tx) where
  committed := hcommitted ▸ h.committed
  numbered := h.numbered
  applied := h.applied
  txs := by
    intro w'
    change (update s.txs w tx w').phase = .failed ∨
      TxOk _ (counter.holds w' ()) (counter.sees w' ()) (update s.txs w tx w')
    rcases update_cases s.txs w tx w' with ⟨rfl, hself⟩ | ⟨hne, hother⟩
    · rw [hself]
      exact htx
    rw [hother, hholds w' hne, hsees w' hne]
    exact h.txs w'

theorem CounterOk.setTx (htx : tx.phase = .failed ∨
      TxOk (first + s.log.length) (s.counter.holds w ()) (s.counter.sees w ()) tx) :
    CounterOk first (s.setTx w tx) :=
  h.move rfl (fun _ _ => rfl) (fun _ _ => rfl) htx

theorem CounterOk.putCounter (hfree : s.counter.free w () = true)
    {v : Counter} (htx : TxOk (first + s.log.length) true (some v) tx) :
    CounterOk first ({ s with counter := s.counter.put w () (some v) }.setTx w tx) := by
  refine h.move rfl (fun _ hne => put_holds_other hfree hne)
    (fun _ hne => put_sees_other hfree hne) (.inr ?_)
  rw [put_holds_self, put_sees_self]
  exact htx

theorem CounterOk.ofPhase {p : EvidencePhase} (hphase : (s.txs w).phase = p) (hfailed : p ≠ .failed)
    : TxOk (first + s.log.length) (s.counter.holds w ()) (s.counter.sees w ()) (s.txs w) := by
  rcases h.txs w with hfail | htx
  · exact absurd (hphase.symm.trans hfail) hfailed
  exact htx

end

/-- A transaction that goes on with the same rows and the same counter. -/
theorem TxOk.goOn {holds : Bool} (h : TxOk base holds sees tx)
    {p : EvidencePhase} {applied : List String}
    (happlied : applied.Perm (tx.rows.map HistoryRow.evidenceId ++ p.unrecorded))
    (hold : tx.phase.ahead = 0) (hcounted : p.counted = none) (hahead : p.ahead = 0) :
    TxOk base holds sees { tx with phase := p, applied := applied } where
  applied := happlied
  numbered := h.numbered
  out := fun hout => ⟨(h.out hout).1, hcounted⟩
  counter := by
    intro hholds
    obtain ⟨epoch, hsees⟩ := h.counter hholds
    refine ⟨epoch, ?_⟩
    rw [hsees, hold, hahead]
  counted := by
    intro n hn
    rw [hcounted] at hn
    cases hn

/-- What a transaction sees of the counter before it takes a sequence. -/
theorem TxOk.lastSeq {holds : Bool} {row : Counter}
    (h : TxOk base holds (some row) tx) (hahead : tx.phase.ahead = 0)
    (hnot : holds = false → row.lastSeq = base) : row.lastSeq = base + tx.rows.length := by
  cases holds with
  | true =>
    obtain ⟨epoch, ⟨⟩⟩ := h.counter rfl
    change base + tx.rows.length + tx.phase.ahead = _
    rw [hahead, Int.add_zero]
  | false =>
    rw [hnot rfl, (h.out rfl).1]
    simp

variable {replays : List Change}

section
variable (h : CounterOk first s)
include h

theorem CounterOk.lockCounter {c : Change}
    {row : Counter} {epoch : String} (hphase : (s.txs w).phase = .counting c replays)
    (hfree : s.counter.free w () = true) (hsees : s.counter.sees w () = some row) : CounterOk first
      ({ s with counter := s.counter.lock w () }.goTo w
        (.bumping c epoch row.lastSeq replays)) := by
  have htx := h.ofPhase hphase (by simp)
  rw [hsees] at htx
  have hlast : row.lastSeq = first + s.log.length + (s.txs w).rows.length := by
    refine htx.lastSeq (hphase ▸ rfl) fun hnot => ?_
    obtain ⟨epoch', hcommitted⟩ := h.committed
    rw [sees_of_not_holds hnot, hcommitted] at hsees
    cases hsees
    rfl
  have hput : s.counter.lock w () = s.counter.put w () (some row) := by rw [Table.lock, hsees]
  rw [hput]
  refine h.putCounter hfree
    { applied := ?_
      numbered := htx.numbered
      out := fun hout => by cases hout
      counter := fun _ => ⟨row.epoch, ?_⟩
      counted := ?_ }
  · have := htx.applied
    rw [hphase] at this
    exact this
  · change some row = some ⟨row.epoch, first + s.log.length + (s.txs w).rows.length + 0⟩
    rw [Int.add_zero, ← hlast]
  rintro n ⟨⟩
  change row.lastSeq = first + s.log.length + (s.txs w).rows.length + 0
  rw [Int.add_zero, hlast]

theorem CounterOk.bump {c : Change} {epoch : String} {last : Int}
    (hphase : (s.txs w).phase = .bumping c epoch last replays)
    (hfree : s.counter.free w () = true) : CounterOk first
      ({ s with counter := s.counter.put w () (some ⟨epoch, last + 1⟩) }.goTo w
        (.inserting c ⟨epoch, last + 1⟩ replays)) := by
  have htx := h.ofPhase hphase (by simp)
  have hlast : last = first + s.log.length + (s.txs w).rows.length + 0 := by
    have := htx.counted last (hphase ▸ rfl)
    rwa [hphase] at this
  rw [Int.add_zero] at hlast
  subst hlast
  refine h.putCounter hfree
    { applied := ?_
      numbered := htx.numbered
      out := fun hout => by cases hout
      counter := fun _ => ⟨epoch, rfl⟩
      counted := ?_ }
  · have := htx.applied
    rw [hphase] at this
    exact this
  rintro n ⟨⟩
  rfl

/-- The row that is inserted has the sequence that was taken for it. -/
theorem CounterOk.insert {c : Change} {pos : Position}
    (hphase : (s.txs w).phase = .inserting c pos replays) {history : Table String HistoryRow} :
    CounterOk first
      ({ s with history := history }.setTx w
        { s.txs w with phase := .running replays, rows := (s.txs w).rows ++ [c.row pos] }) := by
  have htx := h.ofPhase hphase (by simp)
  have hseq : pos.seq = first + s.log.length + (s.txs w).rows.length + 1 := by
    have := htx.counted pos.seq (hphase ▸ rfl)
    rwa [hphase] at this
  refine h.move rfl (fun _ _ => rfl) (fun _ _ => rfl) (.inr
    { applied := ?_
      numbered := ?_
      out := fun hout => ?_
      counter := fun hholds => ?_
      counted := fun n hn => by cases hn })
  · have happlied := htx.applied
    rw [hphase] at happlied
    simpa [EvidencePhase.unrecorded, Change.row] using happlied
  · intro i row hrow
    rcases append_eq_some hrow with ⟨rfl, rfl⟩ | hrow
    · change pos.seq = _
      omega
    exact htx.numbered i row hrow
  · have := (htx.out hout).2
    rw [hphase] at this
    cases this
  obtain ⟨epoch, hsees⟩ := htx.counter hholds
  refine ⟨epoch, ?_⟩
  rw [hsees, hphase, Option.some.injEq, Counter.mk.injEq]
  refine ⟨rfl, ?_⟩
  change first + s.log.length + (s.txs w).rows.length + 1 =
    first + s.log.length + ((s.txs w).rows ++ [c.row pos]).length + 0
  rw [length_append, length_singleton]
  omega

theorem CounterOk.rollback (w : Nat) : CounterOk first (s.rollback w) where
  committed := h.committed
  numbered := h.numbered
  applied := h.applied
  txs := by
    intro w'
    change (update s.txs w noTx w').phase = .failed ∨ TxOk _ ((s.counter.rollback w).holds w' ())
      ((s.counter.rollback w).sees w' ()) (update s.txs w noTx w')
    rcases update_cases s.txs w noTx w' with ⟨rfl, hself⟩ | ⟨hne, hother⟩
    · have hnot : (s.counter.rollback w').holds w' () = false := release_holds_self
      rw [hself, hnot]
      exact .inr noTx_ok
    have hholds : (s.counter.rollback w).holds w' () = s.counter.holds w' () :=
      release_holds_other hne
    rw [hother, hholds, rollback_sees_other hne]
    exact h.txs w'

end

/-- A transaction without the counter does not depend on where it stands. -/
theorem TxOk.moveBase (h : TxOk base false sees tx)
    (base' : Int) (sees' : Option Counter) : TxOk base' false sees' tx where
  applied := h.applied
  numbered := by
    intro i row hrow
    rw [(h.out rfl).1] at hrow
    cases hrow
  out := h.out
  counter := fun hholds => by cases hholds
  counted := by
    intro n hn
    rw [(h.out rfl).2] at hn
    cases hn

theorem CounterOk.commit (h : CounterOk first s) (hphase : (s.txs w).phase = .running []) :
    CounterOk first (s.commit w) := by
  have htx := h.ofPhase hphase (by simp)
  have hlength : first + (s.log ++ (s.txs w).rows).length =
      first + s.log.length + (s.txs w).rows.length := by
    rw [length_append]
    omega
  refine
    { committed := ?_
      numbered := ?_
      applied := ?_
      txs := fun w' => ?_ }
  · change ∃ epoch, s.counter.sees w () = some ⟨epoch, first + (s.log ++ (s.txs w).rows).length⟩
    rw [hlength]
    cases hholds : s.counter.holds w () with
    | true =>
      obtain ⟨epoch, hsees⟩ := htx.counter hholds
      have hahead : (s.txs w).phase.ahead = 0 := by
        rw [hphase]
        rfl
      exact ⟨epoch, by rw [hsees, hahead, Int.add_zero]⟩
    | false =>
      obtain ⟨epoch, hcommitted⟩ := h.committed
      exact ⟨epoch, by rw [sees_of_not_holds hholds, hcommitted, (htx.out hholds).1]; simp⟩
  · intro i row hrow
    change (s.log ++ (s.txs w).rows)[i]? = some row at hrow
    rw [getElem?_append] at hrow
    split at hrow
    · exact h.numbered i row hrow
    have := htx.numbered _ row hrow
    omega
  · have hown : (s.txs w).applied.Perm ((s.txs w).rows.map HistoryRow.evidenceId) := by
      have := htx.applied
      rwa [hphase, EvidencePhase.unrecorded, map_nil, append_nil] at this
    change ((s.txs w).applied ++ s.applied).Perm
      ((s.log ++ (s.txs w).rows).map HistoryRow.evidenceId)
    rw [map_append]
    exact (hown.append h.applied).trans perm_append_comm
  change (update s.txs w noTx w').phase = .failed ∨
    TxOk (first + (s.log ++ (s.txs w).rows).length) ((s.counter.commit w).holds w' ())
      ((s.counter.commit w).sees w' ()) (update s.txs w noTx w')
  rcases update_cases s.txs w noTx w' with ⟨rfl, hself⟩ | ⟨hne, hother⟩
  · have hnot : (s.counter.commit w').holds w' () = false := release_holds_self
    rw [hself, hnot]
    exact .inr noTx_ok
  have hsame : (s.counter.commit w).holds w' () = s.counter.holds w' () :=
    release_holds_other hne
  rw [hother, hsame]
  rcases h.txs w' with hfailed | htx'
  · exact .inl hfailed
  right
  cases hholds : s.counter.holds w' () with
  | true =>
    -- another one has the counter, so this one has inserted nothing
    have hnone := (htx.out (not_holds_of_holds hholds (Ne.symm hne))).1
    rw [hnone, append_nil, commit_sees_of_holds hne hholds, ← hholds]
    exact htx'
  | false => exact (hholds ▸ htx').moveBase _ _

end Counter

/-! ## The history -/

section History
variable {rows : String → Option HistoryRow} {history : Table String HistoryRow}
  {log : List HistoryRow} {own : Nat → List HistoryRow} {w : Nat}

theorem HistoryOk.start (rows : String → Option HistoryRow) :
    HistoryOk rows (Table.atRest rows) [] (fun _ => []) where
  committed := fun id row => by simp [Table.atRest]
  new := nofun
  distinct := nodup_nil
  held := fun id w v => by simp [Table.atRest]
  distinctOwn := fun _ => nodup_nil
  absent := nofun

section
variable (h : HistoryOk rows history log own)
include h

/-- An identity that the transaction does not see has no row of its own. -/
theorem HistoryOk.insert (row : HistoryRow)
    (hfree : history.free w row.evidenceId = true) (hnew : history.sees w row.evidenceId = none) :
    HistoryOk rows (history.put w row.evidenceId (some row)) log
      (update own w (own w ++ [row])) := by
  -- what is held is a row, so an identity that is not seen is neither held nor committed
  have hnot : ∀ v, history.held row.evidenceId ≠ some (w, v) := by
    intro v hv
    obtain ⟨row', -, -, rfl⟩ := (h.held _ w v).1 hv
    rw [sees_of_held hv] at hnew
    cases hnew
  have hnone : history.committed row.evidenceId = none := by
    rw [← sees_of_not_held hnot, hnew]
  have hother : ∀ w' v, history.held row.evidenceId ≠ some (w', v) := by
    intro w' v hv
    cases free_iff.1 hfree w' v hv
    exact hnot v hv
  refine { h with
    held := fun id w' v => ?_
    distinctOwn := fun w' => ?_
    absent := fun id w' v hv => ?_ }
  · by_cases hid : id = row.evidenceId
    · subst hid
      rw [put_held_self]
      constructor
      · rintro ⟨⟩
        rw [update_self]
        exact ⟨row, mem_append_right _ (mem_singleton_self _), rfl, rfl⟩
      rintro ⟨row', hrow', hid, rfl⟩
      rcases update_cases own w (own w ++ [row]) w' with ⟨rfl, hself⟩ | ⟨-, hsame⟩
      · rw [hself, mem_append, mem_singleton] at hrow'
        rcases hrow' with hrow' | rfl
        · exact absurd ((h.held _ w' _).2 ⟨row', hrow', hid, rfl⟩) (hother w' _)
        rfl
      rw [hsame] at hrow'
      exact absurd ((h.held _ w' _).2 ⟨row', hrow', hid, rfl⟩) (hother w' _)
    rw [put_held_of_ne hid, h.held]
    rcases update_cases own w (own w ++ [row]) w' with ⟨rfl, hself⟩ | ⟨-, hsame⟩
    · rw [hself]
      constructor
      · rintro ⟨row', hrow', hrest⟩
        exact ⟨row', mem_append_left _ hrow', hrest⟩
      rintro ⟨row', hrow', heq, hv⟩
      rw [mem_append, mem_singleton] at hrow'
      rcases hrow' with hrow' | rfl
      · exact ⟨row', hrow', heq, hv⟩
      exact absurd heq.symm hid
    rw [hsame]
  · rcases update_cases own w (own w ++ [row]) w' with ⟨rfl, hself⟩ | ⟨-, hsame⟩
    · rw [hself, map_append]
      refine nodup_append.2 ⟨h.distinctOwn w', by simp, ?_⟩
      rintro id hid id' hid' rfl
      obtain ⟨row', hrow', rfl⟩ := mem_map.1 hid
      have heq : row'.evidenceId = row.evidenceId := mem_singleton.1 hid'
      exact hother w' _ ((h.held _ w' _).2 ⟨row', hrow', heq, rfl⟩)
    rw [hsame]
    exact h.distinctOwn w'
  by_cases hid : id = row.evidenceId
  · subst hid
    exact hnone
  exact h.absent id w' v ((put_held_of_ne hid).symm.trans hv)

theorem HistoryOk.held_after (id : String) (w' : Nat) (v : Option HistoryRow) :
    history.held id = some (w', v) ∧ w' ≠ w ↔
      ∃ row ∈ update own w [] w', row.evidenceId = id ∧ v = some row := by
  rcases update_cases own w [] w' with ⟨rfl, hself⟩ | ⟨hne, hother⟩
  · rw [hself]
    simp
  rw [hother, and_iff_left hne]
  exact h.held id w' v

theorem HistoryOk.distinctOwn_after (w' : Nat) :
    ((update own w [] w').map HistoryRow.evidenceId).Nodup := by
  rcases update_cases own w [] w' with ⟨-, hself⟩ | ⟨-, hother⟩
  · rw [hself]
    exact nodup_nil
  rw [hother]
  exact h.distinctOwn w'

theorem HistoryOk.rollback (w : Nat) :
    HistoryOk rows (history.rollback w) log (update own w []) where
  committed := h.committed
  new := h.new
  distinct := h.distinct
  held := fun id w' v => Iff.trans release_held (h.held_after id w' v)
  distinctOwn := h.distinctOwn_after
  absent := fun id w' v hv => h.absent id w' v (release_held.1 hv).1

theorem HistoryOk.own_new {row : HistoryRow} (hrow : row ∈ own w) :
    rows row.evidenceId = none ∧ ∀ row' ∈ log, row'.evidenceId ≠ row.evidenceId := by
  have hheld := (h.held row.evidenceId w (some row)).2 ⟨row, hrow, rfl, rfl⟩
  have hnone := h.absent _ _ _ hheld
  constructor
  · cases hrows : rows row.evidenceId with
    | none => rfl
    | some r =>
      rw [(h.committed _ r).2 (.inl hrows)] at hnone
      cases hnone
  intro row' hrow' heq
  rw [(h.committed _ row').2 (.inr ⟨hrow', heq⟩)] at hnone
  cases hnone

theorem HistoryOk.commit (w : Nat) :
    HistoryOk rows (history.commit w) (log ++ own w) (update own w []) where
  committed := by
    intro id row
    rw [commit_committed]
    rcases history.sees_cases w id with ⟨v, hheld, hsees⟩ | ⟨hnot, hsees⟩
    · obtain ⟨row', hrow', rfl, rfl⟩ := (h.held id w v).1 hheld
      obtain ⟨hrows, hlog⟩ := h.own_new hrow'
      rw [hsees, hrows, Option.some.injEq]
      constructor
      · rintro rfl
        exact .inr ⟨mem_append_right _ hrow', rfl⟩
      rintro (hnone | ⟨hrow, heq⟩)
      · cases hnone
      rcases mem_append.1 hrow with hrow | hrow
      · exact absurd heq (hlog row hrow)
      have hagain := (h.held row'.evidenceId w (some row)).2 ⟨row, hrow, heq, rfl⟩
      rw [hheld] at hagain
      cases hagain
      rfl
    have hown : ¬ (row ∈ own w ∧ row.evidenceId = id) := by
      rintro ⟨hrow, heq⟩
      exact hnot _ ((h.held id w (some row)).2 ⟨row, hrow, heq, rfl⟩)
    rw [hsees, h.committed, mem_append, or_and_right, or_iff_left hown]
  new := by
    intro row hrow
    rcases mem_append.1 hrow with hrow | hrow
    · exact h.new row hrow
    exact (h.own_new hrow).1
  distinct := by
    rw [map_append]
    refine nodup_append.2 ⟨h.distinct, h.distinctOwn w, ?_⟩
    rintro id hid id' hid' rfl
    obtain ⟨row, hrow, rfl⟩ := mem_map.1 hid
    obtain ⟨row', hrow', heq⟩ := mem_map.1 hid'
    exact (h.own_new hrow').2 row hrow heq.symm
  held := fun id w' v => Iff.trans commit_held (h.held_after id w' v)
  distinctOwn := h.distinctOwn_after
  absent := by
    intro id w' v hv
    obtain ⟨hv, hne⟩ := commit_held.1 hv
    rw [commit_committed_of_holds hne (holds_iff.2 ⟨v, hv⟩)]
    exact h.absent id w' v hv

end
end History

/-! ## Runs -/

structure EvidenceOk (first : Int) (rows : String → Option HistoryRow) (s : Database) : Prop where
  counter : CounterOk first s
  history : HistoryOk rows s.history s.log fun w => (s.txs w).rows

theorem rows_setTx (s : Database) (w : Nat) (tx : EvidenceTx) :
    (fun w' => ((s.setTx w tx).txs w').rows) = update (fun w' => (s.txs w').rows) w tx.rows := by
  funext w'
  change (update s.txs w tx w').rows = _
  rcases update_cases s.txs w tx w' with ⟨rfl, hself⟩ | ⟨hne, hother⟩
  · rw [hself, update_self]
  rw [hother, update_of_ne hne]

theorem rows_setTx_same {s : Database} {w : Nat} {tx : EvidenceTx}
    (hrows : tx.rows = (s.txs w).rows) :
    (fun w' => ((s.setTx w tx).txs w').rows) = fun w' => (s.txs w').rows := by
  rw [rows_setTx, hrows]
  exact update_eq_self w _

section Steps
variable {first : Int} {rows : String → Option HistoryRow} {s t : Database} {a : EvidenceAction}

/-- A step that leaves the history is one of the counter. -/
theorem EvidenceOk.ofCounter (h : EvidenceOk first rows s) (hcounter : CounterOk first t)
    (hhistory : t.history = s.history) (hlog : t.log = s.log)
    (hrows : (fun w => (t.txs w).rows) = fun w => (s.txs w).rows) : EvidenceOk first rows t where
  counter := hcounter
  history := by
    rw [hhistory, hlog, hrows]
    exact h.history

theorem EvidenceOk.step (h : EvidenceOk first rows s) (hstep : evidenceStep s a = some t) :
    EvidenceOk first rows t := by
  cases evidenceStepped hstep with
  | begin hphase | replayed hphase | record hphase | replay hphase =>
    have htx := h.counter.ofPhase hphase (by simp)
    refine h.ofCounter (h.counter.setTx (.inr ?_)) rfl rfl (rows_setTx_same rfl)
    refine htx.goOn ?_ (hphase ▸ rfl) rfl rfl
    have happlied := htx.applied
    rw [hphase] at happlied
    first | exact happlied | exact (happlied.cons _).trans perm_middle.symm
  | reflected => exact h
  | failed => exact h.ofCounter (h.counter.setTx (.inl rfl)) rfl rfl (rows_setTx_same rfl)
  | lockCounter hphase hfree hsees =>
    exact h.ofCounter (h.counter.lockCounter hphase hfree hsees) rfl rfl (rows_setTx_same rfl)
  | bump hphase hfree =>
    exact h.ofCounter (h.counter.bump hphase hfree) rfl rfl (rows_setTx_same rfl)
  | @insert w c pos replays hphase hfree hnew =>
    refine ⟨h.counter.insert hphase, ?_⟩
    rw [rows_setTx]
    exact h.history.insert (c.row pos) hfree hnew
  | @commit w hphase =>
    have hrows : (fun w' => ((s.commit w).txs w').rows) = update (fun w' => (s.txs w').rows) w [] :=
      rows_setTx s w noTx
    refine ⟨h.counter.commit hphase, ?_⟩
    rw [hrows]
    exact h.history.commit w
  | @rollback w =>
    have hrows :
        (fun w' => ((s.rollback w).txs w').rows) = update (fun w' => (s.txs w').rows) w [] :=
      rows_setTx s w noTx
    refine ⟨h.counter.rollback w, ?_⟩
    rw [hrows]
    exact h.history.rollback w

end Steps

/-- **The change history is in commit order, and no change is applied twice.**  After every run of
evidence transactions the rows that were committed, in the order in which their transactions
committed, carry the sequences after the first one without gap or repetition; they are what the
change history has besides the rows it had; and a change that a committed transaction applied was
applied by it alone, once, and was not in the history before. -/
theorem evidence_in_commit_order {c : Counter} {rows : String → Option HistoryRow}
    {as : List EvidenceAction} {t : Database} (hrun : run evidenceStep (start c rows) as = some t) :
    (∀ (i : Nat) row, t.log[i]? = some row → row.commitSeq = c.lastSeq + 1 + i) ∧
    (∀ id row, t.history.committed id = some row ↔
      rows id = some row ∨ row ∈ t.log ∧ row.evidenceId = id) ∧
    t.applied.Nodup ∧ ∀ id ∈ t.applied, rows id = none := by
  have h : EvidenceOk c.lastSeq rows t :=
    run_invariant_of_step (fun _ _ _ h hstep => h.step hstep)
      ⟨CounterOk.start c rows, HistoryOk.start rows⟩ hrun
  refine ⟨h.counter.numbered, h.history.committed, ?_, fun id hid => ?_⟩
  · exact h.counter.applied.nodup_iff.2 h.history.distinct
  obtain ⟨row, hrow, rfl⟩ := mem_map.1 (h.counter.applied.mem_iff.1 hid)
  exact h.history.new row hrow

/-- Two replays of one record apply its change; the second one finds the first one's row when it
inserts its own, and rolls back with the sequence it took. -/
theorem evidence_in_commit_order_of_two_replays :
    let revoked : Change := ⟨"e-1", ⟨"grant", "g-7", ""⟩⟩
    let granted : Change := ⟨"e-2", ⟨"grant", "g-8", "3"⟩⟩
    ∃ t,
      run evidenceStep (start ⟨"1.1", 41⟩ fun _ => none)
        [.begin 1, .replay 1 revoked, .begin 2, .replay 2 revoked, .replayed 1 true,
          .replayed 2 true, .lockCounter 1 2 1, .bump 1, .insert 1, .commit 1, .lockCounter 2 2 1,
          .bump 2, .insert 2, .rollback 2, .begin 3, .replay 3 revoked, .record 3 granted,
          .lockCounter 3 2 1, .bump 3, .insert 3, .commit 3] = some t ∧
      t.log.map (fun row => (row.evidenceId, row.commitSeq)) = [("e-1", 42), ("e-2", 43)] ∧
      t.applied = ["e-2", "e-1"] ∧
      (∀ (i : Nat) row, t.log[i]? = some row → row.commitSeq = 41 + 1 + i) ∧
      (∀ id row, t.history.committed id = some row ↔
        none = some row ∨ row ∈ t.log ∧ row.evidenceId = id) ∧
      t.applied.Nodup ∧ ∀ id ∈ t.applied, (none : Option HistoryRow) = none := by
  intro revoked granted
  exact exists_of_run rfl fun hrun => ⟨rfl, rfl, evidence_in_commit_order hrun⟩

end BeSdk.Evidence

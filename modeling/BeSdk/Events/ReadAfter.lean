import BeSdk.Events.InOrder

/-!
# Readers with a cursor of their own

`events.ReadAfter`: a reader that does not subscribe asks for the rows of one partition after its
cursor and passes the answer's cursor back with its next call.  The call is one transaction at READ
COMMITTED of up to four statements (the epoch, the counter, the row after the cursor, the rows), and
anything may commit between two of them, so each is a step here.

`since` and `got` are history: the cursor of the reader's last reset (at first the one it came with)
and the positions of the rows it was given since.

## When nothing is passed over

The call looks for one row, the one right after the cursor, and takes it to stand for all that
follow.  It does in every state in which the purge has deleted the oldest rows only (`Downward`):
a row that is there then has all its successors.  `Purge` asks for no order, so a batch can leave a
hole behind a row that it left, and it can also come between the look and the read.
`GentlePurge` excludes both, and then every answer continues the last one (`Reader.Continues`).
-/

namespace BeSdk.Events

open Runs List Function

variable {E : Type*}

/-- A reader's position on one partition: the implementation instance, the epoch and the last
sequence read. -/
structure Cursor where
  impl : String
  epoch : Epoch
  seq : Nat
deriving DecidableEq, Repr

/-- `rowsBetween`: the rows of one epoch with `after < seq <= upTo`, in position order. -/
def State.rowsBetween (s : State E) (p : StreamPart) (e : Epoch) (after upTo limit : Nat) :
    List Nat :=
  (s.inOrder fun r =>
    r.part = p ∧ r.pos.any fun pt => pt.epoch = e ∧ after < pt.seq ∧ pt.seq ≤ upTo).take limit

def State.hasRow (s : State E) (p : StreamPart) (pt : Point) : Bool :=
  s.inOrder (fun r => r.part = p ∧ r.pos = some pt) ≠ []

inductive Reading
  | idle
  -- it has read the epoch
  | began (limit : Nat) (current : Epoch)
  -- it has read the counter, and goes on
  | counted (limit : Nat) (current : Epoch) (counter : Nat)
  -- it has found the row after the cursor
  | checked (limit : Nat) (current : Epoch) (counter : Nat)
deriving DecidableEq, Repr

structure Reader where
  part : StreamPart
  cursor : Option Cursor
  at_ : Reading := .idle
  since : Option Cursor := cursor
  got : List Point := []
deriving DecidableEq, Repr

namespace Reader

/-- The answer with `reset` and no rows; `next` is the current end. -/
def reset (r : Reader) (end_ : Cursor) : Reader :=
  { r with cursor := some end_, at_ := .idle, since := some end_, got := [] }

def answer (r : Reader) (rows : List Point) (next : Cursor) : Reader :=
  { r with cursor := some next, at_ := .idle, got := r.got ++ rows }

end Reader

structure Readers (E : Type*) where
  outbox : State E
  -- `IMPLEMENTATION_INSTANCE`
  impl : String
  readers : Nat → Reader

inductive ReadAction (E : Type*)
  -- business transactions, numbering, publishing, the purge, the epoch
  | outbox (a : Action E)
  -- a call, up to the epoch it reads
  | begin (i limit : Nat)
  -- the counter, and what follows from it and the cursor alone
  | count (i : Nat)
  -- the look for the row after the cursor
  | check (i : Nat)
  | rows (i : Nat)
  -- any of its statements fails: no answer
  | fail (i : Nat)

namespace Readers

variable (s : Readers E)

def set (i : Nat) (r : Reader) : Readers E := { s with readers := update s.readers i r }

/-- The counter as the call reads it: 0 when nothing is numbered in this epoch yet. -/
def counterIn (p : StreamPart) (current : Epoch) : Nat :=
  if (s.outbox.counters p).epoch = some current then (s.outbox.counters p).last else 0

/-- The call after the counter. -/
def counted (r : Reader) (limit : Nat) (current : Epoch) : Reader :=
  let counter := s.counterIn r.part current
  let end_ : Cursor := ⟨s.impl, current, counter⟩
  match r.cursor with
  | none => r.reset end_
  | some after =>
    if after.impl ≠ s.impl ∨ after.epoch ≠ current then r.reset end_
    else if after.seq = counter then r.answer [] end_
    else { r with at_ := .counted limit current counter }

/-- The call after its look for the row after the cursor. -/
def checked (r : Reader) (after : Cursor) (limit : Nat) (current : Epoch) (counter : Nat) :
    Reader :=
  if s.outbox.hasRow r.part ⟨current, after.seq + 1⟩ then
    { r with at_ := .checked limit current counter }
  else r.reset ⟨s.impl, current, counter⟩ -- purged, or past the end

/-- The answer with the rows; `next` is the last one's position, or the cursor when there is
none. -/
def answered (r : Reader) (after : Cursor) (limit : Nat) (current : Epoch) (counter : Nat) :
    Reader :=
  let rows := (s.outbox.rowsBetween r.part current after.seq counter limit).map
    (posOf s.outbox.rows)
  r.answer rows ⟨s.impl, current, (rows.getLast?.map (·.seq)).getD after.seq⟩

def step (s : Readers E) : ReadAction E → Option (Readers E)
  | .outbox a => (Events.step s.outbox a).map fun o => { s with outbox := o }
  | .begin i limit =>
    match (s.readers i).at_ with
    | .idle => some (s.set i { s.readers i with at_ := .began limit s.outbox.epoch })
    | _ => none
  | .count i =>
    match (s.readers i).at_ with
    | .began limit current => some (s.set i (s.counted (s.readers i) limit current))
    | _ => none
  | .check i =>
    match (s.readers i).at_, (s.readers i).cursor with
    | .counted limit current counter, some after =>
      some (s.set i (s.checked (s.readers i) after limit current counter))
    | _, _ => none
  | .rows i =>
    match (s.readers i).at_, (s.readers i).cursor with
    | .checked limit current counter, some after =>
      some (s.set i (s.answered (s.readers i) after limit current counter))
    | _, _ => none
  | .fail i => some (s.set i { s.readers i with at_ := .idle })

/-- Readers that have not called yet, each on its partition with what cursor it has. -/
def init (E : Type*) (epoch : Epoch) (impl : String) (cursors : Nat → StreamPart × Option Cursor) :
    Readers E :=
  { outbox := Events.init E epoch, impl := impl,
    readers := fun i => { part := (cursors i).1, cursor := (cursors i).2 } }

end Readers

/-! ## Rows without holes -/

section Rows
variable {s s' : State E} {a : Action E}

/-- In each partition and epoch the deleted rows are the oldest ones. -/
def Downward (s : State E) : Prop :=
  ∀ (o o' : Nat) (r r' : Row E) (e : Epoch) (q q' : Nat), s.rows[o]? = some r →
    s.rows[o']? = some r' → r.part = r'.part → r.pos = some ⟨e, q⟩ → r'.pos = some ⟨e, q'⟩ →
    q < q' → r'.purged = true → r.purged = true

/-- The purge deletes, with each row, what is left before it in its partition and epoch. -/
def OldestFirst (s : State E) : Action E → Prop
  | .purge ords => ∀ (o o' : Nat) (r r' : Row E) (e : Epoch) (q q' : Nat), s.rows[o]? = some r →
      s.rows[o']? = some r' → r.part = r'.part → r.pos = some ⟨e, q⟩ → r'.pos = some ⟨e, q'⟩ →
      q < q' → o' ∈ ords → r.purged = true ∨ o ∈ ords
  | _ => True

/-- All rows of the partition and epoch after a sequence are there. -/
def KeptAfter (s : State E) (p : StreamPart) (e : Epoch) (after : Nat) : Prop :=
  ∀ (o : Nat) (r : Row E) (q : Nat), s.rows[o]? = some r → r.part = p → r.pos = some ⟨e, q⟩ →
    after < q → r.purged = false

def NumberedTo (s : State E) (p : StreamPart) (e : Epoch) (upTo : Nat) : Prop :=
  ∀ q, 1 ≤ q → q ≤ upTo → ∃ o, s.table.Numbered o p ⟨e, q⟩

variable {p : StreamPart}

/-- A row with a smaller position than a row of before the step was numbered before it too. -/
theorem numbered_below (h : Inv s) (hstep : step s a = some s') {o o' : Nat}
    {pt pt' : Point} (hnum : s'.table.Numbered o p pt) (hnum' : s.table.Numbered o' p pt')
    (hlt : pt < pt') : s.table.Numbered o p pt := by
  rcases (step_numbered h hstep).2 o p pt hnum with hold | ⟨-, hafter⟩
  · exact hold
  exact absurd (hafter o' pt' hnum') (not_lt.2 hlt.le)

theorem Downward.step (h : Inv s) (hdown : Downward s) (hok : OldestFirst s a)
    (hstep : step s a = some s') : Downward s' := by
  intro o o' r r' e q q' hr hr' hpart hpos hpos' hlt hpurged
  obtain ⟨r₀', hr₀', hpart₀', hpos₀', hwhy⟩ := step_purged h hstep hr' hpurged
  rw [hpos'] at hpos₀'
  -- the deleted row was numbered before the step, so the row before it was too
  have hnum' : s.table.Numbered o' r.part ⟨e, q'⟩ := by
    rw [hpart, ← hpart₀']
    exact numbered_of_row hr₀' hpos₀'
  have hbelow : (⟨e, q⟩ : Point) < ⟨e, q'⟩ := Point.lt_iff.2 (.inr ⟨rfl, hlt⟩)
  obtain ⟨r₀, hr₀, hpart₀, hpos₀⟩ :=
    row_of_numbered (numbered_below h hstep (numbered_of_row hr hpos) hnum' hbelow)
  obtain ⟨r₁, hr₁, hlater, -⟩ := step_later h hstep hr₀
  obtain rfl : r₁ = r := by rwa [hr, Option.some.injEq, eq_comm] at hr₁
  have hparts : r₀.part = r₀'.part := by rw [hpart₀, hpart, hpart₀']
  rcases hwhy with hgone | ⟨ords, rfl, hmem⟩
  · exact hlater.purged (hdown o o' r₀ r₀' e q q' hr₀ hr₀' hparts hpos₀ hpos₀' hlt hgone)
  rcases hok o o' r₀ r₀' e q q' hr₀ hr₀' hparts hpos₀ hpos₀' hlt hmem with hgone | hmem₀
  · exact hlater.purged hgone
  rw [(step_purge hstep).2] at hr
  simp only [State.flag, getElem?_mapIdx, hr₀, Option.map_some, hmem₀, if_true,
    Option.some.injEq] at hr
  rw [← hr]

variable {e : Epoch}

/-- The row after the cursor, if it is there, stands for all that follow. -/
theorem Downward.keptAfter (h : Inv s) (hdown : Downward s)
    {after : Nat} (hrow : s.hasRow p ⟨e, after + 1⟩ = true) : KeptAfter s p e after := by
  obtain ⟨o, ho⟩ := exists_mem_of_ne_nil _ (of_decide_eq_true hrow)
  obtain ⟨r, hr, hcond, hvisible⟩ := mem_inOrder.1 ho
  obtain ⟨rfl, hpos⟩ := of_decide_eq_true hcond
  have hkept : r.purged = false := (h.visible_iff hr hpos).1 hvisible
  intro o' r' q hr' hpart hpos' hafter
  by_contra hgone
  rw [Bool.not_eq_false] at hgone
  rcases Nat.eq_or_lt_of_le (Nat.succ_le_of_lt hafter) with heq | hlt
  · have hsame : o = o' := by
      refine h.table.unique o o' r.part ⟨e, q⟩ ?_ (hpart ▸ numbered_of_row hr' hpos')
      exact heq ▸ numbered_of_row hr hpos
    subst hsame
    rw [hr, Option.some.injEq] at hr'
    rw [← hr', hkept] at hgone
    cases hgone
  have := hdown o o' r r' e (after + 1) q hr hr' hpart.symm hpos hpos' hlt hgone
  rw [hkept] at this
  cases this

theorem NumberedTo.step (h : Inv s) (hstep : step s a = some s')
    {upTo : Nat} (hto : NumberedTo s p e upTo) : NumberedTo s' p e upTo := by
  intro q hone hle
  obtain ⟨o, ho⟩ := hto q hone hle
  exact ⟨o, (step_numbered h hstep).1 o p _ ho⟩

theorem KeptAfter.step (h : Inv s) (hstep : step s a = some s')
    {after : Nat} (hkept : KeptAfter s p e after)
    (hspared : ∀ ords, a = .purge ords → ∀ o ∈ ords, ∀ (r : Row E) (q : Nat),
      s.rows[o]? = some r → r.part = p → r.pos = some ⟨e, q⟩ → q ≤ after) :
    KeptAfter s' p e after := by
  intro o r' q hr' hpart hpos hafter
  by_contra hgone
  rw [Bool.not_eq_false] at hgone
  obtain ⟨r, hr, hpart₀, hpos₀, hwhy⟩ := step_purged h hstep hr' hgone
  rw [hpart] at hpart₀
  rw [hpos] at hpos₀
  rcases hwhy with hgone₀ | ⟨ords, rfl, hmem⟩
  · simp [hkept o r q hr hpart₀ hpos₀ hafter] at hgone₀
  exact absurd (hspared ords rfl o hmem r q hr hpart₀ hpos₀) (by omega)

/-- Rows that are all there are read without a hole. -/
theorem rowsBetween_consecutive (h : Inv s) {after upTo : Nat}
    (limit : Nat) (hto : NumberedTo s p e upTo) (hkept : KeptAfter s p e after) :
    (s.rowsBetween p e after upTo limit).map (posOf s.rows) =
      (range' (after + 1) (min limit (upTo - after))).map fun q => ⟨e, q⟩ := by
  have hall : (s.inOrder fun r => r.part = p ∧ r.pos.any fun pt =>
      pt.epoch = e ∧ after < pt.seq ∧ pt.seq ≤ upTo).map (posOf s.rows) =
      (range' (after + 1) (upTo - after)).map fun q => ⟨e, q⟩ := by
    refine List.Pairwise.eq_of_mem_iff (r := (· < ·)) ?_ ?_ fun pt => ?_
    · rw [pairwise_map]
      refine h.inOrder_sorted (p := p) fun r hr => ?_
      obtain ⟨hpart, hany⟩ := of_decide_eq_true hr
      obtain ⟨pt, hpt, -⟩ := Option.any_eq_true _ _ |>.1 hany
      exact ⟨hpart, by simp [hpt]⟩
    · rw [pairwise_map]
      refine List.Pairwise.imp (fun hlt => ?_) (pairwise_lt_range' 1)
      exact Point.lt_iff.2 (.inr ⟨rfl, hlt⟩)
    rw [mem_map, mem_map]
    constructor
    · rintro ⟨o, ho, rfl⟩
      obtain ⟨r, hr, hcond, -⟩ := mem_inOrder.1 ho
      obtain ⟨-, hany⟩ := of_decide_eq_true hcond
      obtain ⟨pt, hpt, hrest⟩ := Option.any_eq_true _ _ |>.1 hany
      obtain ⟨rfl, hlow, hhigh⟩ := of_decide_eq_true hrest
      rw [posOf_eq hr hpt]
      exact ⟨pt.seq, mem_range'_1.2 (by omega), rfl⟩
    rintro ⟨q, hq, rfl⟩
    rw [mem_range'_1] at hq
    obtain ⟨o, ho⟩ := hto q (by omega) (by omega)
    obtain ⟨r, hr, hpart, hpos⟩ := row_of_numbered ho
    refine ⟨o, mem_inOrder.2 ⟨r, hr, ?_, ?_⟩, posOf_eq hr hpos⟩
    · simp only [hpart, hpos, Option.any_some, decide_eq_true_eq, true_and]
      omega
    exact (h.visible_iff hr hpos).2 (hkept o r q hr hpart hpos (by omega))
  rw [State.rowsBetween, map_take, hall, ← map_take]
  rcases le_total limit (upTo - after) with hle | hle
  · rw [take_range'_of_length_ge hle, Nat.min_eq_left hle]
  rw [take_range'_of_length_le hle, Nat.min_eq_right hle]

end Rows

/-! ## The invariant -/

/-- What the reader was given since its last reset is every position from there to its cursor, in
order and once each. -/
def Reader.Continues (r : Reader) : Prop :=
  ∀ c, r.cursor = some c → ∃ start, r.since = some start ∧ c.epoch = start.epoch ∧
    c.seq = start.seq + r.got.length ∧
    r.got = (List.range' (start.seq + 1) r.got.length).map fun q => ⟨start.epoch, q⟩

theorem Reader.Continues.reset (r : Reader) (end_ : Cursor) : (r.reset end_).Continues := by
  intro c hc
  obtain rfl := by simpa [Reader.reset] using hc
  exact ⟨end_, rfl, rfl, rfl, rfl⟩

/-- An answer that starts right after the cursor continues what came before. -/
theorem Reader.Continues.answer {r : Reader} (h : r.Continues) {after : Cursor}
    (hcursor : r.cursor = some after) (impl : String) (n : Nat) :
    (r.answer ((range' (after.seq + 1) n).map fun q => ⟨after.epoch, q⟩)
      ⟨impl, after.epoch, after.seq + n⟩).Continues := by
  intro c hc
  obtain rfl := by simpa [Reader.answer] using hc
  obtain ⟨start, hstart, hepoch, hseq, hgot⟩ := h after hcursor
  refine ⟨start, hstart, hepoch, ?_, ?_⟩
  · simp only [Reader.answer, length_append, length_map, length_range']
    omega
  simp only [Reader.answer, length_append, length_map, length_range', hepoch]
  rw [← range'_append_1, map_append, ← hgot, hseq]
  congr 3
  omega

namespace Readers

variable {s s' : Readers E}

def StageOk (s : Readers E) (r : Reader) : Reading → Prop
  | .counted _ current counter =>
    (∃ c, r.cursor = some c ∧ c.epoch = current) ∧ NumberedTo s.outbox r.part current counter
  | .checked _ current counter =>
    (∃ c, r.cursor = some c ∧ c.epoch = current ∧ KeptAfter s.outbox r.part current c.seq) ∧
      NumberedTo s.outbox r.part current counter
  | _ => True

structure Inv (s : Readers E) : Prop where
  outbox : Events.Inv s.outbox
  downward : Downward s.outbox
  continues : ∀ i, (s.readers i).Continues
  stage : ∀ i, s.StageOk (s.readers i) (s.readers i).at_

/-- The purge deletes oldest rows first, and of a partition that a call is about to read, nothing
after the call's cursor. -/
def GentlePurge (s : Readers E) : ReadAction E → Prop
  | .outbox (.purge ords) =>
    OldestFirst s.outbox (.purge ords) ∧
      ∀ i limit current counter, (s.readers i).at_ = .checked limit current counter →
        ∀ c, (s.readers i).cursor = some c → ∀ o ∈ ords, ∀ (r : Row E) (q : Nat),
          s.outbox.rows[o]? = some r → r.part = (s.readers i).part → r.pos = some ⟨current, q⟩ →
          q ≤ c.seq
  | _ => True

section
variable (h : s.Inv)
include h

theorem Inv.set {i : Nat} {r : Reader} (hcontinues : r.Continues)
    (hstage : s.StageOk r r.at_) : (s.set i r).Inv where
  outbox := h.outbox
  downward := h.downward
  continues j := by
    by_cases heq : j = i
    · subst heq
      simpa [Readers.set] using hcontinues
    simpa [Readers.set, update_of_ne heq] using h.continues j
  stage j := by
    by_cases heq : j = i
    · subst heq
      rw [show ((s.set j r).readers j) = r by simp [Readers.set]]
      exact hstage
    rw [show ((s.set i r).readers j) = s.readers j by simp
      [Readers.set, update_of_ne heq]]
    exact h.stage j

theorem Inv.outboxStep {a : Action E} {o : State E} (hok : s.GentlePurge (.outbox a))
    (hstep : Events.step s.outbox a = some o) : Inv { s with outbox := o } where
  outbox := inv_step h.outbox hstep
  downward := by
    refine h.downward.step h.outbox ?_ hstep
    cases a with
    | purge ords => exact hok.1
    | _ => trivial
  continues := h.continues
  stage i := by
    have hstage := h.stage i
    change StageOk _ (s.readers i) (s.readers i).at_
    cases hat : (s.readers i).at_ with
    | idle => trivial
    | began limit current => trivial
    | counted limit current counter =>
      rw [hat] at hstage
      exact ⟨hstage.1, hstage.2.step h.outbox hstep⟩
    | checked limit current counter =>
      rw [hat] at hstage
      obtain ⟨⟨c, hc, hepoch, hkept⟩, hto⟩ := hstage
      refine ⟨⟨c, hc, hepoch, hkept.step h.outbox hstep ?_⟩, hto.step h.outbox hstep⟩
      rintro ords rfl
      exact hok.2 i limit current counter hat c hc

theorem Inv.numberedTo (p : StreamPart) (current : Epoch) :
    NumberedTo s.outbox p current (s.counterIn p current) := by
  intro q hone hle
  unfold counterIn at hle
  split at hle
  next hepoch =>
    have hlast : s.outbox.table.Last p current (s.outbox.counters p).last := by
      left
      change s.outbox.counters p = _
      rw [← hepoch]
    exact (h.outbox.table.exact p current _ hlast q).2 ⟨hone, hle⟩
  omega

theorem Inv.counted (i limit : Nat) (current : Epoch) :
    (s.set i (s.counted (s.readers i) limit current)).Inv := by
  unfold Readers.counted
  cases hcursor : (s.readers i).cursor with
  | none => exact h.set (.reset _ _) trivial
  | some after =>
    dsimp only
    split
    · exact h.set (.reset _ _) trivial
    rename_i hsame
    rw [not_or, not_not, not_not] at hsame
    split
    next hend =>
      refine h.set ?_ trivial
      have := (h.continues i).answer hcursor s.impl 0
      simpa [hsame.2, hend] using this
    refine h.set ?_ ⟨⟨after, rfl, hsame.2⟩, h.numberedTo _ _⟩
    intro c hc
    exact h.continues i c (hcursor.trans hc)

theorem Inv.checked {i limit counter : Nat} {current : Epoch} {after : Cursor}
    (hat : (s.readers i).at_ = .counted limit current counter)
    (hcursor : (s.readers i).cursor = some after) :
    (s.set i (s.checked (s.readers i) after limit current counter)).Inv := by
  have hstage := h.stage i
  rw [hat] at hstage
  obtain ⟨⟨c, hc, hepoch⟩, hto⟩ := hstage
  obtain rfl : c = after := by rwa [hcursor, Option.some.injEq, eq_comm] at hc
  unfold Readers.checked
  split
  next hrow =>
    exact h.set (h.continues i) ⟨⟨c, hcursor, hepoch, h.downward.keptAfter h.outbox hrow⟩, hto⟩
  exact h.set (.reset _ _) trivial

theorem Inv.answered {i limit counter : Nat} {current : Epoch} {after : Cursor}
    (hat : (s.readers i).at_ = .checked limit current counter)
    (hcursor : (s.readers i).cursor = some after) :
    (s.set i (s.answered (s.readers i) after limit current counter)).Inv := by
  have hstage := h.stage i
  rw [hat] at hstage
  obtain ⟨⟨c, hc, rfl, hkept⟩, hto⟩ := hstage
  obtain rfl : c = after := by rwa [hcursor, Option.some.injEq, eq_comm] at hc
  refine h.set ?_ trivial
  have hlast : ∀ n, (((range' (c.seq + 1) n).map fun q => (⟨c.epoch, q⟩ : Point)).getLast?.map
      (·.seq)).getD c.seq = c.seq + n := by
    intro n
    cases n with
    | zero => rfl
    | succ n =>
      rw [getLast?_map, getLast?_range']
      simp
      omega
  dsimp only [Readers.answered]
  rw [rowsBetween_consecutive h.outbox limit hto hkept, hlast]
  exact (h.continues i).answer hcursor s.impl _

theorem inv_step {a : ReadAction E} (hok : s.GentlePurge a)
    (hstep : step s a = some s') : s'.Inv := by
  cases a with simp only [step] at hstep
  | outbox a =>
    obtain ⟨o, ho, rfl⟩ := Option.map_eq_some_iff.1 hstep
    exact h.outboxStep hok ho
  | «begin» i limit =>
    split at hstep <;> cases hstep
    exact h.set (h.continues i) trivial
  | count i =>
    split at hstep <;> cases hstep
    exact h.counted i _ _
  | check i =>
    split at hstep <;> cases hstep
    rename_i hat hcursor
    exact h.checked hat hcursor
  | rows i =>
    split at hstep <;> cases hstep
    rename_i hat hcursor
    exact h.answered hat hcursor
  | fail i =>
    obtain rfl := by simpa [step] using hstep
    exact h.set (h.continues i) trivial

end

theorem inv_init (epoch : Epoch) (impl : String) (cursors : Nat → StreamPart × Option Cursor) :
    (init E epoch impl cursors).Inv where
  outbox := Events.inv_init epoch
  downward := by
    intro o o' r r' e q q' hr
    simp [init, Events.init] at hr
  continues i c hc := ⟨c, hc, rfl, rfl, rfl⟩
  stage i := trivial

/-- **Reading after a cursor.**  In every run in which the purge deletes oldest rows first and
nothing that a call is about to read, every reader was given since its last reset exactly the
positions from there to its cursor, one after the other: no numbered row in between was passed
over. -/
theorem read_after_consecutive (epoch : Epoch) (impl : String)
    (cursors : Nat → StreamPart × Option Cursor) (as : List (ReadAction E)) (s : Readers E)
    (hmeets : Meets step GentlePurge (init E epoch impl cursors) as)
    (hrun : run step (init E epoch impl cursors) as = some s) :
    ∀ i c, (s.readers i).cursor = some c → ∃ start, (s.readers i).since = some start ∧
      c.epoch = start.epoch ∧ c.seq = start.seq + (s.readers i).got.length ∧
      (s.readers i).got =
        (List.range' (start.seq + 1) (s.readers i).got.length).map (fun q => ⟨c.epoch, q⟩) ∧
      ∀ o q, s.outbox.table.Numbered o (s.readers i).part ⟨c.epoch, q⟩ → start.seq < q →
        q ≤ c.seq → ⟨c.epoch, q⟩ ∈ (s.readers i).got := by
  intro i c hc
  have hinv : s.Inv :=
    run_invariant (fun _ _ _ h => inv_step h) (inv_init epoch impl cursors) hmeets hrun
  obtain ⟨start, hstart, hepoch, hseq, hgot⟩ := hinv.continues i c hc
  rw [← hepoch] at hgot
  refine ⟨start, hstart, hepoch, hseq, hgot, fun o q _ hlow hhigh => ?_⟩
  rw [hgot]
  exact mem_map.2 ⟨q, mem_range'_1.2 (by omega), rfl⟩

/-- Three rows of one partition, numbered and published. -/
def threeRows : List (ReadAction Unit) :=
  [.insert 0 ⟨"sessions", 0⟩ (), .insert 0 ⟨"sessions", 0⟩ (), .insert 0 ⟨"sessions", 0⟩ (),
    .commit 0, .lock ⟨"sessions", 0⟩ 10, .readEpoch ⟨"sessions", 0⟩, .assign ⟨"sessions", 0⟩,
    .finish ⟨"sessions", 0⟩, .markPublished [0, 1, 2]].map .outbox

def cursorsAt (seq : Nat) (_ : Nat) : StreamPart × Option Cursor :=
  (⟨"sessions", 0⟩, some ⟨"a", ⟨1, 1⟩, seq⟩)

def oneCall : List (ReadAction Unit) := [.begin 0 10, .count 0, .check 0, .rows 0]

theorem threeRows_published {cursors : Nat → StreamPart × Option Cursor} {s : Readers Unit}
    (hrun : run step (init Unit ⟨1, 1⟩ "a" cursors) threeRows = some s) :
    s.outbox.rows.map (·.pos) = [some ⟨⟨1, 1⟩, 1⟩, some ⟨⟨1, 1⟩, 2⟩, some ⟨⟨1, 1⟩, 3⟩] ∧
      ∀ i, (s.readers i).at_ = .idle := by
  obtain rfl := Option.some.inj hrun
  exact ⟨rfl, fun _ => rfl⟩

/-- The first row, which the reader has read, is deleted; the reader is given the others. -/
theorem read_after_consecutive_past_a_purge :
    ∃ s, run step (init Unit ⟨1, 1⟩ "a" (cursorsAt 1))
        (threeRows ++ .outbox (.purge [0]) :: oneCall) = some s ∧
      (s.readers 0).cursor = some ⟨"a", ⟨1, 1⟩, 3⟩ ∧
      (s.readers 0).got = (List.range' 2 2).map (⟨⟨1, 1⟩, ·⟩) := by
  refine ⟨?s, ?hrun, ?hcursor,
    (have h := read_after_consecutive ⟨1, 1⟩ "a" (cursorsAt 1) _ ?s ?hmeets ?hrun 0 _ ?hcursor
     ?hgot)⟩
  case hrun | hcursor => rfl
  case hgot =>
    obtain ⟨start, ⟨⟩, -, -, hgot, -⟩ := h
    exact hgot
  refine .append (.of_always fun a ha s => ?_) fun t ht =>
    ⟨⟨?_, ?_⟩, fun u _ => .of_always fun a ha s => ?_⟩
  · rcases a with (_ | _ | _ | _ | _ | _ | _ | _ | _ | _ | ords) | _ | _ | _ | _ | _
    case outbox.purge => simp [threeRows] at ha
    all_goals trivial
  · -- the first row has none before it
    intro o o' r r' e q q' hr hr' _ hpos hpos' hlt hmem
    have hrows := (threeRows_published ht).1
    obtain rfl := mem_singleton.1 hmem
    have hr := congrArg (Option.map (·.pos)) hr
    have hr' := congrArg (Option.map (·.pos)) hr'
    rw [← getElem?_map, hrows, Option.map_some, hpos] at hr
    rw [← getElem?_map, hrows, Option.map_some, hpos'] at hr'
    obtain ⟨rfl, rfl⟩ := by simpa using hr'
    have := mem_of_getElem? hr
    simp at this
    omega
  · intro i limit current counter hat
    rw [(threeRows_published ht).2 i] at hat
    cases hat
  · cases a with
    | outbox a => simp [oneCall] at ha
    | _ => trivial

/-- The second row is deleted and the first is not: the reader is given the first and the third, and
no reset. -/
theorem second_row_passed_over :
    ∃ s, run step (init Unit ⟨1, 1⟩ "a" (cursorsAt 0))
        (threeRows ++ .outbox (.purge [1]) :: oneCall) = some s ∧
      (s.readers 0).since = some ⟨"a", ⟨1, 1⟩, 0⟩ ∧
      (s.readers 0).cursor = some ⟨"a", ⟨1, 1⟩, 3⟩ ∧
      (s.readers 0).got = [⟨⟨1, 1⟩, 1⟩, ⟨⟨1, 1⟩, 3⟩] ∧
      (s.outbox.rows[1]?).map (·.pos) = some (some ⟨⟨1, 1⟩, 2⟩) :=
  ⟨_, rfl, rfl, rfl, rfl, rfl⟩

end Readers
end BeSdk.Events

import BeSdk.Events.Outbox

/-!
# Numbering

What the counters, the epoch history and the numbers on the rows have to do with each
other, whatever transactions insert and number concurrently.

Numbering reads only part of a row, and most actions change none of it: `Table` is the
part that matters, `Table.Sound` what holds of it, and there are four operations on it
(a row inserted, a transaction ended, a numbering transaction committed).  The session
that holds a partition's lock carries what its commit will need (`Session.Ready`): the
counter is as it read it, its epoch is not behind the counter's, and the rows it picked
are, of those visible when it picked them, the first without a number.

That a row committed before another one was inserted gets the smaller position comes
from there: when the later row is picked the earlier one is visible, so it has a number
already or is picked before it.
-/

namespace BeSdk.Events

open Runs Option Function Nat

variable {E : Type*} {serial last : Nat} {fork : Option HistoryEntry} {epoch : Epoch}

/-- What numbering reads and writes of a row. -/
structure Slot where
  part : StreamPart
  tx : Nat
  pos : Option Point
  numberedBy : Option Nat
deriving DecidableEq, Repr

def Row.slot (r : Row E) : Slot := ⟨r.part, r.tx, r.pos, r.numberedBy⟩

structure Table where
  slots : List Slot
  txs : Nat → TxStatus
  counters : StreamPart → Counter
  history : List HistoryEntry

def State.table (s : State E) : Table := ⟨s.rows.map Row.slot, s.txs, s.counters, s.history⟩

namespace Table

/-- The row with this `ord` is numbered `pt` in its partition `p`. -/
def Numbered (t : Table) (ord : Nat) (p : StreamPart) (pt : Point) : Prop :=
  ∃ d, t.slots[ord]? = some d ∧ d.part = p ∧ d.pos = some pt

/-- `n` is the last sequence of the partition in the epoch: the counter's in the epoch it
is in, the history's fork in an epoch that was closed. -/
def Last (t : Table) (p : StreamPart) (e : Epoch) (n : Nat) : Prop :=
  t.counters p = ⟨some e, n⟩ ∨ ∃ h ∈ t.history, h.part = p ∧ h.old = e ∧ h.forkSeq = n

/-- The row's transaction committed before any row from `ord` on was inserted. -/
def CommittedBefore (t : Table) (d : Slot) (ord : Nat) : Prop :=
  ∃ at_, t.txs d.tx = .committed at_ ∧ at_ ≤ ord

/-- Whoever sees the row `o'` sees the row `o` too: it committed before, or it comes first in
the same transaction. -/
def Precedes (t : Table) (o : Nat) (d : Slot) (o' : Nat) (d' : Slot) : Prop :=
  t.CommittedBefore d o' ∨ d.tx = d'.tx ∧ o < o'

structure Sound (t : Table) : Prop where
  exact : ∀ p e n, t.Last p e n → ∀ q, (∃ ord, t.Numbered ord p ⟨e, q⟩) ↔ 1 ≤ q ∧ q ≤ n
  known : ∀ ord p pt, t.Numbered ord p pt → ∃ n, t.Last p pt.epoch n
  unique : ∀ ord ord' p pt, t.Numbered ord p pt → t.Numbered ord' p pt → ord = ord'
  closed : ∀ h ∈ t.history, ∃ e, (t.counters h.part).epoch = some e ∧ h.old < e
  committed : ∀ (ord : Nat) (d : Slot) (pt : Point), t.slots[ord]? = some d → d.pos = some pt →
    ∃ at_, t.txs d.tx = .committed at_
  inserted : ∀ (ord : Nat) (d : Slot) (at_ : Nat), t.slots[ord]? = some d →
    t.txs d.tx = .committed at_ → ord < at_
  ended : ∀ tx at_, t.txs tx = .committed at_ → at_ ≤ t.slots.length
  order : ∀ (o o' : Nat) (d d' : Slot) (pt' : Point), t.slots[o]? = some d →
    t.slots[o']? = some d' → d.part = d'.part → t.Precedes o d o' d' → d'.pos = some pt' →
    ∃ pt, d.pos = some pt ∧ pt < pt'
  within : ∀ (o o' : Nat) (d d' : Slot) (n : Nat) (pt pt' : Point), t.slots[o]? = some d →
    t.slots[o']? = some d' → d.part = d'.part → d.numberedBy = some n →
    d'.numberedBy = some n → d.pos = some pt → d'.pos = some pt' →
    pt.epoch = pt'.epoch ∧ (o < o' → pt.seq < pt'.seq)

variable {t : Table}

/-! ## Rows inserted, transactions ended -/

/-- An unnumbered row of a transaction that is still open. -/
def insert (t : Table) (p : StreamPart) (tx : Nat) : Table :=
  { t with slots := t.slots ++ [⟨p, tx, none, none⟩] }

variable {tx : Nat}

variable {p : StreamPart} {o : Nat} {picked : List Nat} {pt : Point}

theorem slots_insert {d : Slot} (h : (t.insert p tx).slots[o]? = some d) :
    t.slots[o]? = some d ∨ o = t.slots.length ∧ d = ⟨p, tx, none, none⟩ := by
  simp only [insert, List.getElem?_append] at h
  split at h
  · exact .inl h
  rename_i hlen
  rcases Nat.eq_or_lt_of_le (Nat.le_of_not_lt hlen) with heq | hlt
  · right
    simp only [heq, Nat.sub_self] at h
    exact ⟨heq.symm, by simpa using h.symm⟩
  rw [List.getElem?_eq_none (by simp; omega)] at h
  simp at h

theorem slots_insert_of {d : Slot} (h : t.slots[o]? = some d) :
    (t.insert p tx).slots[o]? = some d := by
  have hlt := (List.getElem?_eq_some_iff.mp h).1
  simp [insert, List.getElem?_append_left hlt, h]

theorem numbered_insert {p' : StreamPart} :
    (t.insert p tx).Numbered o p' pt ↔ t.Numbered o p' pt := by
  constructor
  · rintro ⟨d, hd, hpart, hpos⟩
    rcases slots_insert hd with hd | ⟨-, rfl⟩
    · exact ⟨d, hd, hpart, hpos⟩
    simp at hpos
  rintro ⟨d, hd, hpart, hpos⟩
  exact ⟨d, slots_insert_of hd, hpart, hpos⟩

theorem Sound.insert (h : t.Sound) {p : StreamPart} (hactive : t.txs tx = .active) :
    (t.insert p tx).Sound where
  exact p' e n hlast q := by simpa only [numbered_insert] using h.exact p' e n hlast q
  known o p' pt hnum := h.known o p' pt (numbered_insert.mp hnum)
  unique o o' p' pt hnum hnum' :=
    h.unique o o' p' pt (numbered_insert.mp hnum) (numbered_insert.mp hnum')
  closed := h.closed
  committed o d pt hd hpos := by
    rcases slots_insert hd with hd | ⟨-, rfl⟩
    · exact h.committed o d pt hd hpos
    simp at hpos
  inserted o d at_ hd hat := by
    rcases slots_insert hd with hd | ⟨-, rfl⟩
    · exact h.inserted o d at_ hd hat
    simp [Table.insert, hactive] at hat
  ended tx' at_ hat := by
    have := h.ended tx' at_ hat
    simp only [Table.insert, List.length_append]
    omega
  order o o' d d' pt' hd hd' hpart hbefore hpos := by
    rcases slots_insert hd' with hd' | ⟨-, rfl⟩
    · rcases slots_insert hd with hd | ⟨-, rfl⟩
      · exact h.order o o' d d' pt' hd hd' hpart hbefore hpos
      -- a row of the open transaction precedes no numbered one
      rcases hbefore with ⟨at_, hat, -⟩ | ⟨htx, -⟩
      · simp [Table.insert, hactive] at hat
      obtain ⟨at_, hat⟩ := h.committed o' d' pt' hd' hpos
      simp [← htx, hactive] at hat
    simp at hpos
  within o o' d d' n pt pt' hd hd' hpart hn hn' hpos hpos' := by
    rcases slots_insert hd with hd | ⟨-, rfl⟩
    · rcases slots_insert hd' with hd' | ⟨-, rfl⟩
      · exact h.within o o' d d' n pt pt' hd hd' hpart hn hn' hpos hpos'
      simp at hpos'
    simp at hpos

/-- A transaction ended: nothing that was committed changes, and what commits now does so
after every row there is. -/
def finishTx (t : Table) (tx : Nat) (status : TxStatus) : Table :=
  { t with txs := update t.txs tx status }

variable {status : TxStatus}

theorem txs_finishTx {tx' at_ : Nat}
    (hstatus : ∀ at_, status = .committed at_ → at_ = t.slots.length)
    (h : (t.finishTx tx status).txs tx' = .committed at_) :
    t.txs tx' = .committed at_ ∨ at_ = t.slots.length := by
  by_cases heq : tx' = tx
  · subst heq
    simp only [finishTx, update_self] at h
    exact .inr (hstatus at_ h)
  simp only [finishTx, update_of_ne heq] at h
  exact .inl h

theorem Sound.finishTx (h : t.Sound) (hactive : t.txs tx = .active)
    (hstatus : ∀ at_, status = .committed at_ → at_ = t.slots.length) :
    (t.finishTx tx status).Sound where
  exact := h.exact
  known := h.known
  unique := h.unique
  closed := h.closed
  committed o d pt hd hpos := by
    obtain ⟨at_, hat⟩ := h.committed o d pt hd hpos
    have hne : d.tx ≠ tx := fun heq => by simp [heq, hactive] at hat
    exact ⟨at_, by simp [Table.finishTx, update_of_ne hne, hat]⟩
  inserted o d at_ hd hat := by
    rcases txs_finishTx hstatus hat with hat | rfl
    · exact h.inserted o d at_ hd hat
    exact (List.getElem?_eq_some_iff.mp hd).1
  ended tx' at_ hat := by
    rcases txs_finishTx hstatus hat with hat | rfl
    · exact h.ended tx' at_ hat
    exact le_refl _
  order o o' d d' pt' hd hd' hpart := by
    rintro (⟨at_, hat, hle⟩ | hsame) hpos
    · rcases txs_finishTx hstatus hat with hat | rfl
      · exact h.order o o' d d' pt' hd hd' hpart (.inl ⟨at_, hat, hle⟩) hpos
      have := (List.getElem?_eq_some_iff.mp hd').1
      exact absurd hle (not_le.mpr this)
    exact h.order o o' d d' pt' hd hd' hpart (.inr hsame) hpos
  within := h.within

/-! ## A numbering transaction committed -/

/-- The rows a numbering statement picked: rows of the partition, committed and without a
number, in `ord` order, and with each of them every such row that precedes it. -/
structure Picked (t : Table) (p : StreamPart) (picked : List Nat) : Prop where
  sorted : picked.Pairwise (· < ·)
  rows : ∀ o ∈ picked, ∃ d at_, t.slots[o]? = some d ∧ d.part = p ∧ d.pos = none ∧
    t.txs d.tx = .committed at_
  first : ∀ o' ∈ picked, ∀ (o : Nat) (d d' : Slot), t.slots[o]? = some d →
    t.slots[o']? = some d' → d.part = p → t.Precedes o d o' d' → d.pos = none → o ∈ picked

/-- What the transaction needs at its commit: the counter as it was read, an epoch not
behind it, and rows picked as above. -/
structure Ready (t : Table) (p : StreamPart) (fork : Option HistoryEntry) (epoch : Epoch)
    (last : Nat) : Prop where
  start : startEpoch p (t.counters p) epoch = (fork, last)
  ahead : ∀ old, (t.counters p).epoch = some old → old ≤ epoch

/-- `numberIn`'s writes. -/
def number (t : Table) (p : StreamPart) (serial : Nat) (fork : Option HistoryEntry)
    (epoch : Epoch) (last : Nat) (picked : List Nat) : Table where
  slots := t.slots.mapIdx fun o d =>
    if o ∈ picked then
      { d with pos := some ⟨epoch, last + picked.idxOf o + 1⟩, numberedBy := some serial }
    else d
  txs := t.txs
  counters := update t.counters p ⟨some epoch, last + picked.length⟩
  history := t.history ++ fork.toList

section Number
variable {p : StreamPart} {picked : List Nat} {o : Nat} {d : Slot}

/-- A row after the transaction: as it was, or picked and numbered. -/
theorem slots_number (h : (t.number p serial fork epoch last picked).slots[o]? = some d) :
    o ∉ picked ∧ t.slots[o]? = some d ∨ o ∈ picked ∧ ∃ d₀, t.slots[o]? = some d₀ ∧
        d = ⟨d₀.part, d₀.tx, some ⟨epoch, last + picked.idxOf o + 1⟩, some serial⟩ := by
  simp only [number, List.getElem?_mapIdx, map_eq_some_iff] at h
  obtain ⟨d₀, hd₀, rfl⟩ := h
  by_cases hmem : o ∈ picked
  · exact .inr ⟨hmem, d₀, hd₀, by simp [hmem]⟩
  exact .inl ⟨hmem, by simp [hmem, hd₀]⟩

theorem slots_number_of_notMem (h : t.slots[o]? = some d)
    (hmem : o ∉ picked) : (t.number p serial fork epoch last picked).slots[o]? = some d := by
  simp [number, List.getElem?_mapIdx, h, hmem]

theorem Picked.notMem (hpicked : t.Picked p picked)
    (hd : t.slots[o]? = some d) (hpos : d.pos = some pt) : o ∉ picked := by
  intro hmem
  obtain ⟨d', at_, hd', -, hnone, -⟩ := hpicked.rows o hmem
  rw [hd, some.injEq] at hd'
  simp [← hd', hpos] at hnone

variable {p' : StreamPart}

theorem numbered_number (hpicked : t.Picked p picked) :
    (t.number p serial fork epoch last picked).Numbered o p' pt ↔
      t.Numbered o p' pt ∨ p' = p ∧ o ∈ picked ∧ pt = ⟨epoch, last + picked.idxOf o + 1⟩ := by
  constructor
  · rintro ⟨d, hd, rfl, hpos⟩
    rcases slots_number hd with ⟨-, hd⟩ | ⟨hmem, d₀, hd₀, rfl⟩
    · exact .inl ⟨d, hd, rfl, hpos⟩
    obtain ⟨d₁, at_, hd₁, hpart, -, -⟩ := hpicked.rows o hmem
    rw [hd₀, some.injEq] at hd₁
    exact .inr ⟨by rw [← hpart, hd₁], hmem, by simpa using hpos.symm⟩
  rintro (⟨d, hd, hpart, hpos⟩ | ⟨rfl, hmem, rfl⟩)
  · exact ⟨d, slots_number_of_notMem hd (hpicked.notMem hd hpos), hpart, hpos⟩
  obtain ⟨d, at_, hd, hpart, -, -⟩ := hpicked.rows o hmem
  refine ⟨⟨d.part, d.tx, some ⟨epoch, last + picked.idxOf o + 1⟩, some serial⟩, ?_, hpart, rfl⟩
  simp [number, List.getElem?_mapIdx, hd, hmem]

/-- The counter goes on from its last sequence, or from 0 in an epoch later than any before. -/
theorem Ready.cases (hready : t.Ready p fork epoch last) :
    (t.counters p = ⟨some epoch, last⟩ ∧ fork = none) ∨
      (last = 0 ∧ (∀ old, (t.counters p).epoch = some old → old < epoch) ∧
        fork = (t.counters p).epoch.map fun old => ⟨p, old, (t.counters p).last, epoch⟩) := by
  have hstart := hready.start
  unfold startEpoch at hstart
  split at hstart
  next heq =>
    rw [Prod.mk.injEq] at hstart
    left
    refine ⟨?_, hstart.1.symm⟩
    rw [← heq, ← hstart.2]
  rename_i hne
  rw [Prod.mk.injEq] at hstart
  refine .inr ⟨hstart.2.symm, fun old hold => ?_, hstart.1.symm⟩
  refine lt_of_le_of_ne (hready.ahead old hold) fun heq => hne ?_
  rw [hold, heq]

variable {e : Epoch} {n : Nat}

section
variable (hready : t.Ready p fork epoch last) (h : t.Sound)
include hready h

/-- No epoch the partition was numbered in before is ahead of the one it is numbered in now. -/
theorem Ready.epoch_le
    (hlast : t.Last p e n) : e < epoch ∨ t.counters p = ⟨some epoch, last⟩ ∧ e = epoch ∧ n =
      last := by
  rcases hlast with hcounter | ⟨entry, hentry, rfl, rfl, rfl⟩
  · rcases hready.cases with ⟨hsame, -⟩ | ⟨-, hlater, -⟩
    · rw [hcounter] at hsame
      simp only [Counter.mk.injEq, some.injEq] at hsame
      exact .inr ⟨by rw [hcounter, hsame.1, hsame.2], hsame⟩
    exact .inl (hlater e (by rw [hcounter]))
  obtain ⟨current, hcurrent, hlt⟩ := h.closed entry hentry
  exact .inl (lt_of_lt_of_le hlt (hready.ahead current hcurrent))

/-- In the epoch it is numbered in now, the partition has the sequences up to `last`. -/
theorem Ready.numbered_iff (q : Nat) : (∃ o, t.Numbered o p ⟨epoch, q⟩) ↔ 1 ≤ q ∧ q ≤ last := by
  rcases hready.cases with ⟨hsame, -⟩ | ⟨rfl, hlater, -⟩
  · exact h.exact p epoch last (.inl hsame) q
  constructor
  · rintro ⟨o, hnum⟩
    obtain ⟨n, hn⟩ := h.known o p _ hnum
    rcases hready.epoch_le h hn with hlt | ⟨hsame, -, -⟩
    · exact absurd hlt (lt_irrefl _)
    exact absurd (hlater epoch (by rw [hsame])) (lt_irrefl _)
  intro hq
  omega

/-- Every number the partition has is before the new ones. -/
theorem Ready.lt_new {k : Nat} (hnum : t.Numbered o p pt) : pt < ⟨epoch, last + k + 1⟩ := by
  rw [Point.lt_iff]
  obtain ⟨n, hn⟩ := h.known o p pt hnum
  rcases hready.epoch_le h hn with hlt | ⟨-, heq, -⟩
  · exact .inl hlt
  refine .inr ⟨heq, ?_⟩
  have hq := ((hready.numbered_iff h pt.seq).mp ⟨o, by rwa [← heq]⟩).2
  change pt.seq < last + k + 1
  omega

end

theorem Picked.idxOf_lt (hpicked : t.Picked p picked) {o' : Nat} (ho : o ∈ picked)
    (ho' : o' ∈ picked) (hlt : o < o') : picked.idxOf o < picked.idxOf o' := by
  by_contra hle
  have hi := List.idxOf_lt_length_iff.mpr ho
  have hi' := List.idxOf_lt_length_iff.mpr ho'
  rcases Nat.eq_or_lt_of_le (Nat.le_of_not_lt hle) with heq | hgt
  · have hsame : o' = o := (List.idxOf_inj ho').mp heq
    omega
  have hcontra := List.pairwise_iff_getElem.mp hpicked.sorted _ _ hi' hi hgt
  rw [List.getElem_idxOf, List.getElem_idxOf] at hcontra
  omega

/-- The new numbers are the ones after `last`. -/
theorem Picked.exists_idxOf_iff (hpicked : t.Picked p picked) (q : Nat) :
    (∃ o ∈ picked, q = last + picked.idxOf o + 1) ↔ last + 1 ≤ q ∧ q ≤ last + picked.length := by
  constructor
  · rintro ⟨o, ho, rfl⟩
    have := List.idxOf_lt_length_iff.mpr ho
    omega
  rintro ⟨hlow, hhigh⟩
  have hi : q - last - 1 < picked.length := by omega
  have hnodup : picked.Nodup := hpicked.sorted.imp fun hlt => ne_of_lt hlt
  refine ⟨picked[q - last - 1], List.getElem_mem hi, ?_⟩
  rw [hnodup.idxOf_getElem _ hi]
  omega

theorem last_number (hlast : (t.number p serial fork epoch last picked).Last p' e n) :
    p' = p ∧ e = epoch ∧ n = last + picked.length ∨ p' ≠ p ∧ t.counters p' = ⟨some e, n⟩ ∨
      (∃ h ∈ t.history, h.part = p' ∧ h.old = e ∧ h.forkSeq = n) ∨
      ∃ h ∈ fork, h.part = p' ∧ h.old = e ∧ h.forkSeq = n := by
  rcases hlast with hcounter | ⟨h, hmem, hh⟩
  · by_cases heq : p' = p
    · subst heq
      simp only [number, update_self, Counter.mk.injEq, some.injEq] at hcounter
      exact .inl ⟨rfl, hcounter.1.symm, hcounter.2.symm⟩
    simp only [number, update_of_ne heq] at hcounter
    exact .inr (.inl ⟨heq, hcounter⟩)
  rcases List.mem_append.mp hmem with hmem | hmem
  · exact .inr (.inr (.inl ⟨h, hmem, hh⟩))
  exact .inr (.inr (.inr ⟨h, by simpa using hmem, hh⟩))

/-- Where the partition was before is still on record. -/
theorem Ready.last_of (hready : t.Ready p fork epoch last) (hlast : t.Last p' e n) :
    ∃ n', (t.number p serial fork epoch last picked).Last p' e n' := by
  rcases hlast with hcounter | ⟨h, hmem, hh⟩
  · by_cases heq : p' = p
    · subst heq
      rcases hready.cases with ⟨hsame, -⟩ | ⟨-, -, hfork⟩
      · refine ⟨last + picked.length, .inl ?_⟩
        rw [hcounter] at hsame
        simp only [Counter.mk.injEq] at hsame
        simp [number, hsame.1]
      refine ⟨n, .inr ⟨⟨p', e, n, epoch⟩, ?_, rfl, rfl, rfl⟩⟩
      simp [number, hfork, hcounter]
    exact ⟨n, .inl (by simpa [number, update_of_ne heq] using hcounter)⟩
  exact ⟨n, .inr ⟨h, List.mem_append_left _ hmem, hh⟩⟩

/-- A history entry the transaction writes closes the epoch the counter was in. -/
theorem Ready.fork_eq (hready : t.Ready p fork epoch last) {h : HistoryEntry} (hmem : h ∈ fork) :
    h.part = p ∧ t.counters p = ⟨some h.old, h.forkSeq⟩ ∧ h.old < epoch := by
  rcases hready.cases with ⟨-, rfl⟩ | ⟨-, hlater, rfl⟩
  · simp at hmem
  rw [mem_def, map_eq_some_iff] at hmem
  obtain ⟨old, hold, rfl⟩ := hmem
  exact ⟨rfl, by rw [← hold], hlater old hold⟩

section
variable (h : t.Sound)
include h

theorem Sound.number_exact (hready : t.Ready p fork epoch last) (hpicked : t.Picked p picked)
    (hlast : (t.number p serial fork epoch last picked).Last p' e n) (q : Nat) :
    (∃ o, (t.number p serial fork epoch last picked).Numbered o p' ⟨e, q⟩) ↔ 1 ≤ q ∧ q ≤ n := by
  simp only [numbered_number hpicked]
  -- the epochs and partitions that are not numbered in keep their rows
  have hother : t.Last p' e n → ¬ (p' = p ∧ e = epoch) →
      ((∃ o, t.Numbered o p' ⟨e, q⟩ ∨
        p' = p ∧ o ∈ picked ∧ (⟨e, q⟩ : Point) = ⟨epoch, last + picked.idxOf o + 1⟩) ↔
          1 ≤ q ∧ q ≤ n) := by
    intro hold hne
    rw [← h.exact p' e n hold q]
    refine exists_congr fun o => or_iff_left ?_
    rintro ⟨rfl, -, hpt⟩
    exact hne ⟨rfl, congrArg Point.epoch hpt⟩
  rcases last_number hlast with ⟨rfl, rfl, rfl⟩ | ⟨hne, hcounter⟩ | ⟨entry, hmem, rfl, rfl, rfl⟩ |
    ⟨entry, hmem, rfl, rfl, rfl⟩
  · rw [exists_or]
    have hnew : (∃ o, p' = p' ∧ o ∈ picked ∧
        (⟨e, q⟩ : Point) = ⟨e, last + picked.idxOf o + 1⟩) ↔
        ∃ o ∈ picked, q = last + picked.idxOf o + 1 := by
      simp
    rw [hnew, hready.numbered_iff h, hpicked.exists_idxOf_iff]
    omega
  · exact hother (.inl hcounter) fun hcontra => hne hcontra.1
  · refine hother (.inr ⟨entry, hmem, rfl, rfl, rfl⟩) fun hcontra => ?_
    obtain ⟨current, hcurrent, hlt⟩ := h.closed entry hmem
    have hle := hready.ahead current (hcontra.1 ▸ hcurrent)
    exact absurd (hcontra.2 ▸ hlt) (not_lt.mpr hle)
  obtain ⟨hpart, hcounter, hlt⟩ := hready.fork_eq hmem
  exact hother (.inl (by rw [hpart]; exact hcounter)) fun hcontra => hlt.ne hcontra.2

/-- A row that precedes another one has the smaller `ord`. -/
theorem Sound.lt_of_precedes {o' : Nat} {d' : Slot} (hd : t.slots[o]? = some d)
    (hbefore : t.Precedes o d o' d') : o < o' := by
  rcases hbefore with ⟨at_, hat, hle⟩ | ⟨-, hlt⟩
  · exact lt_of_lt_of_le (h.inserted o d at_ hd hat) hle
  exact hlt

theorem Sound.number_order (hready : t.Ready p fork epoch last)
    (hpicked : t.Picked p picked) {o' : Nat} {d' : Slot} {pt' : Point}
    (hd : (t.number p serial fork epoch last picked).slots[o]? = some d)
    (hd' : (t.number p serial fork epoch last picked).slots[o']? = some d')
    (hpart : d.part = d'.part)
    (hbefore : (t.number p serial fork epoch last picked).Precedes o d o' d')
    (hpos : d'.pos = some pt') : ∃ pt, d.pos = some pt ∧ pt < pt' := by
  rcases slots_number hd' with ⟨-, hd'⟩ | ⟨hmem', d₀', hd₀', rfl⟩
  · -- the later row had its number before, so the earlier one had too
    rcases slots_number hd with ⟨-, hd⟩ | ⟨hmem, d₀, hd₀, rfl⟩
    · exact h.order o o' d d' pt' hd hd' hpart hbefore hpos
    obtain ⟨pt, hpt, -⟩ := h.order o o' d₀ d' pt' hd₀ hd' hpart hbefore hpos
    exact absurd hmem (hpicked.notMem hd₀ hpt)
  obtain ⟨d₁, at₁, hd₁, hp, -, -⟩ := hpicked.rows o' hmem'
  obtain rfl : d₀' = d₁ := by rw [hd₀'] at hd₁; simpa using hd₁
  obtain rfl : pt' = ⟨epoch, last + picked.idxOf o' + 1⟩ := by simpa using hpos.symm
  rcases slots_number hd with ⟨hmem, hd⟩ | ⟨hmem, d₀, hd₀, rfl⟩
  · cases hnone : d.pos with
    | none =>
      exact absurd (hpicked.first o' hmem' o d d₀' hd hd₀' (hpart.trans hp) hbefore hnone) hmem
    | some pt => exact ⟨pt, rfl, hready.lt_new h ⟨d, hd, hpart.trans hp, hnone⟩⟩
  have hlt : o < o' := h.lt_of_precedes hd₀ hbefore
  refine ⟨_, rfl, Point.lt_iff.mpr (.inr ⟨rfl, ?_⟩)⟩
  have := hpicked.idxOf_lt hmem hmem' hlt
  change last + picked.idxOf o + 1 < last + picked.idxOf o' + 1
  omega

theorem Sound.number (hready : t.Ready p fork epoch last) (hpicked : t.Picked p picked)
    (hfresh : ∀ (o : Nat) (d : Slot), t.slots[o]? = some d → d.part = p →
      d.numberedBy ≠ some serial) :
    (t.number p serial fork epoch last picked).Sound where
  exact p' e n hlast q := h.number_exact hready hpicked hlast q
  known o p' pt hnum := by
    rcases (numbered_number hpicked).mp hnum with hnum | ⟨rfl, -, rfl⟩
    · obtain ⟨n, hn⟩ := h.known o p' pt hnum
      exact hready.last_of hn
    exact ⟨last + picked.length, .inl (by simp [Table.number])⟩
  unique o o' p' pt hnum hnum' := by
    rcases (numbered_number hpicked).mp hnum with hold | ⟨rfl, hmem, rfl⟩
    · rcases (numbered_number hpicked).mp hnum' with hold' | ⟨rfl, hmem', rfl⟩
      · exact h.unique o o' p' pt hold hold'
      exact absurd (hready.lt_new h hold) (lt_irrefl _)
    rcases (numbered_number hpicked).mp hnum' with hold' | ⟨-, hmem', heq⟩
    · exact absurd (hready.lt_new h hold') (lt_irrefl _)
    simp only [Point.mk.injEq, true_and] at heq
    exact (List.idxOf_inj hmem).mp (by omega)
  closed entry hmem := by
    rcases List.mem_append.mp hmem with hmem | hmem
    · obtain ⟨current, hcurrent, hlt⟩ := h.closed entry hmem
      by_cases heq : entry.part = p
      · refine ⟨epoch, by simp [Table.number, heq], ?_⟩
        exact lt_of_lt_of_le hlt (hready.ahead current (heq ▸ hcurrent))
      exact ⟨current, by simpa [Table.number, update_of_ne heq] using hcurrent, hlt⟩
    obtain ⟨hpart, -, hlt⟩ := hready.fork_eq (by simpa using hmem)
    exact ⟨epoch, by simp [Table.number, hpart], hlt⟩
  committed o d pt hd hpos := by
    rcases slots_number hd with ⟨-, hd⟩ | ⟨hmem, d₀, hd₀, rfl⟩
    · exact h.committed o d pt hd hpos
    obtain ⟨d₁, at_, hd₁, -, -, hat⟩ := hpicked.rows o hmem
    rw [hd₀, some.injEq] at hd₁
    exact ⟨at_, by rw [← hat, ← hd₁]; rfl⟩
  inserted o d at_ hd hat := by
    rcases slots_number hd with ⟨-, hd⟩ | ⟨-, d₀, hd₀, rfl⟩
    · exact h.inserted o d at_ hd hat
    exact h.inserted o d₀ at_ hd₀ hat
  ended tx at_ hat := by simpa [Table.number] using h.ended tx at_ hat
  order o o' d d' pt' hd hd' hpart hbefore hpos :=
    h.number_order hready hpicked hd hd' hpart hbefore hpos
  within o o' d d' n pt pt' hd hd' hpart hn hn' hpos hpos' := by
    rcases slots_number hd with ⟨-, hd⟩ | ⟨hmem, d₀, hd₀, rfl⟩
    · rcases slots_number hd' with ⟨-, hd'⟩ | ⟨hmem', d₀', hd₀', rfl⟩
      · exact h.within o o' d d' n pt pt' hd hd' hpart hn hn' hpos hpos'
      obtain ⟨d₁, at_, hd₁, hp, -, -⟩ := hpicked.rows o' hmem'
      rw [hd₀', some.injEq] at hd₁
      exact absurd (hn.trans hn'.symm) (hfresh o d hd (by rw [hpart, ← hp, ← hd₁]))
    rcases slots_number hd' with ⟨-, hd'⟩ | ⟨hmem', d₀', hd₀', rfl⟩
    · obtain ⟨d₁, at_, hd₁, hp, -, -⟩ := hpicked.rows o hmem
      rw [hd₀, some.injEq] at hd₁
      exact absurd (hn'.trans hn.symm) (hfresh o' d' hd' (by rw [← hpart, ← hp, ← hd₁]))
    obtain rfl : pt = ⟨epoch, last + picked.idxOf o + 1⟩ := by simpa using hpos.symm
    obtain rfl : pt' = ⟨epoch, last + picked.idxOf o' + 1⟩ := by simpa using hpos'.symm
    refine ⟨rfl, fun hlt => ?_⟩
    have := hpicked.idxOf_lt hmem hmem' hlt
    change last + picked.idxOf o + 1 < last + picked.idxOf o' + 1
    omega

end
end Number

/-! ## What a picking transaction relies on, while others commit -/

theorem Picked.insert {p q : StreamPart} {picked : List Nat} (h : t.Picked p picked)
    (hactive : t.txs tx = .active) : (t.insert q tx).Picked p picked where
  sorted := h.sorted
  rows o ho := by
    obtain ⟨d, at_, hd, hrest⟩ := h.rows o ho
    exact ⟨d, at_, slots_insert_of hd, hrest⟩
  first o' ho' o d d' hd hd' hpart hbefore hpos := by
    obtain ⟨d₁, at₁, hd₁, -, -, hat₁⟩ := h.rows o' ho'
    obtain rfl : d₁ = d' := by simpa [slots_insert_of hd₁] using hd'
    rcases slots_insert hd with hd | ⟨-, rfl⟩
    · exact h.first o' ho' o d d₁ hd hd₁ hpart hbefore hpos
    rcases hbefore with ⟨at_, hat, -⟩ | ⟨htx, -⟩
    · simp [Table.insert, hactive] at hat
    simp [← htx, hactive] at hat₁

theorem Picked.finishTx (h : t.Picked p picked) (hactive : t.txs tx = .active)
    (hstatus : ∀ at_, status = .committed at_ → at_ = t.slots.length) :
    (t.finishTx tx status).Picked p picked where
  sorted := h.sorted
  rows o ho := by
    obtain ⟨d, at_, hd, hpart, hpos, hat⟩ := h.rows o ho
    have hne : d.tx ≠ tx := fun heq => by simp [heq, hactive] at hat
    exact ⟨d, at_, hd, hpart, hpos, by simp [Table.finishTx, update_of_ne hne, hat]⟩
  first o' ho' o d d' hd hd' hpart hbefore hpos := by
    rcases hbefore with ⟨at_, hat, hle⟩ | hsame
    · rcases txs_finishTx hstatus hat with hat | rfl
      · exact h.first o' ho' o d d' hd hd' hpart (.inl ⟨at_, hat, hle⟩) hpos
      exact absurd hle (not_le.mpr (List.getElem?_eq_some_iff.mp hd').1)
    exact h.first o' ho' o d d' hd hd' hpart (.inr hsame) hpos

theorem Picked.number {p q : StreamPart} {picked picked' : List Nat} (h : t.Picked p picked)
    (h' : t.Picked q picked')
    (hne : p ≠ q) : (t.number q serial fork epoch last picked').Picked p picked where
  sorted := h.sorted
  rows o ho := by
    obtain ⟨d, at_, hd, hpart, hrest⟩ := h.rows o ho
    refine ⟨d, at_, slots_number_of_notMem hd fun hmem => ?_, hpart, hrest⟩
    obtain ⟨d', _, hd', hpart', -⟩ := h'.rows o hmem
    rw [hd, some.injEq] at hd'
    exact hne (by rw [← hpart, hd', hpart'])
  first o' ho' o d d' hd hd' hpart hbefore hpos := by
    rcases slots_number hd with ⟨-, hd⟩ | ⟨-, d₀, hd₀, rfl⟩
    · rcases slots_number hd' with ⟨-, hd'⟩ | ⟨-, d₀', hd₀', rfl⟩
      · exact h.first o' ho' o d d' hd hd' hpart hbefore hpos
      exact h.first o' ho' o d d₀' hd hd₀' hpart hbefore hpos
    simp at hpos

theorem Ready.of_counters {t' : Table} (h : t.Ready p fork epoch last)
    (hcounters : t'.counters p = t.counters p) : t'.Ready p fork epoch last :=
  ⟨by rw [hcounters]; exact h.start, by rw [hcounters]; exact h.ahead⟩

end Table

/-! ## States -/

def Stage.Ok (s : State E) (p : StreamPart) : Stage → Prop
  | .locked counter => counter = s.counters p
  | .started fork epoch last => epoch ≤ s.epoch ∧ s.table.Ready p fork epoch last
  | .assigned fork epoch last picked =>
    epoch ≤ s.epoch ∧ s.table.Ready p fork epoch last ∧ s.table.Picked p picked

structure Session.Ok (s : State E) (p : StreamPart) (session : Session) : Prop where
  serial : session.serial < s.serial
  fresh : ∀ (o : Nat) (d : Slot), s.table.slots[o]? = some d → d.part = p →
    d.numberedBy ≠ some session.serial
  stage : session.stage.Ok s p

structure Inv (s : State E) : Prop where
  table : s.table.Sound
  epochs : ∀ p e, (s.counters p).epoch = some e → e ≤ s.epoch
  serials : ∀ (o : Nat) (d : Slot) (n : Nat), s.table.slots[o]? = some d →
    d.numberedBy = some n → n < s.serial
  kept : ∀ (o : Nat) (r : Row E), s.rows[o]? = some r → r.published = true ∨ r.purged = true →
    r.pos.isSome
  sessions : ∀ p session, s.sessions p = some session → session.Ok s p

variable {s s' : State E} {a : Action E} {p : StreamPart} {o : Nat}

theorem slots_of_rows {r : Row E} (hr : s.rows[o]? = some r) : s.table.slots[o]? = some r.slot := by
  simp [State.table, hr]

theorem rows_of_slots {d : Slot} (hd : s.table.slots[o]? = some d) :
    ∃ r, s.rows[o]? = some r ∧ r.slot = d := by
  simpa [State.table] using hd

theorem mem_take_of_lt {l : List Nat} {n o' : Nat} (hsorted : l.Pairwise (· < ·))
    (ho' : o' ∈ l.take n) (ho : o ∈ l) (hlt : o < o') : o ∈ l.take n := by
  rw [← List.take_append_drop n l] at ho hsorted
  rcases List.mem_append.mp ho with ho | ho
  · exact ho
  have := (List.pairwise_append.mp hsorted).2.2 o' ho' o ho
  omega

theorem committed_of_visible {r : Row E} (hvisible : s.visible r = true) :
    ∃ at_, s.txs r.tx = .committed at_ := by
  unfold State.visible at hvisible
  split at hvisible
  · next at_ hat => exact ⟨at_, hat⟩
  cases hvisible

/-- The numbering statement picks as `Picked` says. -/
theorem Inv.picked_unnumbered (h : Inv s) (p : StreamPart) (batch : Nat) :
    s.table.Picked p (s.unnumbered p batch) := by
  constructor
  · exact (ordsWhere_sorted _ _).sublist (List.take_sublist _ _)
  · intro o ho
    obtain ⟨r, hr, hrest⟩ := mem_ordsWhere.mp (List.mem_of_mem_take ho)
    obtain ⟨hpart, hpos, hvisible⟩ := by simpa using hrest
    obtain ⟨at_, hat⟩ := committed_of_visible hvisible
    exact ⟨r.slot, at_, slots_of_rows hr, hpart, hpos, hat⟩
  intro o' ho' o d d' hd hd' hpart hbefore hpos
  obtain ⟨r, hr, rfl⟩ := rows_of_slots hd
  have hlt := h.table.lt_of_precedes hd hbefore
  obtain ⟨at_, hat⟩ : ∃ at_, s.table.txs r.slot.tx = .committed at_ := by
    rcases hbefore with ⟨at_, hat, -⟩ | ⟨htx, -⟩
    · exact ⟨at_, hat⟩
    obtain ⟨r', hr', hrest⟩ := mem_ordsWhere.mp (List.mem_of_mem_take ho')
    obtain ⟨-, -, hvisible⟩ := by simpa using hrest
    obtain rfl : r'.slot = d' := by simpa [slots_of_rows hr'] using hd'
    exact htx ▸ committed_of_visible hvisible
  refine mem_take_of_lt (ordsWhere_sorted _ _) ho' (mem_ordsWhere.mpr ⟨r, hr, ?_⟩) hlt
  · -- a row without a number was never deleted
    have hkept : r.purged = false := by
      by_contra hpurged
      have := h.kept o r hr (.inr (by simpa using hpurged))
      simp [show r.pos = none from hpos] at this
    replace hat : s.txs r.tx = .committed at_ := hat
    replace hpart : r.part = p := hpart
    replace hpos : r.pos = none := hpos
    simp [State.visible, hat, hkept, hpart, hpos]

/-! ## One step -/

theorem Session.Ok.transfer {p : StreamPart} {session : Session} (h : session.Ok s p)
    (hserial : s.serial ≤ s'.serial) (hepoch : s.epoch ≤ s'.epoch)
    (hcounters : s'.counters p = s.counters p)
    (hslots : ∀ (o : Nat) (d : Slot), s'.table.slots[o]? = some d → d.part = p →
      s.table.slots[o]? = some d ∨ d.numberedBy = none)
    (hpicked : ∀ picked, s.table.Picked p picked → s'.table.Picked p picked) :
    session.Ok s' p where
  serial := lt_of_lt_of_le h.serial hserial
  fresh o d hd hpart := by
    rcases hslots o d hd hpart with hd | hnone
    · exact h.fresh o d hd hpart
    simp [hnone]
  stage := by
    have hstage := h.stage
    generalize session.stage = stage at hstage ⊢
    cases stage with
    | locked counter => exact hstage.trans hcounters.symm
    | started fork epoch last => exact ⟨hstage.1.trans hepoch, hstage.2.of_counters hcounters⟩
    | assigned fork epoch last picked =>
      exact ⟨hstage.1.trans hepoch, hstage.2.1.of_counters hcounters, hpicked _ hstage.2.2⟩

/-- A step that changes no row's number and no counter. -/
theorem Inv.sameTable (h : Inv s) (htable : s'.table = s.table) (hepoch : s.epoch ≤ s'.epoch)
    (hserial : s.serial ≤ s'.serial) (hkept : ∀ (o : Nat) (r : Row E), s'.rows[o]? = some r →
      r.published = true ∨ r.purged = true → r.pos.isSome)
    (hsessions : ∀ p session, s'.sessions p = some session →
      s.sessions p = some session ∨ session.Ok s' p) : Inv s' where
  table := htable ▸ h.table
  epochs p e he := by
    have hcounters : s'.counters = s.counters := congrArg Table.counters htable
    exact (h.epochs p e (hcounters ▸ he)).trans hepoch
  serials o d n hd hn := lt_of_lt_of_le (h.serials o d n (htable ▸ hd) hn) hserial
  kept := hkept
  sessions p session hs := by
    rcases hsessions p session hs with hs | hok
    · refine (h.sessions p session hs).transfer hserial hepoch
        (congrFun (congrArg Table.counters htable) p) ?_ ?_
      · exact fun o d hd _ => .inl (htable ▸ hd)
      exact fun picked hp => htable ▸ hp
    exact hok

theorem sessions_update {q : StreamPart} {new : Option Session} {session : Session}
    (h : update s.sessions p new q = some session) :
    s.sessions q = some session ∨ q = p ∧ new = some session := by
  by_cases heq : q = p
  · subst heq
    rw [update_self] at h
    exact .inr ⟨rfl, h⟩
  rw [update_of_ne heq] at h
  exact .inl h

theorem Inv.setSession (h : Inv s) {n : Nat} (hn : s.serial ≤ n) {new : Option Session}
    (hnew : ∀ session, new = some session → session.Ok { s.setSession p new with serial := n } p) :
    Inv { s.setSession p new with serial := n } := by
  refine h.sameTable rfl (le_refl _) hn h.kept fun q session hs => ?_
  refine (sessions_update hs).imp_right ?_
  rintro ⟨rfl, hsession⟩
  exact hnew session hsession

theorem table_flag {f : Nat → Row E → Row E} (hf : ∀ o r, (f o r).slot = r.slot) :
    (s.flag f).table = s.table := by
  have hslots : (s.rows.mapIdx f).map Row.slot = s.rows.map Row.slot := by
    refine List.ext_getElem? fun o => ?_
    simp only [List.getElem?_map, List.getElem?_mapIdx, map_map]
    congr 1
    funext r
    exact hf o r
  simp [State.table, State.flag, hslots]

theorem slots_assignRows :
    (assignRows serial epoch last picked s.rows).map Row.slot =
      (s.table.number p serial fork epoch last picked).slots := by
  refine List.ext_getElem? fun o => ?_
  simp only [assignRows, Table.number, State.table, List.getElem?_map, List.getElem?_mapIdx,
    map_map]
  congr 1
  funext r
  simp only [Function.comp]
  split <;> rfl

theorem table_finish :
    (s.finish p serial fork epoch last picked).table =
      s.table.number p serial fork epoch last picked := by
  have hslots : (assignRows serial epoch last picked s.rows).map Row.slot =
      (s.table.number p serial fork epoch last picked).slots := slots_assignRows
  simp [State.table, State.finish, hslots, Table.number]

theorem table_insert {tx : Nat} {event : E} :
    ({ s with rows := s.rows ++ [{ part := p, event := event, tx := tx }] } : State E).table =
      s.table.insert p tx := by
  simp [State.table, Table.insert, Row.slot]

section
variable (h : Inv s)
include h

/-- Rows marked or deleted, which only happens to rows with a number. -/
theorem Inv.flag {f : Nat → Row E → Row E} (hf : ∀ o r, (f o r).slot = r.slot)
    (hkept : ∀ (o : Nat) (r : Row E), s.rows[o]? = some r →
      (f o r).published = true ∨ (f o r).purged = true → r.pos.isSome) : Inv (s.flag f) := by
  refine h.sameTable (table_flag hf) (le_refl _) (le_refl _) ?_ fun _ _ hs => .inl hs
  intro o r hr hflag
  simp only [State.flag, List.getElem?_mapIdx, map_eq_some_iff] at hr
  obtain ⟨r₀, hr₀, rfl⟩ := hr
  rw [show (f o r₀).pos = r₀.pos from congrArg Slot.pos (hf o r₀)]
  exact hkept o r₀ hr₀ hflag

theorem Inv.insert {tx : Nat} {p : StreamPart} {event : E} (hactive : s.txs tx = .active) :
    Inv { s with rows := s.rows ++ [{ part := p, event := event, tx := tx }] } := by
  constructor
  · rw [table_insert]
    exact h.table.insert hactive
  · exact h.epochs
  · intro o d n hd hn
    rw [table_insert] at hd
    rcases Table.slots_insert hd with hd | ⟨-, rfl⟩
    · exact h.serials o d n hd hn
    simp at hn
  · intro o r hr hflag
    simp only [List.getElem?_append] at hr
    split at hr
    · exact h.kept o r hr hflag
    have hmem := List.mem_of_getElem? hr
    obtain rfl := List.mem_singleton.mp hmem
    simp at hflag
  intro q session hs
  refine (h.sessions q session hs).transfer (le_refl _) (le_refl _) rfl ?_ ?_
  · intro o d hd _
    rw [table_insert] at hd
    rcases Table.slots_insert hd with hd | ⟨-, rfl⟩
    · exact .inl hd
    exact .inr rfl
  intro picked hp
  rw [table_insert]
  exact hp.insert hactive

theorem Inv.finishTx {tx : Nat} {status : TxStatus} (hactive : s.txs tx = .active)
    (hstatus : ∀ at_, status = .committed at_ → at_ = s.rows.length) :
    Inv { s with txs := update s.txs tx status } := by
  have hstatus' : ∀ at_, status = .committed at_ → at_ = s.table.slots.length := by
    simpa [State.table] using hstatus
  refine ⟨h.table.finishTx hactive hstatus', h.epochs, h.serials, h.kept, ?_⟩
  intro q session hs
  exact (h.sessions q session hs).transfer (le_refl _) (le_refl _) rfl
    (fun o d hd _ => .inl hd) fun picked hp => hp.finishTx hactive hstatus'

theorem Inv.finish {serial batch last : Nat}
    (hsession : s.sessions p = some ⟨serial, batch, .assigned fork epoch last picked⟩) :
    Inv (s.finish p serial fork epoch last picked) := by
  obtain ⟨hserial, hfresh, hle, hready, hpicked⟩ := h.sessions p _ hsession
  constructor
  · rw [table_finish]
    exact h.table.number hready hpicked hfresh
  · intro q e he
    simp only [State.finish] at he ⊢
    by_cases heq : q = p
    · rw [heq, update_self, some.injEq] at he
      exact he ▸ hle
    rw [update_of_ne heq] at he
    exact h.epochs q e he
  · intro o d n hd hn
    rw [table_finish] at hd
    rcases Table.slots_number hd with ⟨-, hd⟩ | ⟨-, d₀, -, rfl⟩
    · exact h.serials o d n hd hn
    rw [some.injEq] at hn
    exact hn ▸ hserial
  · intro o r hr hflag
    simp only [State.finish, assignRows, List.getElem?_mapIdx, map_eq_some_iff] at hr
    obtain ⟨r₀, hr₀, rfl⟩ := hr
    by_cases hmem : o ∈ picked
    · simp [hmem]
    simp only [hmem, if_false] at hflag ⊢
    exact h.kept o r₀ hr₀ hflag
  intro q session hs
  rcases sessions_update hs with hs | ⟨-, hs⟩
  · have hne : q ≠ p := by
      rintro rfl
      simp [State.finish] at *
    refine (h.sessions q session hs).transfer (le_refl _) (le_refl _)
      (by simp [State.finish, update_of_ne hne]) ?_ ?_
    · intro o d hd hpart
      rw [table_finish] at hd
      rcases Table.slots_number hd with ⟨-, hd⟩ | ⟨hmem, d₀, hd₀, rfl⟩
      · exact .inl hd
      obtain ⟨d₁, _, hd₁, hpart₁, -⟩ := hpicked.rows o hmem
      rw [hd₀, some.injEq] at hd₁
      exact absurd (by rw [← hpart₁, ← hd₁, ← hpart]) hne.symm
    intro picked' hp
    rw [table_finish]
    exact hp.number hpicked hne
  simp at hs

theorem inv_step (hstep : step s a = some s') : Inv s' := by
  cases step_moves hstep with
  | epochSet hle => exact h.sameTable rfl hle (le_refl _) h.kept fun _ _ hs => .inl hs
  | inserted hactive => exact h.insert hactive
  | ended hactive hstatus =>
    refine h.finishTx hactive fun at_ hat => ?_
    rcases hstatus with ⟨-, rfl⟩ | ⟨-, rfl⟩
    · simpa using hat.symm
    simp at hat
  | locked hnone =>
    refine h.setSession (le_succ _) ?_
    rintro _ ⟨⟩
    refine ⟨lt_succ_self _, fun o d hd _ hn => ?_, rfl⟩
    exact absurd (h.serials o d _ hd hn) (lt_irrefl _)
  | epochRead hsession =>
    refine h.setSession (le_refl _) ?_
    rintro _ ⟨⟩
    obtain ⟨hserial, hfresh, hc⟩ := h.sessions _ _ hsession
    obtain rfl : _ = s.counters _ := hc
    exact ⟨hserial, hfresh, le_refl _, rfl, fun old hold => h.epochs _ old hold⟩
  | assigned hsession =>
    refine h.setSession (le_refl _) ?_
    rintro _ ⟨⟩
    obtain ⟨hserial, hfresh, hle, hready⟩ := h.sessions _ _ hsession
    exact ⟨hserial, hfresh, hle, hready, h.picked_unnumbered _ _⟩
  | finished hsession => exact h.finish hsession
  | rolledBack => exact h.setSession (le_refl _) nofun
  | marked hall =>
    refine h.flag (fun o r => by split <;> rfl) fun o r hr hflag => ?_
    split at hflag
    next hmem =>
      simpa [hr] using hall o hmem
    exact h.kept o r hr hflag
  | purged hall =>
    refine h.flag (fun o r => by split <;> rfl) fun o r hr hflag => ?_
    split at hflag
    next hmem =>
      exact h.kept o r hr (.inl (by simpa [hr] using hall o hmem))
    exact h.kept o r hr hflag

/-- What a step does to the numbers: it keeps them, and a number it gives is after all the
partition has. -/
theorem step_numbered (hstep : step s a = some s') :
    (∀ o p pt, s.table.Numbered o p pt → s'.table.Numbered o p pt) ∧
    ∀ o p pt, s'.table.Numbered o p pt → s.table.Numbered o p pt ∨
      a = .finish p ∧ ∀ o' pt', s.table.Numbered o' p pt' → pt' < pt := by
  cases step_moves hstep with
  | inserted hactive =>
    simp only [table_insert, Table.numbered_insert]
    exact ⟨fun _ _ _ hnum => hnum, fun _ _ _ hnum => .inl hnum⟩
  | finished hsession =>
    obtain ⟨-, -, -, hready, hpicked⟩ := h.sessions _ _ hsession
    simp only [table_finish, Table.numbered_number hpicked]
    refine ⟨fun _ _ _ hnum => .inl hnum, fun o q pt hnum => hnum.imp_right ?_⟩
    rintro ⟨rfl, -, rfl⟩
    exact ⟨rfl, fun o' pt' hnum' => hready.lt_new h.table hnum'⟩
  | marked hall | purged hall =>
    rw [table_flag fun o r => by split <;> rfl]
    exact ⟨fun _ _ _ hnum => hnum, fun _ _ _ hnum => .inl hnum⟩
  | _ => exact ⟨fun _ _ _ hnum => hnum, fun _ _ _ hnum => .inl hnum⟩

end

theorem inv_init (epoch : Epoch) : Inv (init E epoch) where
  table :=
    { exact := fun p e n h q => by simp [Table.Last, State.table, init] at h
      known := fun o p pt h => by simp [Table.Numbered, State.table, init] at h
      unique := fun o o' p pt h => by simp [Table.Numbered, State.table, init] at h
      closed := fun h hmem => by simp [State.table, init] at hmem
      committed := fun o d pt h => by simp [State.table, init] at h
      inserted := fun o d at_ h => by simp [State.table, init] at h
      ended := fun tx at_ h => by simp [State.table, init] at h
      order := fun o o' d d' pt' h => by simp [State.table, init] at h
      within := fun o o' d d' n pt pt' h => by simp [State.table, init] at h }
  epochs p e h := by simp [init] at h
  serials o d n h := by simp [State.table, init] at h
  kept o r h := by simp [init] at h
  sessions p session h := by simp [init] at h

theorem inv_run {as : List (Action E)} (hrun : run step (init E epoch) as = some s) : Inv s :=
  run_invariant_of_step (fun _ _ _ h => inv_step h) (inv_init epoch) hrun

/-- **Numbering.**  After every run, in each partition and epoch the numbered rows have the
sequences from 1 to the last one, each once, the last one being the counter's or, in an
epoch that was closed, the fork of its history entry; one numbering transaction numbers in
`ord` order; and a row committed before another one of its partition was inserted is
numbered if that one is, in an earlier epoch or at a smaller sequence of the same one. -/
theorem numbering_sound (epoch : Epoch) (as : List (Action E)) (s : State E)
    (hrun : run step (init E epoch) as = some s) :
    (∀ p e n, s.table.Last p e n → ∀ q, (∃ ord, s.table.Numbered ord p ⟨e, q⟩) ↔ 1 ≤ q ∧ q ≤ n) ∧
    (∀ ord p pt, s.table.Numbered ord p pt → ∃ n, s.table.Last p pt.epoch n) ∧
    (∀ ord ord' p pt, s.table.Numbered ord p pt → s.table.Numbered ord' p pt → ord = ord') ∧
    (∀ (o o' : Nat) (r r' : Row E) (n : Nat) (pt pt' : Point), s.rows[o]? = some r →
      s.rows[o']? = some r' → r.part = r'.part → r.numberedBy = some n →
      r'.numberedBy = some n → r.pos = some pt → r'.pos = some pt' →
      pt.epoch = pt'.epoch ∧ (o < o' → pt.seq < pt'.seq)) ∧
    (∀ (o o' : Nat) (r r' : Row E) (at_ : Nat) (pt' : Point), s.rows[o]? = some r →
      s.rows[o']? = some r' → r.part = r'.part → s.txs r.tx = .committed at_ → at_ ≤ o' →
      r'.pos = some pt' → ∃ pt, r.pos = some pt ∧
        (pt.epoch < pt'.epoch ∨ pt.epoch = pt'.epoch ∧ pt.seq < pt'.seq)) ∧
    ∀ h ∈ s.history, ∀ q,
      (∃ ord, s.table.Numbered ord h.part ⟨h.old, q⟩) ↔ 1 ≤ q ∧ q ≤ h.forkSeq := by
  have hsound := (inv_run hrun).table
  refine ⟨hsound.exact, hsound.known, hsound.unique, ?_, ?_, ?_⟩
  · intro o o' r r' n pt pt' hr hr' hpart hn hn' hpos hpos'
    exact hsound.within o o' r.slot r'.slot n pt pt' (slots_of_rows hr) (slots_of_rows hr')
      hpart hn hn' hpos hpos'
  · intro o o' r r' at_ pt' hr hr' hpart hat hle hpos
    obtain ⟨pt, hpt, hlt⟩ := hsound.order o o' r.slot r'.slot pt' (slots_of_rows hr)
      (slots_of_rows hr') hpart (.inl ⟨at_, hat, hle⟩) hpos
    exact ⟨pt, hpt, Point.lt_iff.mp hlt⟩
  intro h hmem q
  exact hsound.exact h.part h.old h.forkSeq (.inr ⟨h, hmem, rfl, rfl, rfl⟩) q

/-- Two rows of one partition, the second committed and numbered first; the first is
numbered in the next epoch. -/
def twoEpochs : List (Action Unit) :=
  [.insert 0 ⟨"orders", 0⟩ (), .insert 1 ⟨"orders", 0⟩ (), .commit 1,
    .lock ⟨"orders", 0⟩ 10, .readEpoch ⟨"orders", 0⟩, .assign ⟨"orders", 0⟩, .commit 0,
    .finish ⟨"orders", 0⟩, .setEpoch ⟨1, 2⟩,
    .lock ⟨"orders", 0⟩ 10, .readEpoch ⟨"orders", 0⟩, .assign ⟨"orders", 0⟩,
    .finish ⟨"orders", 0⟩]

theorem numbering_sound_twoEpochs :
    ∃ s, run step (init Unit ⟨1, 1⟩) twoEpochs = some s ∧
      s.history = [⟨⟨"orders", 0⟩, ⟨1, 1⟩, 1, ⟨1, 2⟩⟩] ∧
      s.rows.map (·.pos) = [some ⟨⟨1, 2⟩, 1⟩, some ⟨⟨1, 1⟩, 1⟩] ∧
      ∀ q, (∃ ord, s.table.Numbered ord ⟨"orders", 0⟩ ⟨⟨1, 1⟩, q⟩) ↔ 1 ≤ q ∧ q ≤ 1 := by
  refine ⟨_, rfl, by decide, by decide, ?_⟩
  exact (numbering_sound ⟨1, 1⟩ twoEpochs _ rfl).2.2.2.2.2
    ⟨⟨"orders", 0⟩, ⟨1, 1⟩, 1, ⟨1, 2⟩⟩ (by decide)

end BeSdk.Events

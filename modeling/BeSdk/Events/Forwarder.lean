import BeSdk.Events.Numbering
import BeSdk.Library.Batch

/-!
# The forwarders

Any number of forwarders publish the numbered rows of the outbox
(`Forwarder.partition`, `events/forwarder.go`).  One call numbers the partition and
reads its unpublished rows in one transaction, publishes them one after the other,
stops at the first that fails, and marks what was published in a transaction of its own,
whose outcome nobody looks at.  A forwarder can crash anywhere, and a message it handed to
the transport without an answer may be taken at any later time.  The lease
decides only whether a call goes on to do this, and any number of leases may have run
out, so here every call goes on.

`accepted` is history: the rows the transport took, in the order it took them.  A row
can be in it several times.

A forwarder's list is good (`Publishable`) when everything before its first row has been
accepted, and everything before the next one once the first is, and so on.  It is so when
it is read: what is numbered and not on the list was marked, so it was accepted.  It
stays so: others only accept more, and new numbers are after all the old ones.
-/

namespace BeSdk.Events

open Runs List Option Function

variable {E : Type*}

/-- `ORDER BY epoch_generation, epoch_timeline, seq`. -/
def posOf (rows : List (Row E)) (ord : Nat) : Point := ((rows[ord]?).bind (·.pos)).getD ⟨⟨0, 0⟩, 0⟩

/-- `unpublishedIn`, on the rows as the transaction sees them. -/
def State.unpublishedIn (s : State E) (rows : List (Row E)) (p : StreamPart) (batch : Nat) :
    List Nat :=
  ((ordsWhere (fun r => r.part = p ∧ r.pos.isSome ∧ ¬ r.published ∧ s.visible r) rows).insertionSort
    fun o o' => posOf rows o ≤ posOf rows o').take batch

inductive Forwarding
  | idle
  -- in the transaction that numbers; `rows` once it has read them
  | inTx (part : StreamPart) (batch : Nat) (rows : Option (List Nat))
  | publishing (todo done : List Nat)
  -- in the deferred `markPublished`
  | marking (done : List Nat)
deriving DecidableEq, Repr

structure Forwarders (E : Type*) where
  outbox : State E
  -- the forwarder whose transaction holds the partition's lock, if a forwarder does
  owner : StreamPart → Option Nat
  at_ : Nat → Forwarding
  -- messages handed to the transport without an answer: it may take them yet
  sent : List Nat
  accepted : List Nat

inductive ForwardAction (E : Type*)
  -- business transactions, other workers' numbering, the purge, the epoch
  | outbox (a : Action E)
  -- a call of `partition` takes the counter's lock
  | lock (f : Nat) (part : StreamPart) (batch : Nat)
  | read (f : Nat)
  | commit (f : Nat) (result : TxResult)
  -- `Publish` of the next message, answered by the transport or failed
  | publish (f : Nat) (ok : Bool)
  -- the transport takes a message whose `Publish` failed
  | arrive (ord : Nat)
  | markPublished (f : Nat) (result : TxResult)
  -- a crash anywhere, or the transaction failing before its end
  | crash (f : Nat)

/-- What others do to the outbox: only forwarders mark, and nobody ends a forwarder's
transaction for it. -/
def Forwarders.allows (s : Forwarders E) : Action E → Bool
  | .markPublished _ => false
  | .finish p => s.owner p = none
  | .rollback p => s.owner p = none
  | _ => true

namespace Forwarders

variable (s : Forwarders E)

def set (f : Nat) (x : Forwarding) : Forwarders E := { s with at_ := update s.at_ f x }

/-- The rows as the transaction numbering `p` sees them. -/
def view (p : StreamPart) : Option (List (Row E)) :=
  match s.outbox.sessions p with
  | some ⟨serial, _, .assigned _ epoch last picked⟩ =>
    some (assignRows serial epoch last picked s.outbox.rows)
  | _ => none

/-- The end of the loop: `markPublished` runs if anything was published. -/
def stop (done : List Nat) : Forwarding := if done = [] then .idle else .marking done

/-- The loop over the rows read. -/
def loop (todo done : List Nat) : Forwarding :=
  if todo = [] then stop done else .publishing todo done

/-- What the database makes of the transaction. -/
def endTx (p : StreamPart) (result : TxResult) : Action E :=
  if result.applied then .finish p else .rollback p

theorem endTx_cases (p : StreamPart) (result : TxResult) :
    (endTx p result : Action E) = .finish p ∨ (endTx p result : Action E) = .rollback p := by
  unfold endTx
  split
  · exact .inl rfl
  exact .inr rfl

def step (s : Forwarders E) : ForwardAction E → Option (Forwarders E)
  | .outbox a =>
    if s.allows a then (Events.step s.outbox a).map fun o => { s with outbox := o } else none
  | .lock f p batch =>
    if s.at_ f = .idle then
      (Events.step s.outbox (.lock p batch)).map fun o =>
        { s.set f (.inTx p batch none) with
          outbox := o, owner := update s.owner p (some f) }
    else none
  | .read f =>
    match s.at_ f with
    | .inTx p batch none =>
      (s.view p).map fun rows =>
        s.set f (.inTx p batch (some (s.outbox.unpublishedIn rows p batch)))
    | _ => none
  | .commit f result =>
    match s.at_ f with
    | .inTx p _ (some rows) =>
      let next := if result = .committed then loop rows [] else .idle
      (Events.step s.outbox (endTx p result)).map fun o =>
        { s.set f next with outbox := o, owner := update s.owner p none }
    | _ => none
  | .publish f ok =>
    match s.at_ f with
    | .publishing (ord :: todo) done =>
      if ok then
        some { s.set f (loop todo (done ++ [ord])) with accepted := s.accepted ++ [ord] }
      else some { s.set f (stop done) with sent := s.sent ++ [ord] }
    | _ => none
  | .arrive ord => if ord ∈ s.sent then some { s with accepted := s.accepted ++ [ord] } else none
  | .markPublished f result =>
    match s.at_ f with
    | .marking done =>
      if result.applied then
        (Events.step s.outbox (.markPublished done)).map fun o => { s.set f .idle with outbox := o }
      else some (s.set f .idle)
    | _ => none
  | .crash f =>
    match s.at_ f with
    | .inTx p _ _ =>
      -- the database rolls the transaction back
      (Events.step s.outbox (.rollback p)).map fun o =>
        { s.set f .idle with outbox := o, owner := update s.owner p none }
    | .publishing (ord :: _) _ => some { s.set f .idle with sent := s.sent ++ [ord] }
    | _ => some (s.set f .idle)

def init (E : Type*) (epoch : Epoch) : Forwarders E :=
  { outbox := Events.init E epoch, owner := fun _ => none, at_ := fun _ => .idle,
    sent := [], accepted := [] }

end Forwarders

/-! ## Lists that may be published -/

section Publishable
variable {num num' : Nat → Point → Prop} {acc acc' todo : List Nat} {ord : Nat}

/-- Everything numbered before the row has been accepted. -/
def Due (num : Nat → Point → Prop) (acc : List Nat) (ord : Nat) : Prop :=
  ∃ pt, num ord pt ∧ ∀ o pt', num o pt' → pt' < pt → o ∈ acc

/-- Each row is due once those before it on the list have been accepted too. -/
def Publishable (num : Nat → Point → Prop) : List Nat → List Nat → Prop
  | _, [] => True
  | acc, ord :: todo => Due num acc ord ∧ Publishable num (acc ++ [ord]) todo

/-- The numbers of `num'` that `num` does not have are after all of `num`. -/
structure Extends (num num' : Nat → Point → Prop) : Prop where
  keeps : ∀ o pt, num o pt → num' o pt
  after : ∀ o pt, num' o pt → num o pt ∨ ∀ o' pt', num o' pt' → pt' < pt

theorem extends_refl (num : Nat → Point → Prop) : Extends num num :=
  ⟨fun _ _ h => h, fun _ _ h => .inl h⟩

theorem Due.mono (h : Due num acc ord) (hnum : Extends num num') (hacc : acc ⊆ acc') :
    Due num' acc' ord := by
  obtain ⟨pt, hpt, hbefore⟩ := h
  refine ⟨pt, hnum.keeps ord pt hpt, fun o pt' ho hlt => ?_⟩
  rcases hnum.after o pt' ho with ho | hafter
  · exact hacc (hbefore o pt' ho hlt)
  exact absurd (hafter ord pt hpt) hlt.asymm

theorem Publishable.mono (h : Publishable num acc todo) (hnum : Extends num num')
    (hacc : acc ⊆ acc') : Publishable num' acc' todo := by
  induction todo generalizing acc acc' with
  | nil => trivial
  | cons ord todo ih =>
    refine ⟨h.1.mono hnum hacc, ih h.2 ?_⟩
    exact append_subset.mpr ⟨fun o ho => mem_append_left _ (hacc ho), subset_append_right ..⟩

/-- A list sorted by number with everything that has not been accepted. -/
theorem publishable_take (key : Nat → Point) (hkey : ∀ o pt, num o pt → key o = pt)
    (hsorted : todo.Pairwise fun o o' => key o ≤ key o') (hnum : ∀ o ∈ todo, ∃ pt, num o pt)
    (hall : ∀ o pt, num o pt → o ∈ acc ∨ o ∈ todo) (n : Nat) :
    Publishable num acc (todo.take n) := by
  induction todo generalizing acc n with
  | nil => simp [Publishable]
  | cons ord todo ih =>
    cases n with
    | zero => trivial
    | succ n =>
      obtain ⟨hfirst, hrest⟩ := pairwise_cons.mp hsorted
      obtain ⟨pt, hpt⟩ := hnum ord (mem_cons_self ..)
      refine ⟨⟨pt, hpt, fun o pt' ho hlt => ?_⟩, ?_⟩
      · rcases hall o pt' ho with hacc | hmem
        · exact hacc
        rw [← hkey o pt' ho, ← hkey ord pt hpt] at hlt
        rcases mem_cons.mp hmem with rfl | hmem
        · exact absurd hlt (lt_irrefl _)
        exact absurd hlt (not_lt.mpr (hfirst o hmem))
      refine ih hrest (fun o ho => hnum o (mem_cons_of_mem _ ho)) (fun o pt' ho => ?_) n
      rcases hall o pt' ho with hacc | hmem
      · exact .inl (mem_append_left _ hacc)
      rcases mem_cons.mp hmem with rfl | hmem
      · exact .inl (mem_append_right _ (mem_singleton.mpr rfl))
      exact .inr hmem

end Publishable

/-! ## The outbox under the forwarders -/

section Outbox
variable {s s' : State E} {a : Action E}

section
variable (hstep : step s a = some s')
include hstep

variable {serial batch last : Nat} {fork : Option HistoryEntry} {picked : List Nat}

/-- Only the end of the transaction takes a session past its numbering away. -/
theorem step_sessions {p : StreamPart} {epoch : Epoch}
    (hsession : s.sessions p = some ⟨serial, batch, .assigned fork epoch last picked⟩)
    (hfinish : a ≠ .finish p) (hrollback : a ≠ .rollback p) : s'.sessions p = s.sessions p := by
  have hother : ∀ {q : StreamPart} {new : Option Session}, q ≠ p →
      (s.setSession q new).sessions p = s.sessions p := fun hne => by
    simp [State.setSession, update_of_ne hne.symm]
  cases step_moves hstep with
  | locked hnone =>
    refine hother fun heq => ?_
    simp [heq, hsession] at hnone
  | epochRead hs | assigned hs =>
    refine hother fun heq => ?_
    simp [heq, hsession] at hs
  | finished hs =>
    rename_i q _ _ _ _ _ _
    have hne : p ≠ q := fun heq => hfinish (by rw [heq])
    simp [State.finish, update_of_ne hne]
  | rolledBack => exact hother fun heq => hrollback (by rw [heq])
  | _ => rfl

theorem step_sessions_isSome {p : StreamPart} (hsession : (s.sessions p).isSome)
    (hfinish : a ≠ .finish p) (hrollback : a ≠ .rollback p) : (s'.sessions p).isSome := by
  have hset : ∀ (q : StreamPart) (session : Session),
      ((s.setSession q (some session)).sessions p).isSome := fun q session => by
    by_cases heq : p = q
    · simp [State.setSession, heq]
    simpa [State.setSession, update_of_ne heq] using hsession
  cases step_moves hstep with
  | locked hnone | epochRead hs | assigned hs => exact hset _ _
  | finished hs =>
    rename_i q _ _ _ _ _ _
    have hne : p ≠ q := fun heq => hfinish (by rw [heq])
    simpa [State.finish, update_of_ne hne] using hsession
  | rolledBack =>
    rename_i q
    have hne : p ≠ q := fun heq => hrollback (by rw [heq])
    simpa [State.setSession, update_of_ne hne] using hsession
  | _ => exact hsession

/-- Only `markPublished` sets `published_at`. -/
theorem step_published {o : Nat} {r : Row E} (hr : s'.rows[o]? = some r) (hpub : r.published = true)
    : (∃ r₀, s.rows[o]? = some r₀ ∧ r₀.published = true) ∨
      ∃ ords, a = .markPublished ords ∧ o ∈ ords := by
  cases step_moves hstep with
  | inserted hactive =>
    simp only [getElem?_append] at hr
    split at hr
    · exact .inl ⟨r, hr, hpub⟩
    obtain rfl := mem_singleton.mp (mem_of_getElem? hr)
    simp at hpub
  | finished hs =>
    simp only [State.finish, assignRows, getElem?_mapIdx, map_eq_some_iff] at hr
    obtain ⟨r₀, hr₀, rfl⟩ := hr
    refine .inl ⟨r₀, hr₀, ?_⟩
    split at hpub <;> exact hpub
  | marked hall =>
    simp only [State.flag, getElem?_mapIdx, map_eq_some_iff] at hr
    obtain ⟨r₀, hr₀, rfl⟩ := hr
    split at hpub
    next hmem =>
      exact .inr ⟨_, rfl, hmem⟩
    exact .inl ⟨r₀, hr₀, hpub⟩
  | purged hall =>
    simp only [State.flag, getElem?_mapIdx, map_eq_some_iff] at hr
    obtain ⟨r₀, hr₀, rfl⟩ := hr
    refine .inl ⟨r₀, hr₀, ?_⟩
    split at hpub <;> exact hpub
  | _ => exact .inl ⟨r, hr, hpub⟩

end

/-- Deleted rows had been published. -/
def PurgedPublished (s : State E) : Prop :=
  ∀ (o : Nat) (r : Row E), s.rows[o]? = some r → r.purged = true → r.published = true

theorem purgedPublished_step (h : PurgedPublished s) (hstep : step s a = some s') :
    PurgedPublished s' := by
  intro o r hr hpurged
  cases step_moves hstep with
  | inserted hactive =>
    simp only [getElem?_append] at hr
    split at hr
    · exact h o r hr hpurged
    obtain rfl := mem_singleton.mp (mem_of_getElem? hr)
    simp at hpurged
  | finished hs =>
    simp only [State.finish, assignRows, getElem?_mapIdx, map_eq_some_iff] at hr
    obtain ⟨r₀, hr₀, rfl⟩ := hr
    split at hpurged <;> simp_all [h o r₀ hr₀]
  | marked hall =>
    simp only [State.flag, getElem?_mapIdx, map_eq_some_iff] at hr
    obtain ⟨r₀, hr₀, rfl⟩ := hr
    split at hpurged <;> simp_all [h o r₀ hr₀]
  | purged hall =>
    simp only [State.flag, getElem?_mapIdx, map_eq_some_iff] at hr
    obtain ⟨r₀, hr₀, rfl⟩ := hr
    split
    next hmem =>
      simpa [hr₀] using hall o hmem
    rename_i hmem
    simp only [hmem, if_false] at hpurged
    exact h o r₀ hr₀ hpurged
  | _ => exact h o r hr hpurged

end Outbox

/-! ## The invariant -/

namespace Forwarders

def Num (s : Forwarders E) (p : StreamPart) (ord : Nat) (pt : Point) : Prop :=
  s.outbox.table.Numbered ord p pt

/-- ... as the transaction numbering the partition sees it, with its own numbers. -/
def TxNum (s : Forwarders E) (p : StreamPart) (ord : Nat) (pt : Point) : Prop :=
  ∃ serial batch fork epoch last picked,
    s.outbox.sessions p = some ⟨serial, batch, .assigned fork epoch last picked⟩ ∧
    (s.outbox.table.number p serial fork epoch last picked).Numbered ord p pt

structure Inv (s : Forwarders E) : Prop where
  outbox : Events.Inv s.outbox
  purged : PurgedPublished s.outbox
  marked : ∀ (o : Nat) (r : Row E), s.outbox.rows[o]? = some r → r.published = true → o ∈ s.accepted
  owns : ∀ f p batch rows, s.at_ f = .inTx p batch rows →
    s.owner p = some f ∧ (s.outbox.sessions p).isSome
  reading : ∀ f p batch todo, s.at_ f = .inTx p batch (some todo) →
    (∃ serial batch fork epoch last picked,
      s.outbox.sessions p = some ⟨serial, batch, .assigned fork epoch last picked⟩) ∧
    Publishable (s.TxNum p) s.accepted todo
  publishing : ∀ f todo done, s.at_ f = .publishing todo done →
    done ⊆ s.accepted ∧ ∃ p, Publishable (s.Num p) s.accepted todo
  marking : ∀ f done, s.at_ f = .marking done → done ⊆ s.accepted
  sent : ∀ o ∈ s.sent, ∃ p, Due (s.Num p) s.accepted o
  numbered : ∀ o ∈ s.accepted, ∃ p pt, s.Num p o pt
  order : ∀ pre o post, s.accepted = pre ++ o :: post → o ∉ pre →
    ∀ p o' pt pt', s.Num p o pt → s.Num p o' pt' → pt' < pt → o' ∈ pre

variable {s : Forwarders E} {o : State E} {a : Action E}

theorem extends_num (h : Events.Inv s.outbox) (hstep : Events.step s.outbox a = some o)
    (p : StreamPart) : Extends (s.Num p) (({ s with outbox := o } : Forwarders E).Num p) := by
  obtain ⟨hkeeps, hafter⟩ := step_numbered h hstep
  exact ⟨fun o pt => hkeeps o p pt, fun o pt hnum => (hafter o p pt hnum).imp_right (·.2)⟩

variable {p : StreamPart} {epoch : Epoch}

theorem txNum_iff {ord : Nat} {pt : Point} (h : Events.Inv s.outbox)
    (hs : s.outbox.sessions p = some ⟨serial, batch, .assigned fork epoch last picked⟩) :
    s.TxNum p ord pt ↔
      s.Num p ord pt ∨ ord ∈ picked ∧ pt = ⟨epoch, last + picked.idxOf ord + 1⟩ := by
  obtain ⟨-, -, -, -, hpicked⟩ := h.sessions p _ hs
  constructor
  · rintro ⟨sr, bt, fk, ep, ls, pk, hsess, hnum⟩
    obtain ⟨rfl, rfl, rfl, rfl, rfl, rfl⟩ : sr = serial ∧ bt = batch ∧ fk = fork ∧ ep = epoch ∧
        ls = last ∧ pk = picked := by simpa [hs, eq_comm] using hsess
    rw [Table.numbered_number hpicked] at hnum
    exact hnum.imp_right (·.2)
  intro hnum
  refine ⟨serial, batch, fork, epoch, last, picked, hs, ?_⟩
  rw [Table.numbered_number hpicked]
  exact hnum.imp_right fun hnew => ⟨rfl, hnew⟩

/-- A step of the outbox that ends no forwarder's transaction and marks only accepted rows. -/
theorem Inv.outboxStep (h : s.Inv) (hstep : Events.step s.outbox a = some o)
    (hmark : ∀ ords, a = .markPublished ords → ords ⊆ s.accepted)
    (hfree : ∀ p, a = .finish p ∨ a = .rollback p → ∀ f batch rows, s.at_ f ≠ .inTx p batch rows) :
    Inv { s with outbox := o } := by
  have hext := extends_num h.outbox hstep
  have hsubset : s.accepted ⊆ s.accepted := fun _ ho => ho
  refine ⟨inv_step h.outbox hstep, purgedPublished_step h.purged hstep, ?_, ?_, ?_, ?_,
    h.marking, ?_, ?_, ?_⟩
  · intro ord r hr hpub
    rcases step_published hstep hr hpub with ⟨r₀, hr₀, hpub₀⟩ | ⟨ords, rfl, hmem⟩
    · exact h.marked ord r₀ hr₀ hpub₀
    exact hmark ords rfl hmem
  · intro f p batch rows hf
    obtain ⟨howner, hsession⟩ := h.owns f p batch rows hf
    refine ⟨howner, step_sessions_isSome hstep hsession ?_ ?_⟩
    · exact fun ha => hfree p (.inl ha) f batch rows hf
    exact fun ha => hfree p (.inr ha) f batch rows hf
  · intro f p batch todo hf
    obtain ⟨⟨serial, b, fork, epoch, last, picked, hs⟩, htodo⟩ := h.reading f p batch todo hf
    have hfinish : a ≠ .finish p := fun ha => hfree p (.inl ha) f batch (some todo) hf
    have hrollback : a ≠ .rollback p := fun ha => hfree p (.inr ha) f batch (some todo) hf
    have hs' := (step_sessions hstep hs hfinish hrollback).trans hs
    -- nobody else numbers in this partition, and this transaction's numbers stay its own
    have hsame : ∀ ord pt, s.Num p ord pt ↔ ({ s with outbox := o } : Forwarders E).Num p ord pt :=
      fun ord pt => by
        refine ⟨(hext p).keeps ord pt, fun hnum => ?_⟩
        rcases (step_numbered h.outbox hstep).2 ord p pt hnum with hold | ⟨ha, -⟩
        · exact hold
        exact absurd ha hfinish
    have htx : ({ s with outbox := o } : Forwarders E).TxNum p = s.TxNum p := by
      funext ord pt
      rw [txNum_iff (inv_step h.outbox hstep) hs', txNum_iff h.outbox hs, hsame]
    exact ⟨⟨serial, b, fork, epoch, last, picked, hs'⟩, by rw [htx]; exact htodo⟩
  · intro f todo done hf
    obtain ⟨hdone, p, htodo⟩ := h.publishing f todo done hf
    exact ⟨hdone, p, htodo.mono (hext p) hsubset⟩
  · intro ord hord
    obtain ⟨p, hdue⟩ := h.sent ord hord
    exact ⟨p, hdue.mono (hext p) hsubset⟩
  · intro ord hord
    obtain ⟨p, pt, hnum⟩ := h.numbered ord hord
    exact ⟨p, pt, (hext p).keeps ord pt hnum⟩
  intro pre ord post hacc hfirst p o' pt pt' hnum hnum' hlt
  -- an accepted row had its number before, and a new one is after it
  have hold : s.Num p ord pt := by
    obtain ⟨q, qt, hq⟩ := h.numbered ord (by rw [hacc]; simp)
    obtain ⟨d, hd, rfl, hpos⟩ := (hext q).keeps ord qt hq
    obtain ⟨d', hd', rfl, hpos'⟩ := hnum
    rw [hd, some.injEq] at hd'
    subst hd'
    rw [hpos, some.injEq] at hpos'
    exact hpos' ▸ hq
  rcases (hext p).after o' pt' hnum' with hold' | hafter
  · exact h.order pre ord post hacc hfirst p o' pt pt' hold hold' hlt
  exact absurd (hafter ord pt hold) hlt.asymm

theorem Inv.accept (h : s.Inv) {ord : Nat} (hdue : ∃ p, Due (s.Num p) s.accepted ord) :
    Inv { s with accepted := s.accepted ++ [ord] } := by
  have hsubset : s.accepted ⊆ s.accepted ++ [ord] := subset_append_left ..
  obtain ⟨p, pt, hpt, hbefore⟩ := hdue
  refine ⟨h.outbox, h.purged, fun o r hr hpub => hsubset (h.marked o r hr hpub), h.owns, ?_, ?_,
    ?_, ?_, ?_, ?_⟩
  · intro f q batch todo hf
    obtain ⟨hs, htodo⟩ := h.reading f q batch todo hf
    exact ⟨hs, htodo.mono (extends_refl _) hsubset⟩
  · intro f todo done hf
    obtain ⟨hdone, q, htodo⟩ := h.publishing f todo done hf
    exact ⟨List.Subset.trans hdone hsubset, q, htodo.mono (extends_refl _) hsubset⟩
  · exact fun f done hf => List.Subset.trans (h.marking f done hf) hsubset
  · intro o ho
    obtain ⟨q, hq⟩ := h.sent o ho
    exact ⟨q, hq.mono (extends_refl _) hsubset⟩
  · intro o ho
    rcases mem_append.mp ho with ho | ho
    · exact h.numbered o ho
    exact ⟨p, pt, mem_singleton.mp ho ▸ hpt⟩
  intro pre o post hacc hfirst q o' qt qt' hnum hnum' hlt
  rcases eq_nil_or_concat post with rfl | ⟨post, last, rfl⟩
  · -- the message just taken: everything before it had been accepted
    obtain ⟨rfl, hlast⟩ := append_inj' hacc rfl
    obtain rfl := singleton_inj.mp hlast
    obtain ⟨d, hd, rfl, hpos⟩ := hpt
    obtain ⟨d', hd', rfl, hpos'⟩ := hnum
    rw [hd, some.injEq] at hd'
    subst hd'
    rw [hpos, some.injEq] at hpos'
    exact hbefore o' qt' hnum' (hpos' ▸ hlt)
  rw [concat_eq_append, ← cons_append, ← append_assoc] at hacc
  obtain ⟨hacc, -⟩ := append_inj' hacc rfl
  exact h.order pre o post hacc hfirst q o' qt qt' hnum hnum' hlt

/-- A message that is due goes to the transport, which does not answer. -/
theorem Inv.send (h : s.Inv) {ord : Nat} (hdue : ∃ p, Due (s.Num p) s.accepted ord) :
    Inv { s with sent := s.sent ++ [ord] } := by
  refine { h with sent := fun o ho => ?_ }
  rcases mem_append.mp ho with ho | ho
  · exact h.sent o ho
  exact mem_singleton.mp ho ▸ hdue

def Fits (s : Forwarders E) (f : Nat) : Forwarding → Prop
  | .idle => True
  | .inTx p _ none => s.owner p = some f ∧ (s.outbox.sessions p).isSome
  | .inTx p _ (some todo) => s.owner p = some f ∧
      (∃ serial batch fork epoch last picked,
        s.outbox.sessions p = some ⟨serial, batch, .assigned fork epoch last picked⟩) ∧
      Publishable (s.TxNum p) s.accepted todo
  | .publishing todo done => done ⊆ s.accepted ∧ ∃ p, Publishable (s.Num p) s.accepted todo
  | .marking done => done ⊆ s.accepted

variable {f : Nat}

theorem Inv.set (h : s.Inv) {x : Forwarding} (hx : s.Fits f x) : (s.set f x).Inv := by
  have hat : ∀ g y, (s.set f x).at_ g = y → g = f ∧ y = x ∨ s.at_ g = y := by
    intro g y hy
    by_cases heq : g = f
    · subst heq
      simp only [Forwarders.set, update_self] at hy
      exact .inl ⟨rfl, hy.symm⟩
    simp only [Forwarders.set, update_of_ne heq] at hy
    exact .inr hy
  refine ⟨h.outbox, h.purged, h.marked, ?_, ?_, ?_, ?_, h.sent, h.numbered, h.order⟩
  · intro g p batch rows hg
    rcases hat g _ hg with ⟨rfl, rfl⟩ | hg
    · cases rows with
      | none => exact hx
      | some todo =>
        obtain ⟨howner, ⟨serial, b, fork, epoch, last, picked, hs⟩, -⟩ := hx
        exact ⟨howner, by simp [Forwarders.set, hs]⟩
    exact h.owns g p batch rows hg
  · intro g p batch todo hg
    rcases hat g _ hg with ⟨rfl, rfl⟩ | hg
    · exact hx.2
    exact h.reading g p batch todo hg
  · intro g todo done hg
    rcases hat g _ hg with ⟨rfl, rfl⟩ | hg
    · exact hx
    exact h.publishing g todo done hg
  intro g done hg
  rcases hat g _ hg with ⟨rfl, rfl⟩ | hg
  · exact hx
  exact h.marking g done hg

theorem fits_stop {done : List Nat} (hdone : done ⊆ s.accepted) : s.Fits f (stop done) := by
  unfold stop
  split
  · trivial
  exact hdone

theorem fits_loop {todo done : List Nat} (hdone : done ⊆ s.accepted)
    (htodo : Publishable (s.Num p) s.accepted todo) : s.Fits f (loop todo done) := by
  unfold loop
  split
  · exact fits_stop hdone
  exact ⟨hdone, p, htodo⟩

section
variable (h : s.Inv)
include h

/-- A lock changes hands while no forwarder is in a transaction of the partition. -/
theorem Inv.setOwner {new : Option Nat} (hfree : ∀ f batch rows, s.at_ f ≠ .inTx p batch rows) :
    Inv { s with owner := update s.owner p new } := by
  refine { h with owns := fun f q batch rows hf => ?_ }
  have hne : q ≠ p := fun heq => hfree f batch rows (heq ▸ hf)
  simpa [update_of_ne hne] using h.owns f q batch rows hf

/-- What the transaction reads may be published: a row it does not read was marked. -/
theorem Inv.publishable_read {b : Nat}
    (hs : s.outbox.sessions p = some ⟨serial, b, .assigned fork epoch last picked⟩)
    (batch : Nat) :
    Publishable (s.TxNum p) s.accepted
      (s.outbox.unpublishedIn (assignRows serial epoch last picked s.outbox.rows) p batch) := by
  generalize hrows : assignRows serial epoch last picked s.outbox.rows = rows
  have hnum : ∀ o pt, s.TxNum p o pt ↔ ∃ r, rows[o]? = some r ∧ r.part = p ∧ r.pos = some pt := by
    intro o pt
    rw [txNum_iff h.outbox hs]
    obtain ⟨-, -, -, -, hpicked⟩ := h.outbox.sessions p _ hs
    have hiff : (s.outbox.table.number p serial fork epoch last picked).Numbered o p pt ↔ _ :=
      Table.numbered_number hpicked
    simp only [true_and] at hiff
    rw [show s.Num p o pt = s.outbox.table.Numbered o p pt from rfl, ← hiff, Table.Numbered,
      ← slots_assignRows, hrows]
    simp [Row.slot]
  refine publishable_take (posOf rows) ?_ (Batch.sorted_insertionSort _ _) ?_ ?_ batch
  · intro o pt ho
    obtain ⟨r, hr, -, hpos⟩ := (hnum o pt).mp ho
    simp [posOf, hr, hpos]
  · intro o ho
    obtain ⟨r, hr, hrest⟩ := mem_ordsWhere.mp ((mem_insertionSort _).mp ho)
    obtain ⟨hpart, hpos, -⟩ := by simpa using hrest
    obtain ⟨pt, hpt⟩ := isSome_iff_exists.mp hpos
    exact ⟨pt, (hnum o pt).mpr ⟨r, hr, hpart, hpt⟩⟩
  intro o pt ho
  obtain ⟨r, hr, hpart, hpos⟩ := (hnum o pt).mp ho
  by_cases hunread : r.published = false ∧ s.outbox.visible r = true
  · right
    rw [mem_insertionSort, mem_ordsWhere]
    exact ⟨r, hr, by simp [hpart, hpos, hunread.1, hunread.2]⟩
  left
  -- the row before this transaction's numbers
  rw [← hrows] at hr
  simp only [assignRows, getElem?_mapIdx, map_eq_some_iff] at hr
  obtain ⟨r₀, hr₀, hr⟩ := hr
  have hpub : r.published = r₀.published := by rw [← hr]; split <;> rfl
  have hpurged : r.purged = r₀.purged := by rw [← hr]; split <;> rfl
  have htx : r.tx = r₀.tx := by rw [← hr]; split <;> rfl
  have hcommitted : ∃ at_, s.outbox.txs r₀.tx = .committed at_ := by
    obtain ⟨-, -, -, -, hpicked⟩ := h.outbox.sessions p _ hs
    rcases (txNum_iff h.outbox hs).mp ho with ⟨d, hd, -, hdpos⟩ | ⟨hpick, -⟩
    · obtain ⟨at_, hat⟩ := h.outbox.table.committed o d pt hd hdpos
      rw [slots_of_rows hr₀, some.injEq] at hd
      exact ⟨at_, by rw [← hat, ← hd]; rfl⟩
    obtain ⟨d, at_, hd, -, -, hat⟩ := hpicked.rows o hpick
    rw [slots_of_rows hr₀, some.injEq] at hd
    exact ⟨at_, by rw [← hat, ← hd]; rfl⟩
  obtain ⟨at_, hat⟩ := hcommitted
  by_cases hpublished : r₀.published = true
  · exact h.marked o r₀ hr₀ hpublished
  refine absurd ⟨by simpa [hpub] using hpublished, ?_⟩ hunread
  have hkept : r₀.purged = false := by
    by_contra hcontra
    exact hpublished (h.purged o r₀ hr₀ (by simpa using hcontra))
  simp [State.visible, htx, hat, hpurged, hkept]

/-- A lock granted: no forwarder is in a transaction of the partition. -/
theorem Inv.free_of_none (hnone : s.outbox.sessions p = none)
    (f batch : Nat) (rows : Option (List Nat)) : s.at_ f ≠ .inTx p batch rows := by
  intro hf
  have := (h.owns f p batch rows hf).2
  simp [hnone] at this

/-- Once its forwarder has left, no forwarder is in the partition's transaction. -/
theorem Inv.free_of_left {rows : Option (List Nat)} (hf : s.at_ f = .inTx p batch rows)
    {x : Forwarding} (hx : ∀ batch rows, x ≠ .inTx p batch rows) (g batch' : Nat)
    (rows' : Option (List Nat)) : (s.set f x).at_ g ≠ .inTx p batch' rows' := by
  intro hg
  by_cases heq : g = f
  · subst heq
    simp only [Forwarders.set, update_self] at hg
    exact hx _ _ hg
  simp only [Forwarders.set, update_of_ne heq] at hg
  have howner := (h.owns f p batch rows hf).1
  rw [(h.owns g p batch' rows' hg).1, some.injEq] at howner
  exact heq howner

/-- The transaction ends while its forwarder is idle. -/
theorem Inv.leave {batch : Nat} {rows : Option (List Nat)} (hf : s.at_ f = .inTx p batch rows)
    (ha : a = .finish p ∨ a = .rollback p) (hstep : Events.step s.outbox a = some o) :
    Inv { s.set f .idle with outbox := o, owner := update s.owner p none } := by
  have hfree := h.free_of_left hf (x := .idle) (fun _ _ => by simp)
  have hidle : (s.set f .idle).Inv := h.set trivial
  have houtbox : Inv { s.set f .idle with outbox := o } := by
    refine hidle.outboxStep hstep (fun ords hords => ?_) fun q hq => ?_
    · rcases ha with rfl | rfl <;> simp at hords
    obtain rfl : q = p := by rcases ha with rfl | rfl <;> simpa [eq_comm] using hq
    exact hfree
  exact houtbox.setOwner hfree

/-- At the commit the transaction's own numbers become the table's. -/
theorem Inv.num_finish (hs : ∃ serial batch fork epoch last picked,
      s.outbox.sessions p = some ⟨serial, batch, .assigned fork epoch last picked⟩)
    (hstep : Events.step s.outbox (.finish p) = some o) :
    ({ s with outbox := o } : Forwarders E).Num p = s.TxNum p := by
  obtain ⟨serial, b, fork, epoch, last, picked, hs⟩ := hs
  obtain ⟨-, -, -, -, hpicked⟩ := h.outbox.sessions p _ hs
  funext ord pt
  cases step_moves hstep with
  | finished hs' =>
    rw [hs, some.injEq] at hs'
    simp only [Session.mk.injEq, Stage.assigned.injEq] at hs'
    obtain ⟨rfl, rfl, rfl, rfl, rfl, rfl⟩ := hs'
    rw [txNum_iff h.outbox hs]
    simp only [Num, table_finish, Table.numbered_number hpicked, true_and]
  | ended _ hstatus => simp at hstatus

theorem inv_step {s' : Forwarders E} {a : ForwardAction E}
    (hstep : s.step a = some s') : s'.Inv := by
  cases a with simp only [Forwarders.step] at hstep
  | outbox a =>
    split at hstep
    next hallows =>
      rw [map_eq_some_iff] at hstep
      obtain ⟨o, ho, rfl⟩ := hstep
      refine h.outboxStep ho (fun ords ha => ?_) fun p ha f batch rows hf => ?_
      · simp [ha, allows] at hallows
      have howner := (h.owns f p batch rows hf).1
      rcases ha with rfl | rfl <;> simp [allows, howner] at hallows
    simp at hstep
  | lock f p batch =>
    split at hstep
    · rw [map_eq_some_iff] at hstep
      obtain ⟨o, ho, rfl⟩ := hstep
      have hnone : s.outbox.sessions p = none := by
        cases step_moves ho with
        | locked hnone => exact hnone
        | ended _ hstatus => simp at hstatus
      have hfree := h.free_of_none hnone
      have hlocked : Inv { s with outbox := o, owner := update s.owner p (some f) } :=
        (h.outboxStep ho (fun _ ha => by simp at ha) (fun _ ha => by simp at ha)).setOwner hfree
      refine hlocked.set ⟨by simp, ?_⟩
      cases step_moves ho with
      | locked hnone => simp [State.setSession]
      | ended _ hstatus => simp at hstatus
    simp at hstep
  | read f =>
    split at hstep
    next p batch hf =>
      rw [map_eq_some_iff] at hstep
      obtain ⟨rows, hrows, rfl⟩ := hstep
      simp only [view] at hrows
      split at hrows
      next serial b fork epoch last picked hs =>
        obtain rfl := by simpa using hrows
        exact h.set ⟨(h.owns f p batch none hf).1, ⟨serial, b, fork, epoch, last, picked, hs⟩,
          h.publishable_read hs batch⟩
      simp at hrows
    simp at hstep
  | commit f result =>
    split at hstep
    next p batch rows hf =>
      rw [map_eq_some_iff] at hstep
      obtain ⟨o, ho, rfl⟩ := hstep
      have hleft := h.leave hf (endTx_cases p result) ho
      by_cases hcommitted : result = .committed
      · subst hcommitted
        obtain ⟨hs, htodo⟩ := h.reading f p batch rows hf
        rw [← h.num_finish hs ho] at htodo
        have hdone : [] ⊆ s.accepted := by simp
        have hset := hleft.set (f := f) (fits_loop hdone htodo)
        simpa [Forwarders.set] using hset
      simpa [hcommitted] using hleft
    simp at hstep
  | publish f ok =>
    split at hstep
    next ord todo done hf =>
      obtain ⟨hdone, p, hdue, htodo⟩ := h.publishing f _ _ hf
      split at hstep
      · cases hstep
        refine (h.accept ⟨p, hdue⟩).set (fits_loop (p := p) ?_ htodo)
        exact append_subset.mpr ⟨fun o ho => mem_append_left _ (hdone ho), subset_append_right ..⟩
      · cases hstep
        exact (h.send ⟨p, hdue⟩).set (fits_stop hdone)
    simp at hstep
  | arrive ord =>
    split at hstep <;> cases hstep
    rename_i hsent
    exact h.accept (h.sent ord hsent)
  | markPublished f result =>
    split at hstep
    next done hf =>
      split at hstep
      · rw [map_eq_some_iff] at hstep
        obtain ⟨o, ho, rfl⟩ := hstep
        have hmarked : Inv { s with outbox := o } := by
          refine h.outboxStep ho (fun ords hords => ?_) (fun _ ha => by simp at ha)
          obtain rfl := by simpa using hords
          exact h.marking f done hf
        exact hmarked.set trivial
      · cases hstep
        exact h.set trivial
    simp at hstep
  | crash f =>
    split at hstep
    next p batch rows hf =>
      rw [map_eq_some_iff] at hstep
      obtain ⟨o, ho, rfl⟩ := hstep
      exact h.leave hf (.inr rfl) ho
    next ord todo done hf =>
      cases hstep
      obtain ⟨-, p, hdue, -⟩ := h.publishing f _ _ hf
      exact (h.send ⟨p, hdue⟩).set trivial
    · cases hstep
      exact h.set trivial

end

theorem inv_init (epoch : Epoch) : (init E epoch).Inv := by
  refine ⟨Events.inv_init epoch, ?_, ?_, ?_, ?_, ?_, ?_, ?_, ?_, ?_⟩ <;>
    simp [init, Events.init, PurgedPublished]

theorem inv_run {as : List (ForwardAction E)}
    (hrun : run step (init E epoch) as = some s) : s.Inv :=
  run_invariant_of_step (fun _ _ _ h => inv_step h) (inv_init epoch) hrun

/-- **Forwarding.**  Whatever forwarders overlap, crash or lose their marks, the transport
takes each row for the first time when it has taken every row numbered before it in the
row's partition; it takes only numbered rows, and only rows it took are marked. -/
theorem published_in_order (epoch : Epoch) (as : List (ForwardAction E)) (s : Forwarders E)
    (hrun : run step (init E epoch) as = some s) :
    (∀ pre o post, s.accepted = pre ++ o :: post → o ∉ pre →
      ∀ p o' pt pt', s.outbox.table.Numbered o p pt → s.outbox.table.Numbered o' p pt' →
        pt' < pt → o' ∈ pre) ∧
    (∀ o ∈ s.accepted, ∃ p pt, s.outbox.table.Numbered o p pt) ∧
    ∀ (o : Nat) (r : Row E), s.outbox.rows[o]? = some r → r.published = true → o ∈ s.accepted :=
  have h := inv_run hrun
  ⟨h.order, h.numbered, h.marked⟩

/-- Two rows; the first forwarder publishes one of them and crashes, the second one both. -/
def twoForwarders : List (ForwardAction Unit) :=
  [.outbox (.insert 0 ⟨"orders", 0⟩ ()), .outbox (.insert 0 ⟨"orders", 0⟩ ()),
    .outbox (.commit 0), .lock 0 ⟨"orders", 0⟩ 10, .outbox (.readEpoch ⟨"orders", 0⟩),
    .outbox (.assign ⟨"orders", 0⟩), .read 0, .commit 0 .committed, .publish 0 true, .crash 0,
    .lock 1 ⟨"orders", 0⟩ 10, .outbox (.readEpoch ⟨"orders", 0⟩),
    .outbox (.assign ⟨"orders", 0⟩), .read 1, .commit 1 .committed, .publish 1 true,
    .publish 1 true, .markPublished 1 .committed]

theorem published_in_order_twoForwarders :
    ∃ s, run step (init Unit ⟨1, 1⟩) twoForwarders = some s ∧ s.accepted = [0, 0, 1] ∧
      s.outbox.rows.map (·.published) = [true, true] ∧
      ∃ p pt, s.outbox.table.Numbered 1 p pt := by
  refine ⟨_, rfl, by decide, by decide, ?_⟩
  exact (published_in_order ⟨1, 1⟩ twoForwarders _ rfl).2.1 1 (by decide)

/-- **Purge.**  Whatever forwarders overlap, crash or lose their marks, a row is deleted only when
the transport has taken it and every row numbered before it in its partition. -/
theorem purged_after_accepted (epoch : Epoch) (as : List (ForwardAction E)) (s : Forwarders E)
    (hrun : run step (init E epoch) as = some s) (o : Nat) (r : Row E)
    (hr : s.outbox.rows[o]? = some r) (hpurged : r.purged = true) :
    o ∈ s.accepted ∧ ∃ p pt, s.outbox.table.Numbered o p pt ∧
      ∀ o' pt', s.outbox.table.Numbered o' p pt' → pt' < pt → o' ∈ s.accepted := by
  have h := inv_run hrun
  have hmem : o ∈ s.accepted := h.marked o r hr (h.purged o r hr hpurged)
  obtain ⟨p, pt, hnum⟩ := h.numbered o hmem
  refine ⟨hmem, p, pt, hnum, fun o' pt' hnum' hlt => ?_⟩
  -- the first time the transport took the row
  obtain ⟨pre, post, hsplit, hfirst⟩ := eq_append_cons_of_mem hmem
  rw [hsplit]
  exact mem_append_left _ (h.order pre o post hsplit hfirst p o' pt pt' hnum hnum' hlt)

theorem purged_after_accepted_twoForwarders :
    ∃ s, run step (init Unit ⟨1, 1⟩) (twoForwarders ++ [.outbox (.purge [0])]) = some s ∧
      0 ∈ s.accepted := by
  refine ⟨?s, ?hrun, (purged_after_accepted ⟨1, 1⟩ _ ?s ?hrun 0 ?r ?hr ?hpurged).1⟩
  case hrun | hr | hpurged => rfl

end Forwarders
end BeSdk.Events

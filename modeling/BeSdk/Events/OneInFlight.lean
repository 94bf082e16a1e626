import BeSdk.Events.Queueing

/-!
# One delivery in flight

The claims of an ordered durable are made one at a time, under the lock of the subscription's row,
and only of the delivery with the smallest sequence number.  That keeps one delivery in flight as
long as the delivery in flight is the smallest one: the next claim then finds it first, and takes
it again or nothing.

Deliveries are queued in the order of `(xid, seq)`, though.  A message whose transaction has a
larger ID and a smaller sequence number may be queued when a delivery with a larger sequence number
is in flight; it is the smallest one from then on, and is claimed beside the other.
`QueuedInOrder` says that this does not happen.
-/

namespace BeSdk.Events.Pgqueue

open Runs List

namespace Queue

variable {cfg : Config} {s s' : Queue} {a : Action}

/-- In flight under a lease that has not run out. -/
def live (s : Queue) (d : Queued) : Bool := d.inFlight && !(d.leaseUntil < s.now)

/-- No advance queues a delivery before one that is in flight. -/
def QueuedInOrder (cfg : Config) (s : Queue) : Action → Prop
  | .enqueue f => ∀ rows, s.workers f = .read rows → ∀ q ∈ s.news cfg rows,
      ∀ d ∈ s.deliveries, d.inFlight = true → d.seq < q
  | _ => True

/-! ## What happens to deliveries -/

/-- Nothing is queued and nothing comes in flight. -/
def Thins (s s' : Queue) : Prop :=
  ∀ d' ∈ s'.deliveries, ∃ d ∈ s.deliveries, d.seq = d'.seq ∧
    (d'.inFlight = true → d.inFlight = true)

theorem thins_of_sublist (h : s'.deliveries.Sublist s.deliveries) : Thins s s' :=
  fun d hd => ⟨d, h.subset hd, rfl, id⟩

theorem thins_of_map {f : Queued → Queued} (h : s'.deliveries = s.deliveries.map f)
    (hf : ∀ d, (f d).seq = d.seq ∧ ((f d).inFlight = true → d.inFlight = true)) : Thins s s' := by
  intro d' hd'
  rw [h] at hd'
  obtain ⟨d, hd, rfl⟩ := mem_map.1 hd'
  exact ⟨d, hd, (hf d).1.symm, (hf d).2⟩

theorem thins_settled (d : Claimed) (out : Outcome) (f : Nat) :
    Thins s ((s.settled cfg d out).goTo f .idle) := by
  simp only [settled]
  split
  · exact thins_of_sublist filter_sublist
  refine thins_of_map rfl fun row => ?_
  split <;> simp

/-- Only the commit of an advance and a claim do more. -/
theorem step_thins (hstep : step cfg s a = some s') (henqueue : ∀ f, a ≠ .enqueue f)
    (htake : ∀ f, a ≠ .take f) (hclaim : ∀ f q, a ≠ .claim f q) : Thins s s' := by
  cases step_moves hstep with
  | enqueue => exact absurd rfl (henqueue _)
  | claim | claimGone => exact absurd rfl (hclaim _ _)
  | takeNothing | take | takeGone => exact absurd rfl (htake _)
  | dropGone | giveUp | purge => exact thins_of_sublist filter_sublist
  | inProgress =>
    refine thins_of_map rfl fun d => ?_
    split <;> simp
  | settle => exact thins_settled _ _ _
  | _ => exact thins_of_sublist (List.Sublist.refl _)

variable {f : Nat}

theorem step_picked {q : Nat} (hstep : step cfg s a = some s') (hat : s'.workers f = .picked q) :
    s.workers f = .picked q ∨ ∃ d, a = .pick f ∧ s.first = some d ∧ q = d.seq := by
  cases step_moves hstep with
  | @pick g d hordering hd =>
    by_cases heq : f = g
    · subst heq
      refine .inr ⟨d, rfl, hd, ?_⟩
      have hq : Pc.picked d.seq = .picked q := by simpa [goTo] using hat
      injection hq.symm
    exact .inl (by simpa [goTo, Function.update_of_ne heq] using hat)
  | process =>
    refine .inl (at_of_goTo rfl (fun h => ?_) hat)
    have hnot : (Pc.picked q).holds = false := h ▸ after_holds _ _ _
    simp [Pc.holds] at hnot
  | _ => first | exact .inl hat | exact .inl (at_of_goTo rfl (by simp) hat)

/-! ## The invariant -/

/-- What is in flight, and what claimOrdered has chosen, is the smallest one. -/
structure FirstInFlight (s : Queue) : Prop where
  inFlight : ∀ d ∈ s.deliveries, d.inFlight = true → ∀ d' ∈ s.deliveries, d.seq ≤ d'.seq
  picked : ∀ f q, s.workers f = .picked q → ∀ d ∈ s.deliveries, q ≤ d.seq

theorem first_le {d : Queued} (h : s.first = some d) : ∀ d' ∈ s.deliveries, d.seq ≤ d'.seq :=
  fun _ hd' => le_of_mem_argmin hd' h

section
variable (h : FirstInFlight s)
include h

theorem FirstInFlight.thins (hthins : Thins s s')
    (hpicked : ∀ f q, s'.workers f = .picked q → ∀ d ∈ s.deliveries, q ≤ d.seq) :
    FirstInFlight s' := by
  refine ⟨fun d' hd' hflight e' he' => ?_, fun f q hat d' hd' => ?_⟩
  · obtain ⟨d, hd, hseq, hback⟩ := hthins d' hd'
    obtain ⟨e, he, heseq, -⟩ := hthins e' he'
    rw [← hseq, ← heseq]
    exact h.inFlight d hd (hback hflight) e he
  obtain ⟨d, hd, hseq, -⟩ := hthins d' hd'
  rw [← hseq]
  exact hpicked f q hat d hd

theorem FirstInFlight.claims {q : Nat} (hq : ∀ d ∈ s.deliveries, q ≤ d.seq)
    {d : Queued} (hd : d ∈ (s.claims cfg q).deliveries) (hflight : d.inFlight = true)
    {e : Queued} (he : e ∈ (s.claims cfg q).deliveries) : d.seq ≤ e.seq := by
  obtain ⟨d₀, hd₀, rfl⟩ := mem_map.1 hd
  obtain ⟨e₀, he₀, rfl⟩ := mem_map.1 he
  have hseq : ∀ d : Queued, (if d.seq = q then s.claimed cfg d else d).seq = d.seq := fun d => by
    split <;> rfl
  rw [hseq, hseq]
  by_cases heq : d₀.seq = q
  · rw [heq]
    exact hq e₀ he₀
  rw [if_neg heq] at hflight
  exact h.inFlight d₀ hd₀ hflight e₀ he₀

/-- What was chosen before the step or in it is the smallest one before it. -/
theorem FirstInFlight.step_picked (hstep : step cfg s a = some s') {q : Nat}
    (hat : s'.workers f = .picked q) : ∀ d ∈ s.deliveries, q ≤ d.seq := by
  rcases Queue.step_picked hstep hat with hold | ⟨d, -, hd, rfl⟩
  · exact h.picked f q hold
  exact first_le hd

theorem FirstInFlight.take (hstep : step cfg s (.take f) = some s') : FirstInFlight s' := by
  have hpicked := fun g q => h.step_picked hstep (f := g) (q := q)
  -- the seqs stay as they are, whichever claim it is
  have hseqs : ∀ q, ∀ d ∈ (s.claims cfg q).deliveries, ∃ e ∈ s.deliveries, e.seq = d.seq := by
    intro q d hd
    obtain ⟨e, he, rfl⟩ := mem_map.1 hd
    refine ⟨e, he, ?_⟩
    split <;> rfl
  have hold : ∀ q q', (∀ d ∈ s.deliveries, q' ≤ d.seq) →
      ∀ d ∈ (s.claims cfg q).deliveries, q' ≤ d.seq := by
    intro q q' hle d hd
    obtain ⟨e, he, heq⟩ := hseqs q d hd
    exact heq ▸ hle e he
  cases step_moves hstep with
  | takeNothing => exact h.thins (thins_of_sublist (List.Sublist.refl _)) hpicked
  | @take _ q d r hat =>
    refine ⟨fun d hd hflight e he => h.claims (h.picked f q hat) hd hflight he,
      fun g q' hg => hold q q' (hpicked g q' hg)⟩
  | @takeGone _ q d hat =>
    have hsub : ∀ d ∈ ((s.claims cfg q).delete s.nextToken).deliveries,
        d ∈ (s.claims cfg q).deliveries := fun d hd => mem_of_mem_filter hd
    exact ⟨fun d hd hflight e he => h.claims (h.picked f q hat) (hsub d hd) hflight (hsub e he),
      fun g q' hg d hd => hold q q' (hpicked g q' hg) d (hsub d hd)⟩

theorem FirstInFlight.enqueue (hheld : Held s) (hok : QueuedInOrder cfg s (.enqueue f))
    (hstep : step cfg s (.enqueue f) = some s') : FirstInFlight s' := by
  have hpicked : ∀ g q, s'.workers g = .picked q → s.workers g = .picked q := by
    intro g q hat
    rcases Queue.step_picked hstep hat with hold | ⟨d, hnot, -⟩
    · exact hold
    cases hnot
  cases step_moves hstep with
  | @enqueue _ rows hat =>
    refine ⟨fun d hd hflight e he => ?_, fun g q hg => ?_⟩
    · -- what is new is not in flight
      have hd : d ∈ s.deliveries := by
        rcases mem_append.1 hd with hd | hd
        · exact hd
        obtain ⟨q, -, rfl⟩ := mem_map.1 hd
        cases hflight
      rcases mem_append.1 he with he | he
      · exact h.inFlight d hd hflight e he
      obtain ⟨q, hq, rfl⟩ := mem_map.1 he
      exact (hok rows hat q hq d hd hflight).le
    -- a choice and an advance cannot both hold the subscription's row
    have hchosen := hpicked g q hg
    have hlock : s.lock = some g := hheld g (by simp [hchosen, Pc.holds])
    have hlock' : s.lock = some f := hheld f (by simp [hat, Pc.holds])
    obtain rfl : g = f := by simpa [hlock] using hlock'
    rw [hat] at hchosen
    cases hchosen

end

theorem firstInFlight_step (hordered : ∀ f, cfg.ordered f = true) (hheld : Held s)
    (h : FirstInFlight s) (hok : QueuedInOrder cfg s a) (hstep : step cfg s a = some s') :
    FirstInFlight s' := by
  have hthins := step_thins hstep
  have hrest := fun hthins => h.thins hthins fun f q => h.step_picked hstep (f := f) (q := q)
  cases a with
  | enqueue f => exact h.enqueue hheld hok hstep
  | take f => exact h.take hstep
  | claim f q =>
    cases step_moves hstep with
    | claim _ _ hunordered | claimGone _ _ hunordered => simp [hordered] at hunordered
  | _ => exact hrest (hthins (by simp) (by simp) (by simp))

theorem firstInFlight_init (cfg : Config) : FirstInFlight (init cfg) where
  inFlight d hd := by simp [init] at hd
  picked f q hat := by simp [init] at hat

/-- **One in flight.**  Where all instances are ordered, in every run in which no advance queues a
delivery before one that is in flight, at most one delivery is in flight under a live lease. -/
theorem one_in_flight (cfg : Config) (hordered : ∀ f, cfg.ordered f = true) (as : List Action)
    (s : Queue) (hmeets : Meets (step cfg) (QueuedInOrder cfg) (init cfg) as)
    (hrun : run (step cfg) (init cfg) as = some s) :
    ∀ d ∈ s.deliveries, ∀ d' ∈ s.deliveries, s.live d = true → s.live d' = true → d = d' := by
  obtain ⟨hinv, hfirst⟩ : Inv cfg s ∧ FirstInFlight s :=
    run_invariant (P := fun u => Inv cfg u ∧ FirstInFlight u)
      (fun _ _ _ h hok hstep => ⟨inv_step h.1 hstep,
        firstInFlight_step hordered h.1.held h.2 hok hstep⟩)
      ⟨inv_init cfg, firstInFlight_init cfg⟩ hmeets hrun
  intro d hd d' hd' hlive hlive'
  simp only [live, Bool.and_eq_true] at hlive hlive'
  have hseq : d.seq = d'.seq :=
    le_antisymm (hfirst.inFlight d hd hlive.1 d' hd') (hfirst.inFlight d' hd' hlive'.1 d hd)
  exact inj_on_of_nodup_map (hinv.once.sublist hinv.deliveries) hd hd' hseq

/-- Two messages of one transaction are queued by one advance; the first one is claimed. -/
def inTurn : List Action :=
  [.assign 3, .insert 3 1 (ordered "one"), .insert 3 2 (ordered "two"), .finish 3 true,
    .advance 0, .read 0 4]

theorem one_in_flight_in_turn :
    ∃ s, run (step (ordersQueue true)) (init (ordersQueue true))
        (inTurn ++ [.enqueue 0, .order 0, .pick 0, .take 0]) = some s ∧
      s.deliveries.map (fun d => (d.seq, s.live d)) = [(1, true), (2, false)] ∧
      ∀ d ∈ s.deliveries, ∀ d' ∈ s.deliveries, s.live d = true → s.live d' = true → d = d' := by
  refine ⟨?s, ?hrun, ?hlive, one_in_flight (ordersQueue true) (fun _ => rfl) _ ?s ?hmeets ?hrun⟩
  case hrun | hlive => rfl
  refine .append (.of_always ?_) fun t ht => ⟨?_, fun u hu => .of_always ?_⟩
  · simp [inTurn, QueuedInOrder]
  · have hnone : (run (step (ordersQueue true)) (init (ordersQueue true)) inTurn).map
        (fun t => t.deliveries) = some [] := rfl
    have hnone : t.deliveries = [] := by simpa [ht] using hnone
    simp [QueuedInOrder, hnone]
  simp [QueuedInOrder]

/-- The message that commits late is queued while the other one is in flight and claimed by the
second instance: two deliveries are in flight under live leases. -/
theorem two_in_flight :
    ∃ s, run (step (ordersQueue true)) (init (ordersQueue true))
        (lateCommit ++ [.order 0, .pick 0, .take 0, .finish 4 true, .advance 1, .read 1 5,
          .enqueue 1, .order 1, .pick 1, .take 1]) = some s ∧
      s.deliveries.map (fun d => (d.seq, s.live d)) = [(2, true), (1, true)] :=
  ⟨_, rfl, rfl⟩

end Queue
end BeSdk.Events.Pgqueue

import BeSdk.Extcmd.Commands

/-!
# Requests that may still land

Without a dedupe window of the external system a command is sent again only when its earlier
requests can no longer land: they were classified as not reached, the longest processing time has
passed since they were called, or the command has expired (`Settled`).  The resend rule cannot see
the requests themselves; it reads `last_reached_at`, which the transaction after a call writes.

Two things come between the calls and that time.  A worker that is gone after its call leaves
`last_reached_at` at an earlier request's, and the takeover goes by it; and a worker whose command
was taken over goes on with the row it has in memory.  Where neither happens (`Fenced`), every call
finds all earlier ones settled (`calls_find_earlier_settled`).

The invariant `LandOk` says, by the state of the row, what is known of the requests: while the
command waits to be claimed all are settled; while its result is unknown, each is settled or was
called by the last reach time; while a worker with the current row is sending, all but its own are
settled.  A transaction that writes the row makes every other worker's row out of date
(`LandOk.write`), so only the worker that goes on has to be looked at.
-/

namespace BeSdk.Extcmd

open Runs Function Tables Option Phase

def Phase.sending : Phase → Option Row
  | .beforeSend r | .issue r _ | .noEvidence r _ | .send r _ | .calling r _ _ | .sent r _ _ _ =>
    some r
  | _ => none

def Phase.asking : Phase → Option Row
  | .query r | .queried r _ => some r
  | _ => none

/-- The call of `Adapter.Send` a worker has made and not yet recorded, with its result. -/
def Phase.call : Phase → Option (Nat × Option SendClass)
  | .calling _ _ k => some (k, none)
  | .sent _ _ k result => some (k, some result)
  | _ => none

/-- The request can no longer land. -/
def Settled (cfg : Config) (expiresAt : Option Int) (now : Int) (e : Sent) : Prop :=
  e.result = some .notReached ∨ cfg.caps.maxProcessing < now - e.at ∨ expiresAt.any (· < now) = true

/-- Every request called so far can no longer land. -/
def AllSettled (cfg : Config) (s : System) : Prop :=
  ∀ k e, s.sends k = some e → Settled cfg s.facts.expiresAt s.clock e

/-- Every request called so far can no longer land, or was called by the last reach time. -/
def Covered (cfg : Config) (s : System) (lastReached : Option Int) : Prop :=
  ∀ k e, s.sends k = some e →
    Settled cfg s.facts.expiresAt s.clock e ∨ ∀ t, lastReached = some t → e.at ≤ t

/-- The job's own steps: no person registers an outcome, and no recovery is reconciled. -/
def Action.ofJob : Action → Prop
  | .register _ | .reconcileRead _ | .reconcile _ _ _ _ => False
  | _ => True

/-- A worker goes on with a command only while no other transaction has written its row, and a
sending command is taken over only if its last reach time, where it has one, covers its requests.
-/
def Fenced (cfg : Config) (s : System) : Action → Prop
  | .beforeSend w | .noEvidence w | .send w | .sent w | .queried w =>
    ∀ r, (s.workers w).memory = some r → r.seen = s.writes
  | .process _ => s.facts.state = .sending → Covered cfg s s.facts.lastReached
  | _ => True

/-- The facts that the resend rule reads are the same. -/
structure Agrees (f g : Facts) : Prop where
  state : f.state = g.state
  expiresAt : f.expiresAt = g.expiresAt
  lastReached : f.lastReached = g.lastReached
  resendDeadline : f.resendDeadline = g.resendDeadline
  unrecordedUntil : f.unrecordedUntil = g.unrecordedUntil

/-- What holds of the command, its requests and the workers in every state. -/
structure LandOk (cfg : Config) (s : System) : Prop where
  resendDeadline : s.facts.resendDeadline = none
  unrecordedUntil : s.facts.unrecordedUntil = none
  -- the requests: by their number, their time, and the worker that has called them
  unborn : ∀ k, s.calls ≤ k → s.sends k = none
  past : ∀ k e, s.sends k = some e → e.at ≤ s.clock
  called : ∀ w k result, (s.workers w).call = some (k, result) →
    ∃ e, s.sends k = some e ∧ e.result = result
  caller : ∀ w w' k result result', (s.workers w).call = some (k, result) →
    (s.workers w').call = some (k, result') → w = w'
  earlier : ∀ k e, s.sends k = some e → k + 1 < s.calls → Settled cfg s.facts.expiresAt s.clock e
  -- by the state of the row
  waiting : s.facts.state = .prepared ∨ s.facts.state = .retryWait → AllSettled cfg s
  unknown : s.facts.state = .unknown → Covered cfg s s.facts.lastReached
  -- the rows in memory: none is ahead, and one that is up to date agrees with the command's
  seen : ∀ w r, (s.workers w).memory = some r → r.seen ≤ s.writes
  agrees : ∀ w r, (s.workers w).memory = some r → r.seen = s.writes → Agrees s.facts r.facts
  asking : ∀ w r, (s.workers w).asking = some r →
    r.facts.state = .unknown ∨ r.facts.state = .accepted
  sending : ∀ w r, (s.workers w).sending = some r → r.facts.state = .sending
  -- one worker at most is sending with an up-to-date row, and knows of every other request
  alone : ∀ w w' r r', (s.workers w).sending = some r → (s.workers w').sending = some r' →
    r.seen = s.writes → r'.seen = s.writes → w = w'
  others : ∀ w r, (s.workers w).sending = some r → r.seen = s.writes → ∀ k e, s.sends k = some e →
    Settled cfg s.facts.expiresAt s.clock e ∨ ∃ result, (s.workers w).call = some (k, result)

variable {cfg : Config} {s s' : System} {w : Nat}

theorem Settled.mono {expiresAt : Option Int} {now now' : Int} {e : Sent}
    (h : Settled cfg expiresAt now e) (hnow : now ≤ now') : Settled cfg expiresAt now' e := by
  rcases h with hresult | htime | hexpired
  · exact .inl hresult
  · exact .inr (.inl (by omega))
  refine .inr (.inr ?_)
  obtain ⟨t, ht, hlt⟩ := (any_eq_true _ _).1 hexpired
  rw [ht, any_some, decide_eq_true_eq]
  have : t < now := of_decide_eq_true hlt
  omega

theorem AllSettled.covered (h : AllSettled cfg s) (lastReached : Option Int) :
    Covered cfg s lastReached :=
  fun k e he => .inl (h k e he)

variable {phase : Phase} {r : Row}

theorem Phase.memory_of_sending (h : phase.sending = some r) : phase.memory = some r := by
  cases phase <;> first | exact h | cases h

theorem Phase.asking_of_sending (h : phase.sending = some r) : phase.asking = none := by
  cases phase <;> first | rfl | cases h

section
variable (h : LandOk cfg s)
include h

theorem LandOk.advance (d : Nat) : LandOk cfg { s with clock := s.clock + d } := by
  have hmono : ∀ e, Settled cfg s.facts.expiresAt s.clock e →
      Settled cfg s.facts.expiresAt (s.clock + d) e := fun e he => he.mono (by omega)
  refine { h with past := ?_, earlier := ?_, waiting := ?_, unknown := ?_, others := ?_ }
  · intro k e he
    have : e.at ≤ s.clock := h.past k e he
    show e.at ≤ s.clock + d
    omega
  · exact fun k e he hk => hmono e (h.earlier k e he hk)
  · exact fun hstate k e he => hmono e (h.waiting hstate k e he)
  · exact fun hstate k e he => (h.unknown hstate k e he).imp_left (hmono e)
  exact fun w r hr hseen k e he => (h.others w r hr hseen k e he).imp_left (hmono e)

/-- **A transaction writes the row.** Every row in memory is out of date after it. -/
theorem LandOk.write (facts : Facts) (nextAt : Int) (attempts : List Attempt)
    (hexpires : facts.expiresAt = s.facts.expiresAt) (hdeadline : facts.resendDeadline = none)
    (hunrecorded : facts.unrecordedUntil = none)
    (hwaiting : facts.state = .prepared ∨ facts.state = .retryWait → AllSettled cfg s)
    (hunknown : facts.state = .unknown → Covered cfg s facts.lastReached) : LandOk cfg { s with
      facts := facts, nextAt := nextAt, attempts := attempts, writes := s.writes + 1 } where
  resendDeadline := hdeadline
  unrecordedUntil := hunrecorded
  unborn := h.unborn
  past := h.past
  called := h.called
  caller := h.caller
  earlier := fun k e he hk => by
    show Settled cfg facts.expiresAt s.clock e
    exact hexpires ▸ h.earlier k e he hk
  waiting := fun hstate k e he => by
    show Settled cfg facts.expiresAt s.clock e
    exact hexpires ▸ hwaiting hstate k e he
  unknown := fun hstate k e he => by
    show Settled cfg facts.expiresAt s.clock e ∨ _
    exact hexpires ▸ hunknown hstate k e he
  seen := fun w r hr => Nat.le_succ_of_le (h.seen w r hr)
  agrees := fun w r hr hseen => absurd (h.seen w r hr) (by simp only at hseen; omega)
  asking := h.asking
  sending := h.sending
  alone := fun w _ r _ hr _ hseen => by
    have : r.seen ≤ s.writes := h.seen w r (memory_of_sending hr)
    simp only at hseen
    omega
  others := fun w r hr hseen => by
    have : r.seen ≤ s.writes := h.seen w r (memory_of_sending hr)
    simp only at hseen
    omega

theorem LandOk.set (state : State) (next : Int)
    (hwaiting : state = .prepared ∨ state = .retryWait → AllSettled cfg s)
    (hunknown : state = .unknown → Covered cfg s s.facts.lastReached) :
    LandOk cfg (s.set state next) :=
  h.write _ _ _ rfl h.resendDeadline h.unrecordedUntil hwaiting hunknown

theorem LandOk.attempts (attempts : List Attempt) :
    LandOk cfg { s with attempts := attempts } := { h with }

end

structure Enters (cfg : Config) (s : System) (w : Nat) (phase : Phase) : Prop where
  called : ∀ k result, phase.call = some (k, result) → ∃ e, s.sends k = some e ∧ e.result = result
  caller : ∀ k result w' result', phase.call = some (k, result) →
    (s.workers w').call = some (k, result') → w' = w
  seen : ∀ r, phase.memory = some r → r.seen ≤ s.writes
  agrees : ∀ r, phase.memory = some r → r.seen = s.writes → Agrees s.facts r.facts
  asking : ∀ r, phase.asking = some r → r.facts.state = .unknown ∨ r.facts.state = .accepted
  sending : ∀ r, phase.sending = some r → r.facts.state = .sending
  alone : ∀ r w' r', phase.sending = some r → (s.workers w').sending = some r' →
    r.seen = s.writes → r'.seen = s.writes → w' = w
  others : ∀ r, phase.sending = some r → r.seen = s.writes → ∀ k e, s.sends k = some e →
    Settled cfg s.facts.expiresAt s.clock e ∨ ∃ result, phase.call = some (k, result)

theorem LandOk.goTo (h : LandOk cfg s) (w : Nat) (phase : Phase) (hin : Enters cfg s w phase) :
    LandOk cfg (s.goTo w phase) := by
  have hcases := update_cases s.workers w phase
  refine { h with
    called := ?_, caller := ?_, seen := ?_, agrees := ?_, asking := ?_, sending := ?_, alone := ?_,
    others := ?_ }
  · intro w₁ k result hcall
    rcases hcases w₁ with ⟨-, hself⟩ | ⟨-, hother⟩
    · exact hin.called k result (hself ▸ hcall)
    exact h.called w₁ k result (hother ▸ hcall)
  · intro w₁ w₂ k result₁ result₂ hcall₁ hcall₂
    rcases hcases w₁ with ⟨rfl, hself₁⟩ | ⟨-, hother₁⟩ <;>
      rcases hcases w₂ with ⟨rfl, hself₂⟩ | ⟨-, hother₂⟩
    · rfl
    · exact (hin.caller k result₁ w₂ result₂ (hself₁ ▸ hcall₁) (hother₂ ▸ hcall₂)).symm
    · exact hin.caller k result₂ w₁ result₁ (hself₂ ▸ hcall₂) (hother₁ ▸ hcall₁)
    exact h.caller w₁ w₂ k result₁ result₂ (hother₁ ▸ hcall₁) (hother₂ ▸ hcall₂)
  · intro w₁ r hr
    rcases hcases w₁ with ⟨-, hself⟩ | ⟨-, hother⟩
    · exact hin.seen r (hself ▸ hr)
    exact h.seen w₁ r (hother ▸ hr)
  · intro w₁ r hr
    rcases hcases w₁ with ⟨-, hself⟩ | ⟨-, hother⟩
    · exact hin.agrees r (hself ▸ hr)
    exact h.agrees w₁ r (hother ▸ hr)
  · intro w₁ r hr
    rcases hcases w₁ with ⟨-, hself⟩ | ⟨-, hother⟩
    · exact hin.asking r (hself ▸ hr)
    exact h.asking w₁ r (hother ▸ hr)
  · intro w₁ r hr
    rcases hcases w₁ with ⟨-, hself⟩ | ⟨-, hother⟩
    · exact hin.sending r (hself ▸ hr)
    exact h.sending w₁ r (hother ▸ hr)
  · intro w₁ w₂ r₁ r₂ hr₁ hr₂
    rcases hcases w₁ with ⟨rfl, hself₁⟩ | ⟨-, hother₁⟩ <;>
      rcases hcases w₂ with ⟨rfl, hself₂⟩ | ⟨-, hother₂⟩
    · exact fun _ _ => rfl
    · exact fun hseen₁ hseen₂ =>
        (hin.alone r₁ w₂ r₂ (hself₁ ▸ hr₁) (hother₂ ▸ hr₂) hseen₁ hseen₂).symm
    · exact fun hseen₁ hseen₂ => hin.alone r₂ w₁ r₁ (hself₂ ▸ hr₂) (hother₁ ▸ hr₁) hseen₂ hseen₁
    exact h.alone w₁ w₂ r₁ r₂ (hother₁ ▸ hr₁) (hother₂ ▸ hr₂)
  intro w₁ r hr hseen k e he
  rcases hcases w₁ with ⟨-, hself⟩ | ⟨-, hother⟩
  · have := hin.others r (hself ▸ hr) hseen k e he
    rwa [← hself] at this
  have := h.others w₁ r (hother ▸ hr) hseen k e he
  rwa [← hother] at this

theorem Enters.idle : Enters cfg s w .idle := by
  constructor
  all_goals
    intros
    contradiction

section
variable (h : LandOk cfg s)
include h

theorem LandOk.idle (w : Nat) : LandOk cfg (s.goTo w .idle) :=
    h.goTo w .idle .idle

/-- A worker that has just read the row of an unknown or accepted command queries it. -/
theorem LandOk.query (hstate : s.facts.state = .unknown ∨ s.facts.state = .accepted) :
    LandOk cfg (s.goTo w (.query s.load)) := by
  refine h.goTo w _ ?_
  constructor
  case seen =>
    rintro _ ⟨⟩
    exact Nat.le_refl _
  case agrees =>
    rintro _ ⟨⟩ -
    exact ⟨rfl, rfl, rfl, rfl, rfl⟩
  case asking =>
    rintro _ ⟨⟩
    exact hstate
  all_goals
    intros
    contradiction

/-- A worker keeps its row on its way to the call. -/
theorem LandOk.goOn (r' : Row) (hold : (s.workers w).sending = some r)
    (hnone : (s.workers w).call = none) (hnew : phase.sending = some r') (hcall : phase.call = none)
    (hfacts : r'.facts = r.facts) (hseen : r'.seen = r.seen) : LandOk cfg (s.goTo w phase) := by
  have hmemory : phase.memory = some r' := memory_of_sending hnew
  have hmemory' : (s.workers w).memory = some r := memory_of_sending hold
  refine h.goTo w _ ?_
  constructor
  case called =>
    intro k result hk
    rw [hcall] at hk
    cases hk
  case caller =>
    intro k result w' result' hk
    rw [hcall] at hk
    cases hk
  case seen =>
    intro r'' hr''
    obtain rfl : r' = r'' := some.inj (hmemory.symm.trans hr'')
    exact hseen ▸ h.seen w r hmemory'
  case agrees =>
    intro r'' hr'' hcurrent
    obtain rfl : r' = r'' := some.inj (hmemory.symm.trans hr'')
    exact hfacts ▸ h.agrees w r hmemory' (hseen ▸ hcurrent)
  case asking =>
    intro r'' hr''
    rw [asking_of_sending hnew] at hr''
    cases hr''
  case sending =>
    intro r'' hr''
    obtain rfl : r' = r'' := some.inj (hnew.symm.trans hr'')
    exact hfacts ▸ h.sending w r hold
  case alone =>
    intro r'' w' r₁ hr'' hr₁ hcurrent hcurrent₁
    obtain rfl : r' = r'' := some.inj (hnew.symm.trans hr'')
    exact h.alone w' w r₁ r hr₁ hold hcurrent₁ (hseen ▸ hcurrent)
  case others =>
    intro r'' hr'' hcurrent k e he
    obtain rfl : r' = r'' := some.inj (hnew.symm.trans hr'')
    rcases h.others w r hold (hseen ▸ hcurrent) k e he with hsettled | ⟨result, hown⟩
    · exact .inl hsettled
    rw [hnone] at hown
    cases hown

/-- **A claim.** The transaction writes the row, so the claimant is the only one with an up-to-date
row. -/
theorem LandOk.claimed (hagrees : Agrees s.facts r.facts)
    (hall : AllSettled cfg s) : LandOk cfg (s.claimed w r) := by
  have hset : LandOk cfg (s.set .sending (s.clock + sendLease)) := h.set _ _ (by simp) (by simp)
  refine hset.goTo w _ ?_
  constructor
  case seen =>
    rintro _ ⟨⟩
    exact Nat.le_refl _
  case agrees =>
    rintro _ ⟨⟩ -
    exact { hagrees with state := rfl }
  case sending =>
    rintro _ ⟨⟩
    rfl
  case alone =>
    intro _ w' r' _ hr' _ hcurrent
    have hseen : r'.seen ≤ s.writes := h.seen w' r' (memory_of_sending hr')
    have hcurrent : r'.seen = s.writes + 1 := hcurrent
    omega
  case others => exact fun _ _ _ k e he => .inl (hall k e he)
  all_goals
    intros
    contradiction

/-- **A request is called**, while no worker is sending with an up-to-date row. -/
theorem LandOk.request (hall : AllSettled cfg s) (hstate : s.facts.state = .sending)
    (hnone : ∀ w r, (s.workers w).sending = some r → r.seen ≠ s.writes) : LandOk cfg { s with
      sends := update s.sends s.calls (some { «at» := s.clock }), calls := s.calls + 1 } := by
  have hcases := update_cases s.sends s.calls (some { «at» := s.clock })
  refine { h with
    unborn := ?_, past := ?_, called := ?_, earlier := ?_, waiting := ?_, unknown := ?_,
    others := ?_ }
  · intro k hk
    have hk : s.calls + 1 ≤ k := hk
    rcases hcases k with ⟨rfl, -⟩ | ⟨-, hother⟩
    · omega
    exact hother.trans (h.unborn k (by omega))
  · intro k e he
    rcases hcases k with ⟨-, hself⟩ | ⟨-, hother⟩
    · cases hself.symm.trans he
      exact Int.le_refl _
    exact h.past k e (hother ▸ he)
  · intro w k result hcall
    obtain ⟨e, he, hresult⟩ := h.called w k result hcall
    rcases hcases k with ⟨rfl, -⟩ | ⟨-, hother⟩
    · rw [h.unborn s.calls (Nat.le_refl _)] at he
      cases he
    exact ⟨e, hother.trans he, hresult⟩
  · intro k e he hk
    have hk : k + 1 < s.calls + 1 := hk
    rcases hcases k with ⟨rfl, -⟩ | ⟨-, hother⟩
    · omega
    exact hall k e (hother ▸ he)
  · intro hwaiting
    rw [show s.facts.state = .sending from hstate] at hwaiting
    simp at hwaiting
  · intro hunknown
    cases hstate.symm.trans hunknown
  exact fun w r hr hcurrent => absurd hcurrent (hnone w r hr)

/-- **A request's result is known**, and no worker has the call. -/
theorem LandOk.returned {k : Nat} {e : Sent} (hk : s.sends k = some e) (hpending : e.result = none)
    (hfree : ∀ w result, (s.workers w).call ≠ some (k, result)) (result : SendClass) :
    LandOk cfg { s with sends := update s.sends k (some { e with result := some result }) } := by
  have hcases := update_cases s.sends k (some { e with result := some result })
  -- every request in the history is an earlier one, and no less settled
  have hfrom : ∀ j e', update s.sends k (some { e with result := some result }) j = some e' →
      ∃ e₀, s.sends j = some e₀ ∧ e'.at = e₀.at ∧
        (Settled cfg s.facts.expiresAt s.clock e₀ → Settled cfg s.facts.expiresAt s.clock e') := by
    intro j e' he'
    rcases hcases j with ⟨rfl, hself⟩ | ⟨-, hother⟩
    · cases hself.symm.trans he'
      refine ⟨e, hk, rfl, fun hsettled => ?_⟩
      rcases hsettled with hresult | htime
      · rw [hpending] at hresult
        cases hresult
      exact .inr htime
    exact ⟨e', hother ▸ he', rfl, id⟩
  refine { h with
    unborn := ?_, past := ?_, called := ?_, earlier := ?_, waiting := ?_, unknown := ?_,
    others := ?_ }
  · intro j hj
    rcases hcases j with ⟨rfl, -⟩ | ⟨-, hother⟩
    · rw [h.unborn j hj] at hk
      cases hk
    exact hother.trans (h.unborn j hj)
  · intro j e' he'
    obtain ⟨e₀, he₀, hat, -⟩ := hfrom j e' he'
    exact hat ▸ h.past j e₀ he₀
  · intro w j result' hcall
    rcases hcases j with ⟨rfl, -⟩ | ⟨-, hother⟩
    · exact absurd hcall (hfree w result')
    obtain ⟨e₀, he₀, hresult⟩ := h.called w j result' hcall
    exact ⟨e₀, hother.trans he₀, hresult⟩
  · intro j e' he' hj
    obtain ⟨e₀, he₀, -, hsettled⟩ := hfrom j e' he'
    exact hsettled (h.earlier j e₀ he₀ hj)
  · intro hwaiting j e' he'
    obtain ⟨e₀, he₀, -, hsettled⟩ := hfrom j e' he'
    exact hsettled (h.waiting hwaiting j e₀ he₀)
  · intro hunknown j e' he'
    obtain ⟨e₀, he₀, hat, hsettled⟩ := hfrom j e' he'
    exact (h.unknown hunknown j e₀ he₀).imp hsettled (hat ▸ ·)
  intro w r hr hcurrent j e' he'
  obtain ⟨e₀, he₀, -, hsettled⟩ := hfrom j e' he'
  exact (h.others w r hr hcurrent j e₀ he₀).imp_left hsettled

/-- What a worker knows that is sending with an up-to-date row and has not called yet. -/
theorem LandOk.uncalled (hsending : (s.workers w).sending = some r)
    (hcall : (s.workers w).call = none) (hcurrent : r.seen = s.writes) :
    s.facts.state = .sending ∧ AllSettled cfg s := by
  have hagrees : Agrees s.facts r.facts := h.agrees w r (memory_of_sending hsending) hcurrent
  refine ⟨hagrees.state.trans (h.sending w r hsending), fun k e he => ?_⟩
  rcases h.others w r hsending hcurrent k e he with hsettled | ⟨result, hown⟩
  · exact hsettled
  rw [hcall] at hown
  cases hown

end

variable {n : Nat}

section
variable (h : LandOk cfg s)
include h

theorem LandOk.send (hphase : s.workers w = .send r n) (hcurrent : r.seen = s.writes) :
    LandOk cfg { s.goTo w (.calling r n s.calls) with
      sends := update s.sends s.calls (some { «at» := s.clock })
      calls := s.calls + 1 } := by
  have hsending := congrArg Phase.sending hphase
  obtain ⟨hstate, hall⟩ := h.uncalled hsending (hphase ▸ rfl) hcurrent
  have hmemory : (s.workers w).memory = some r := memory_of_sending hsending
  -- with the worker out of the way nobody is sending with an up-to-date row
  have hnone : ∀ w' r', ((s.goTo w .idle).workers w').sending = some r' → r'.seen ≠ s.writes := by
    intro w' r' hr' hcurrent'
    rcases update_cases s.workers w .idle w' with ⟨-, hself⟩ | ⟨hne, hother⟩
    · rw [show (s.goTo w .idle).workers w' = .idle from hself] at hr'
      cases hr'
    exact hne (h.alone w' w r' r (hother ▸ hr') hsending hcurrent' hcurrent)
  have hcalls : ∀ w' k result, ((s.goTo w .idle).workers w').call = some (k, result) →
      k ≠ s.calls := by
    rintro w' k result hcall rfl
    obtain ⟨e, he, -⟩ := (h.idle w).called w' s.calls result hcall
    rw [show (s.goTo w .idle).sends s.calls = none from h.unborn _ (Nat.le_refl _)] at he
    cases he
  have hrequest := (h.idle w).request hall hstate hnone
  have hgo := hrequest.goTo w (.calling r n s.calls) (by
    constructor
    case called =>
      rintro _ _ ⟨⟩
      exact ⟨_, update_self _ _ _, rfl⟩
    case caller =>
      rintro _ _ w' result' ⟨⟩ hcall
      exact absurd rfl (hcalls w' _ result' hcall)
    case seen =>
      rintro _ ⟨⟩
      exact h.seen w r hmemory
    case agrees =>
      rintro _ ⟨⟩
      exact h.agrees w r hmemory
    case asking => rintro _ ⟨⟩
    case sending =>
      rintro _ ⟨⟩
      exact h.sending w r hsending
    case alone =>
      intro _ w' r' _ hr' _ hcurrent'
      exact absurd hcurrent' (hnone w' r' hr')
    case others =>
      rintro _ ⟨⟩ - k e he
      rcases update_cases s.sends s.calls (some { «at» := s.clock }) k with ⟨rfl, -⟩ | ⟨-, hother⟩
      · exact .inr ⟨none, rfl⟩
      exact .inl (hall k e (hother ▸ he)))
  simpa only [System.goTo, update_idem] using hgo

theorem LandOk.sendReturns {k : Nat} (hphase : s.workers w = .calling r n k) (result : SendClass) :
    LandOk cfg { s.goTo w (.sent r n k result) with
      sends := update s.sends k ((s.sends k).map fun e => { e with result := some result }) } := by
  have hsending := congrArg Phase.sending hphase
  have hmemory : (s.workers w).memory = some r := memory_of_sending hsending
  have hcall := congrArg Phase.call hphase
  obtain ⟨e, he, hpending⟩ := h.called w k none hcall
  -- with the worker out of the way nobody has the call
  have hfree : ∀ w' result', ((s.goTo w .idle).workers w').call ≠ some (k, result') := by
    intro w' result' hcall'
    rcases update_cases s.workers w .idle w' with ⟨-, hself⟩ | ⟨hne, hother⟩
    · rw [show (s.goTo w .idle).workers w' = .idle from hself] at hcall'
      cases hcall'
    exact hne (h.caller w' w k result' none (hother ▸ hcall') hcall)
  have hreturned := (h.idle w).returned he hpending hfree result
  have hgo := hreturned.goTo w (.sent r n k result) (by
    constructor
    case called =>
      rintro _ _ ⟨⟩
      exact ⟨_, update_self _ _ _, rfl⟩
    case caller =>
      rintro _ _ w' result' ⟨⟩ hcall'
      exact absurd hcall' (hfree w' result')
    case seen =>
      rintro _ ⟨⟩
      exact h.seen w r hmemory
    case agrees =>
      rintro _ ⟨⟩
      exact h.agrees w r hmemory
    case asking => rintro _ ⟨⟩
    case sending =>
      rintro _ ⟨⟩
      exact h.sending w r hsending
    case alone =>
      rintro _ w' r' ⟨⟩ hr' hcurrent hcurrent'
      rcases update_cases s.workers w .idle w' with ⟨hw, -⟩ | ⟨-, hother⟩
      · exact hw
      exact h.alone w' w r' r (hother ▸ hr') hsending hcurrent' hcurrent
    case others =>
      rintro _ ⟨⟩ hcurrent j e' he'
      rcases update_cases s.sends k (some { e with result := some result }) j with
        ⟨rfl, -⟩ | ⟨hne, hother⟩
      · exact .inr ⟨some result, rfl⟩
      rcases h.others w r hsending hcurrent j e' (hother ▸ he') with hsettled | ⟨_, hown⟩
      · exact .inl hsettled
      rw [hcall] at hown
      cases hown
      exact absurd rfl hne)
  simpa only [System.goTo, update_idem, he, map_some] using hgo

theorem LandOk.finalityPassed (hstate : s.facts.state = .accepted) (w : Nat) :
    LandOk cfg (s.finalityPassed cfg w) := by
  have hnext : (Step s.facts .finalityPassed cfg.caps s.clock).1 = .accepted ∨
      (Step s.facts .finalityPassed cfg.caps s.clock).1 = .manual := by
    simp only [Step, hstate, State.terminal]
    grind
  unfold System.finalityPassed
  dsimp only
  split
  · exact h.query (.inr hstate)
  refine h.set _ _ ?_ ?_
  · rcases hnext with hnext | hnext <;> simp [hnext]
  rcases hnext with hnext | hnext <;> simp [hnext]

/-- A claim is never past the resend deadline: there is none. -/
theorem claim_next (hstate : s.facts.state = .prepared ∨ s.facts.state = .retryWait) :
    (Step s.facts .claim cfg.caps s.clock).1 = .sending := by
  rcases hstate with hstate | hstate <;> simp [Step, hstate, State.terminal, h.resendDeadline]

theorem LandOk.process (hfenced : Fenced cfg s (.process w)) : LandOk cfg (s.process cfg w) := by
  have hclaim : s.facts.state = .prepared ∨ s.facts.state = .retryWait →
      LandOk cfg (if cfg.queryOnly then s.set s.facts.state (s.clock + backoffStart)
        else if (Step s.facts .claim cfg.caps s.clock).1 = .unknown then s.set .unknown s.clock
        else s.claimed w s.load) := by
    intro hwaiting
    have hall : AllSettled cfg s := h.waiting hwaiting
    split
    · exact h.set _ _ (fun _ => hall) (fun _ => hall.covered _)
    rw [claim_next h hwaiting, if_neg (by decide)]
    exact h.claimed ⟨rfl, rfl, rfl, rfl, rfl⟩ hall
  cases hstate : s.facts.state with
  | prepared => simpa only [System.process, hstate] using hclaim (.inl hstate)
  | retryWait => simpa only [System.process, hstate] using hclaim (.inr hstate)
  | sending =>
    simp only [System.process, hstate]
    have hnext : (Step s.facts .leaseLost cfg.caps s.clock).1 = .unknown := by
      simp [Step, hstate, State.terminal]
    rw [hnext]
    exact h.set _ _ (by simp) fun _ => hfenced hstate
  | unknown =>
    simp only [System.process, hstate]
    exact h.query (.inl hstate)
  | accepted =>
    simp only [System.process, hstate]
    split
    · split
      · exact h.set _ _ (by simp) (by simp)
      exact h.finalityPassed hstate w
    exact h.finalityPassed hstate w
  | _ => simpa only [System.process, hstate] using h

theorem LandOk.beforeSend (hphase : s.workers w = .beforeSend r)
    (hcurrent : r.seen = s.writes) : LandOk cfg (s.beforeSend cfg w r) := by
  have hsending := congrArg Phase.sending hphase
  have hagrees : Agrees s.facts r.facts := h.agrees w r (memory_of_sending hsending) hcurrent
  have hnext : (Step r.facts .beforeSend cfg.caps s.clock).1 = .sending := by
    simp [Step, h.sending w r hsending, State.terminal, ← hagrees.resendDeadline, h.resendDeadline]
  unfold System.beforeSend
  rw [hnext, if_neg (by decide)]
  split
  · refine (h.attempts _).goOn { r with now := s.clock } hsending ?_ ?_ ?_ rfl rfl
    · exact congrArg Phase.call hphase
    · split <;> rfl
    split <;> rfl
  exact h.idle w

theorem LandOk.issue (hphase : s.workers w = .issue r n)
    (written : Bool) : LandOk cfg (s.goTo w (if written then .send r n else .noEvidence r n)) := by
  have hsending := congrArg Phase.sending hphase
  refine h.goOn r hsending (hphase ▸ rfl) ?_ ?_ rfl rfl
  · cases written <;> rfl
  cases written <;> rfl

theorem LandOk.noEvidence (hphase : s.workers w = .noEvidence r n) (hcurrent : r.seen = s.writes) :
    LandOk cfg (((s.endAttempt n).set .retryWait (r.now + backoff n)).goTo w .idle) := by
  have hsending := congrArg Phase.sending hphase
  obtain ⟨-, hall⟩ := h.uncalled hsending (hphase ▸ rfl) hcurrent
  have hset : LandOk cfg ((s.endAttempt n).set .retryWait (r.now + backoff n)) :=
    (h.attempts _).set _ _ (fun _ => hall) (by simp)
  exact hset.idle w

/-- **A result is recorded.** After a request that was not reached all are settled; after any other
one the last reach time is now, and every request was called by then. -/
theorem LandOk.sent (hdedupe : cfg.caps.dedupeWindow = 0) {k : Nat}
    {result : SendClass} (hphase : s.workers w = .sent r n k result)
    (hcurrent : r.seen = s.writes) : LandOk cfg (s.sent cfg w r n result) := by
  have hsending := congrArg Phase.sending hphase
  have hcall := congrArg Phase.call hphase
  have hstate : (s.reached cfg r result).state = .sending := by
    have := h.sending w r hsending
    unfold System.reached
    dsimp only
    split <;> exact this
  have hdeadline : (s.reached cfg r result).resendDeadline = none := by
    simp [System.reached, Deadline, hdedupe]
  have hlast : result ≠ .notReached → (s.reached cfg r result).lastReached = some s.clock := by
    intro hreached
    simp [System.reached, hreached]
  have hwaiting : result = .notReached → AllSettled cfg s := by
    rintro rfl j e he
    rcases h.others w r hsending hcurrent j e he with hsettled | ⟨result', hown⟩
    · exact hsettled
    rw [hcall] at hown
    cases hown
    obtain ⟨e', he', hresult⟩ := h.called w k _ hcall
    cases he'.symm.trans he
    exact .inl hresult
  -- the state after the result, by its class
  generalize hf : s.reached cfg r result = f at hstate hdeadline hlast
  have hnext : ∀ state, (Step f (.sendResult result) cfg.caps s.clock).1 = state →
      (state = .prepared ∨ state = .retryWait → result = .notReached) ∧
      (state = .unknown → result ≠ .notReached) := by
    rintro state rfl
    cases result <;> simp [Step, hstate, State.terminal]
  unfold System.sent
  dsimp only
  rw [hf]
  refine LandOk.idle ?_ w
  obtain ⟨hrest, hunknown⟩ := hnext _ rfl
  refine h.write _ _ _ rfl hdeadline h.unrecordedUntil (fun hnext => hwaiting (hrest hnext)) ?_
  intro hnext j e he
  refine .inr fun t ht => ?_
  have hnow : some s.clock = some t := (hlast (hunknown hnext)).symm.trans ht
  cases hnow
  exact h.past j e he

theorem LandOk.queryReturns (hphase : s.workers w = .query r)
    (answer : Answer) : LandOk cfg (s.goTo w (.queried r answer)) := by
  have hmemory := congrArg Phase.memory hphase
  refine h.goTo w _ ?_
  constructor
  case seen =>
    rintro _ ⟨⟩
    exact h.seen w r hmemory
  case agrees =>
    rintro _ ⟨⟩
    exact h.agrees w r hmemory
  case asking =>
    rintro _ ⟨⟩
    exact h.asking w r (hphase ▸ rfl)
  all_goals
    intros
    contradiction

end

/-- Without dedupe and without a recovery a request is sent again after the expiry or the longest
processing time. -/
theorem resendable_cases {f : Facts} {now : Int} (hdedupe : cfg.caps.dedupeWindow = 0)
    (hunrecorded : f.unrecordedUntil = none) (h : (resendable f cfg.caps now).1 = true) :
    f.expiresAt.any (· < now) = true ∨
      ∃ t, f.lastReached = some t ∧ cfg.caps.maxProcessing < now - t := by
  have hlatest : f.latest = f.lastReached := by
    unfold Facts.latest
    rw [hunrecorded]
    cases f.lastReached <;> rfl
  have hdeadline : Deadline f cfg.caps = none := by simp [Deadline, hdedupe]
  unfold resendable at h
  rw [hdeadline, hlatest] at h
  by_cases hexpired : f.expiresAt.any (· < now) = true
  · exact .inl hexpired
  rw [if_neg (by simp), if_neg hexpired] at h
  split at h
  next hpassed =>
    obtain ⟨t, ht, hlt⟩ := (any_eq_true _ _).1 hpassed.2
    exact .inr ⟨t, ht, of_decide_eq_true hlt⟩
  cases h

theorem answer_next (cfg : Config) {f : Facts} (hstate : f.state = .unknown ∨ f.state = .accepted)
    (answer : Answer) (now : Int) (state : State)
    (hnext : (Step f answer.event cfg.caps now).1 = state) :
    ¬ (state = .prepared ∨ state = .retryWait) ∧ (state = .unknown → f.state = .unknown) ∧
      (state = .sending → f.state = .unknown ∧ (resendable f cfg.caps now).1 = true) := by
  subst hnext
  rcases hstate with hstate | hstate
  · cases answer with
    | found external => cases external <;> simp [Step, Answer.event, hstate, State.terminal, found,
        External.state]
    | notFound =>
      simp only [Step, Answer.event, hstate, State.terminal]
      grind
    | unavailable =>
      simp only [Step, Answer.event, hstate, State.terminal, unanswered]
      grind
  · cases answer with
    | found external => cases external <;> simp [Step, Answer.event, hstate, State.terminal, found,
        External.state]
    | notFound => simp [Step, Answer.event, hstate, State.terminal]
    | unavailable =>
      simp only [Step, Answer.event, hstate, State.terminal, unanswered]
      grind

theorem LandOk.resend (h : LandOk cfg s) (hdedupe : cfg.caps.dedupeWindow = 0)
    (hunknown : s.facts.state = .unknown) {f : Facts} (hagrees : Agrees s.facts f)
    (hresend : (resendable f cfg.caps s.clock).1 = true) : AllSettled cfg s := by
  intro k e he
  have hunrecorded : f.unrecordedUntil = none := hagrees.unrecordedUntil ▸ h.unrecordedUntil
  rcases resendable_cases hdedupe hunrecorded hresend with hexpired | ⟨t, ht, hpassed⟩
  · exact .inr (.inr (hagrees.expiresAt ▸ hexpired))
  rcases h.unknown hunknown k e he with hsettled | hcovered
  · exact hsettled
  have : e.at ≤ t := hcovered t (hagrees.lastReached.trans ht)
  exact .inr (.inl (by omega))

theorem LandOk.queried (h : LandOk cfg s) (hdedupe : cfg.caps.dedupeWindow = 0)
    {answer : Answer} (hphase : s.workers w = .queried r answer) (hcurrent : r.seen = s.writes) :
    LandOk cfg (s.queried cfg w r answer) := by
  have hagrees : Agrees s.facts r.facts := h.agrees w r (hphase ▸ rfl) hcurrent
  have hasking : r.facts.state = .unknown ∨ r.facts.state = .accepted :=
    h.asking w r (hphase ▸ rfl)
  obtain ⟨hwaiting, hunknown, hsending⟩ := answer_next cfg hasking answer s.clock _ rfl
  unfold System.queried
  dsimp only
  generalize (Step r.facts answer.event cfg.caps s.clock).1 = next at hwaiting hunknown hsending
  split
  · by_cases honly : next = .sending ∧ cfg.queryOnly = true
    · -- query-only: the resend the table allows is not made
      rw [if_pos honly, if_neg (by decide)]
      refine LandOk.idle ((h.attempts _).set _ _ (by simp) fun _ => ?_) w
      exact h.unknown (hagrees.state.trans (hsending honly.1).1)
    rw [if_neg honly]
    split
    next hnext =>
      obtain ⟨hstate, hresend⟩ := hsending hnext
      exact (h.attempts _).claimed hagrees
        (h.resend hdedupe (hagrees.state.trans hstate) hagrees hresend)
    refine LandOk.idle ((h.attempts _).set _ _ (fun hnext => absurd hnext hwaiting) ?_) w
    exact fun hnext => h.unknown (hagrees.state.trans (hunknown hnext))
  exact h.idle w

theorem step_landOk (hdedupe : cfg.caps.dedupeWindow = 0) {a : Action} (h : LandOk cfg s)
    (hjob : a.ofJob) (hfenced : Fenced cfg s a) (hstep : step cfg s a = some s') :
    LandOk cfg s' := by
  cases a with simp only [step] at hstep
  | advance d =>
    cases hstep
    exact h.advance d
  | process w =>
    obtain ⟨-, ⟨⟩⟩ := ite_none_right_eq_some.1 hstep
    exact h.process hfenced
  | beforeSend w =>
    split at hstep <;> cases hstep
    rename_i r hphase
    exact h.beforeSend hphase (hfenced r (hphase ▸ rfl))
  | issue w written =>
    split at hstep <;> cases hstep
    rename_i r n hphase
    exact h.issue hphase written
  | noEvidence w =>
    split at hstep <;> cases hstep
    rename_i r n hphase
    exact h.noEvidence hphase (hfenced r (hphase ▸ rfl))
  | send w =>
    split at hstep <;> cases hstep
    rename_i r n hphase
    exact h.send hphase (hfenced r (hphase ▸ rfl))
  | sendReturns w result =>
    split at hstep <;> cases hstep
    rename_i r n k hphase
    exact h.sendReturns hphase result
  | sent w =>
    split at hstep <;> cases hstep
    rename_i r n k result hphase
    exact h.sent hdedupe hphase (hfenced r (hphase ▸ rfl))
  | query w answer =>
    split at hstep <;> cases hstep
    rename_i r hphase
    exact h.queryReturns hphase _
  | queried w =>
    split at hstep <;> cases hstep
    rename_i r answer hphase
    exact h.queried hdedupe hphase (hfenced r (hphase ▸ rfl))
  | crash w =>
    cases hstep
    exact h.idle w
  | register result | reconcileRead p | reconcile p external t failedAt => exact hjob.elim

theorem landOk_init (clock : Int) (expiresAt : Option Int) :
    LandOk cfg (.init clock expiresAt) where
  resendDeadline := rfl
  unrecordedUntil := rfl
  unborn := fun _ _ => rfl
  past := by rintro _ _ ⟨⟩
  called := by rintro _ _ _ ⟨⟩
  caller := by rintro _ _ _ _ _ ⟨⟩
  earlier := by rintro _ _ ⟨⟩
  waiting := by rintro - _ _ ⟨⟩
  unknown := by rintro - _ _ ⟨⟩
  seen := by rintro _ _ ⟨⟩
  agrees := by rintro _ _ ⟨⟩
  asking := by rintro _ _ ⟨⟩
  sending := by rintro _ _ ⟨⟩
  alone := by rintro _ _ _ _ ⟨⟩
  others := by rintro _ _ ⟨⟩

/-- **No two requests of a command can land.** An operation without a dedupe window, a run of the
job in which a worker goes on only while no other transaction has written the row and a takeover
finds the last reach time to cover the requests: whenever `Adapter.Send` is called, every earlier
request was not reached, is older than the longest processing time or has expired; and of all
requests called so far one at most may still land. -/
theorem calls_find_earlier_settled (cfg : Config) (hdedupe : cfg.caps.dedupeWindow = 0)
    (clock : Int) (expiresAt : Option Int) (acts : List Action) (s : System)
    (hjob : ∀ a ∈ acts, a.ofJob)
    (hmeets : Meets (step cfg) (Fenced cfg) (.init clock expiresAt) acts)
    (hrun : run (step cfg) (.init clock expiresAt) acts = some s) :
    (∀ w s', Fenced cfg s (.send w) → step cfg s (.send w) = some s' → AllSettled cfg s) ∧
      ∀ j k e e', s.sends j = some e → s.sends k = some e' →
        ¬ Settled cfg s.facts.expiresAt s.clock e → ¬ Settled cfg s.facts.expiresAt s.clock e' →
        j = k := by
  have hboth : Meets (step cfg) (fun s a => a.ofJob ∧ Fenced cfg s a)
    (.init clock expiresAt) acts :=
    (Meets.of_forall hjob).and hmeets
  have h : LandOk cfg s := run_invariant
    (fun _ _ _ h hok => step_landOk hdedupe h hok.1 hok.2) (landOk_init clock expiresAt) hboth hrun
  refine ⟨fun w s' hfenced hstep => ?_, fun j k e e' he he' hopen hopen' => ?_⟩
  · simp only [step] at hstep
    split at hstep
    next r n hphase =>
      have hsending := congrArg Phase.sending hphase
      have hcurrent : r.seen = s.writes := hfenced r (hphase ▸ rfl)
      exact (h.uncalled hsending (hphase ▸ rfl) hcurrent).2
    cases hstep
  -- a request that may still land is the last one called
  have hlast : ∀ k e, s.sends k = some e → ¬ Settled cfg s.facts.expiresAt s.clock e →
      k + 1 = s.calls := by
    intro k e he hopen
    have hlt : ¬ k + 1 < s.calls := fun hk => hopen (h.earlier k e he hk)
    have hborn : ¬ s.calls ≤ k := fun hk => by
      rw [h.unborn k hk] at he
      cases he
    omega
  have := hlast j e he hopen
  have := hlast k e' he' hopen'
  omega

/-- The first request timed out and is older than the longest processing time: it is sent again, and
the worker is gone after the call.  The takeover's query goes by the first request's time. -/
theorem resent_while_the_second_may_land :
    ∃ s s' e, run (step queryable) (.init 0 none)
      [.process 1, .beforeSend 1, .send 1, .sendReturns 1 .maybeReached, .sent 1,
        .advance 660000000000, .process 2, .query 2 .notFound, .queried 2, .beforeSend 2, .send 2,
        .crash 2, .advance 120000000000, .process 3, .process 3, .query 3 .notFound, .queried 3,
        .beforeSend 3] = some s ∧
      step queryable s (.send 3) = some s' ∧
      s.sends 1 = some e ∧ ¬ Settled queryable s.facts.expiresAt s.clock e := by
  refine ⟨_, _, _, rfl, rfl, rfl, ?_⟩
  rintro (hresult | htime | hexpired)
  · cases hresult
  · revert htime
    decide
  cases hexpired

/-- A request that timed out is sent again when it can no longer land. -/
theorem timed_out_is_sent_again :
    ∃ s s' e, run (step queryable) (.init 0 none)
      [.process 1, .beforeSend 1, .send 1, .sendReturns 1 .maybeReached, .sent 1,
        .advance 660000000000, .process 2, .query 2 .notFound, .queried 2, .beforeSend 2] = some s ∧
      step queryable s (.send 2) = some s' ∧ s.sends 0 = some e ∧ e.result = some .maybeReached ∧
      Settled queryable s.facts.expiresAt s.clock e := by
  refine ⟨?s, ?t, ?e, ?hrun, ?hstep, ?he, ?hresult, (calls_find_earlier_settled queryable rfl 0 none
    _ ?s ?hjob ?hmeets ?hrun).1 2 ?t ?hfenced ?hstep 0 ?e ?he⟩
  case hrun | hstep | he | hresult => rfl
  case hjob => simp [Action.ofJob]
  case hfenced =>
    rintro _ ⟨⟩
    rfl
  refine .cons (by rintro ⟨⟩) rfl (.cons (by rintro _ ⟨⟩; rfl) rfl (.cons ?_ rfl ?_))
  · rintro _ ⟨⟩
    rfl
  refine .cons trivial rfl (.cons (by rintro _ ⟨⟩; rfl) rfl (.cons trivial rfl ?_))
  refine .cons (by rintro ⟨⟩) rfl (.cons trivial rfl (.cons (by rintro _ ⟨⟩; rfl) rfl ?_))
  exact .cons (by rintro _ ⟨⟩; rfl) rfl trivial

end BeSdk.Extcmd

import BeSdk.Extcmd.Commands

/-!
# Final states

`Step` makes the final states absorbing for the facts it is given.  A worker gives it the row it
has in memory, while the command's row may have moved on: a takeover, a query by another worker, a
reconciliation.  Where a worker writes only while the row still is in the state it has in memory, a
command that has reached a final state keeps it (`final_states_stay`); otherwise the result of a
send that another worker has taken over replaces it.

What a worker has in memory while it sends or queries is never final itself (`Open`).
-/

namespace BeSdk.Extcmd

open Runs Tables Option

/-- A worker writes the command's row only in the state it has in memory. -/
def InStep (s : System) : Action → Prop
  | .beforeSend w | .noEvidence w | .sent w | .queried w =>
    ∀ r, (s.workers w).memory = some r → s.facts.state = r.facts.state
  | _ => True

def Open (s : System) : Prop :=
  ∀ w r, (s.workers w).memory = some r → r.facts.state.terminal = false

variable {s : System}

theorem Open.goTo (h : Open s) (w : Nat) {phase : Phase}
    (hphase : ∀ r, phase.memory = some r → r.facts.state.terminal = false) :
    Open (s.goTo w phase) := by
  intro w' r hr
  rcases update_cases s.workers w phase w' with ⟨-, hself⟩ | ⟨-, hother⟩
  · exact hphase r (hself ▸ hr)
  exact h w' r (hother ▸ hr)

theorem Open.claimed (h : Open s) (w : Nat) (r : Row) : Open (s.claimed w r) := by
  refine Open.goTo h w ?_
  rintro _ ⟨⟩
  rfl

variable {cfg : Config}

theorem Open.finalityPassed (h : Open s) (w : Nat)
    (hstate : s.facts.state = .accepted) : Open (s.finalityPassed cfg w) := by
  unfold System.finalityPassed
  dsimp only
  split
  · refine h.goTo w ?_
    rintro _ ⟨⟩
    simp [System.load, hstate, State.terminal]
  exact h

theorem Open.process (h : Open s) (w : Nat) : Open (s.process cfg w) := by
  have hclaim : Open (if cfg.queryOnly then s.set s.facts.state (s.clock + backoffStart)
      else if (Step s.facts .claim cfg.caps s.clock).1 = .unknown then s.set .unknown s.clock
      else s.claimed w s.load) := by
    split
    · exact h
    split
    · exact h
    exact h.claimed w s.load
  cases hstate : s.facts.state with
  | prepared | retryWait => simpa only [System.process, hstate] using hclaim
  | sending =>
    simp only [System.process, hstate]
    exact h
  | unknown =>
    simp only [System.process, hstate]
    refine h.goTo w ?_
    rintro _ ⟨⟩
    simp [System.load, hstate, State.terminal]
  | accepted =>
    simp only [System.process, hstate]
    split
    · split
      · exact h
      exact h.finalityPassed w hstate
    exact h.finalityPassed w hstate
  | _ => simpa only [System.process, hstate] using h

theorem Open.beforeSend (h : Open s) {w : Nat} {r : Row}
    (hphase : s.workers w = .beforeSend r) : Open (s.beforeSend cfg w r) := by
  have hopen : r.facts.state.terminal = false := h w r (hphase ▸ rfl)
  unfold System.beforeSend
  split
  · exact Open.goTo h w (by rintro _ ⟨⟩)
  split
  · refine Open.goTo h w fun r' hr' => ?_
    split at hr'
    · cases hr'
      exact hopen
    · cases hr'
      exact hopen
  exact h.goTo w (by rintro _ ⟨⟩)

theorem Open.queried (h : Open s) (w : Nat) (r : Row)
    (answer : Answer) : Open (s.queried cfg w r answer) := by
  unfold System.queried
  dsimp only
  generalize (if (Step r.facts answer.event cfg.caps s.clock).1 = .sending ∧ cfg.queryOnly then
    State.unknown else (Step r.facts answer.event cfg.caps s.clock).1) = next
  split
  · split
    · exact Open.claimed h w _
    exact Open.goTo h w (by rintro _ ⟨⟩)
  exact h.goTo w (by rintro _ ⟨⟩)

theorem reconciled_workers (cfg : Config) (s : System) (external : Option External) (t : Int)
    (failedAt : Option Int) : (s.reconciled cfg external t failedAt).workers = s.workers := by
  unfold System.reconciled
  split
  · rfl
  split
  · rfl
  dsimp only
  split <;> rfl

/-- **Memory.** No step gives a worker a final command to send or to query. -/
theorem step_open {s' : System} {a : Action} (h : Open s)
    (hstep : step cfg s a = some s') : Open s' := by
  cases a with simp only [step] at hstep
  | advance d | reconcileRead p =>
    cases hstep
    exact h
  | process w =>
    obtain ⟨-, ⟨⟩⟩ := ite_none_right_eq_some.1 hstep
    exact h.process w
  | beforeSend w =>
    split at hstep <;> cases hstep
    rename_i r hphase
    exact h.beforeSend hphase
  | issue w written =>
    split at hstep <;> cases hstep
    rename_i r n hphase
    have hopen : r.facts.state.terminal = false := h w r (hphase ▸ rfl)
    refine h.goTo w fun r' hr' => ?_
    split at hr'
    · cases hr'
      exact hopen
    · cases hr'
      exact hopen
  | noEvidence w | sent w =>
    split at hstep <;> cases hstep
    exact Open.goTo h w (by rintro _ ⟨⟩)
  | send w | sendReturns w result | query w answer =>
    split at hstep <;> cases hstep
    rename_i hphase
    refine Open.goTo h w ?_
    rintro _ ⟨⟩
    exact h w _ (congrArg Phase.memory hphase)
  | queried w =>
    split at hstep <;> cases hstep
    exact h.queried w _ _
  | crash w =>
    cases hstep
    exact h.goTo w (by rintro _ ⟨⟩)
  | register result =>
    obtain ⟨-, ⟨⟩⟩ := ite_none_right_eq_some.1 hstep
    exact h
  | reconcile p external t failedAt =>
    obtain ⟨-, ⟨⟩⟩ := ite_none_right_eq_some.1 hstep
    split
    · exact h
    intro w r hr
    dsimp only at hr
    rw [reconciled_workers] at hr
    exact h w r hr

/-- **A step in a final state.** The job and a reconciliation read the row they write, a person
registers manual commands only, and a worker that comes back would have to have it in memory. -/
theorem step_keeps_final {s' : System} {a : Action} (hopen : Open s)
    (hin : InStep s a) (hstep : step cfg s a = some s') (hfinal : s.facts.state.terminal = true) :
    s'.facts.state = s.facts.state := by
  -- a worker in a phase with a row in memory is not in step with a final command
  have hstale : ∀ w r, (s.workers w).memory = some r → s.facts.state ≠ r.facts.state := by
    intro w r hr hsame
    rw [hsame, hopen w r hr] at hfinal
    cases hfinal
  cases a with
  | process w =>
    obtain ⟨-, ⟨⟩⟩ := ite_none_right_eq_some.1 hstep
    cases hstate : s.facts.state with
    | succeeded | failed | rejected => simp only [System.process, hstate]
    | _ =>
      rw [hstate] at hfinal
      cases hfinal
  | beforeSend w | noEvidence w | sent w | queried w =>
    simp only [step] at hstep
    split at hstep
    next hphase =>
      have hmemory := congrArg Phase.memory hphase
      exact absurd (hin _ hmemory) (hstale w _ hmemory)
    cases hstep
  | register result =>
    simp only [step, ite_none_right_eq_some, Option.some.injEq] at hstep
    obtain ⟨⟨hmanual, -⟩, -⟩ := hstep
    rw [hmanual] at hfinal
    cases hfinal
  | reconcile p external t failedAt =>
    obtain ⟨-, ⟨⟩⟩ := ite_none_right_eq_some.1 hstep
    rw [if_pos hfinal]
  | issue w written | send w | sendReturns w result | query w answer =>
    simp only [step] at hstep
    split at hstep <;> cases hstep
    rfl
  | _ =>
    cases hstep
    rfl

theorem open_init (clock : Int) (expiresAt : Option Int) : Open (.init clock expiresAt) := by
  intro w r hr
  cases hr

/-- **Final states stay.** In every run in which a worker writes the command's row only in the state
it has in memory, a command that is succeeded, failed or rejected stays so. -/
theorem final_states_stay (cfg : Config) (clock : Int) (expiresAt : Option Int)
    (acts later : List Action) (s s' : System)
    (hmeets : Meets (step cfg) InStep (.init clock expiresAt) (acts ++ later))
    (hrun : run (step cfg) (.init clock expiresAt) acts = some s)
    (hlater : run (step cfg) s later = some s') (hfinal : s.facts.state.terminal = true) :
    s'.facts.state = s.facts.state := by
  have hopen : Open s := run_invariant_of_step (fun _ _ _ => step_open)
    (open_init clock expiresAt) hrun
  -- the invariant of the later part: the workers' memory, and the state that was reached
  have hkept : Open s' ∧ s'.facts.state = s.facts.state := by
    refine run_invariant (P := fun t => Open t ∧ t.facts.state = s.facts.state) ?_ ⟨hopen, rfl⟩
      (hmeets.of_append.2 s hrun) hlater
    rintro t a t' ⟨ht, hsame⟩ hin hstep
    refine ⟨step_open ht hstep, ?_⟩
    rw [step_keeps_final ht hin hstep (hsame ▸ hfinal), hsame]
  exact hkept.2

/-- The first worker's request is on its way for longer than its lease; the second one takes the
command over, queries it and writes that it succeeded; then the first one's read times out. -/
theorem succeeded_becomes_unknown :
    ∃ s s', run (step queryable) (.init 0 none)
      [.process 1, .beforeSend 1, .send 1, .advance 120000000000, .process 2, .process 2,
        .query 2 (.found .succeeded), .queried 2] = some s ∧
      run (step queryable) s [.sendReturns 1 .maybeReached, .sent 1] = some s' ∧
      s.facts.state = .succeeded ∧ s'.facts.state = .unknown :=
  ⟨_, _, rfl, rfl, rfl, rfl⟩

/-- One worker sends the command and records that it succeeded; a later run of the job takes it up
and leaves it. -/
theorem sent_once_stays_succeeded :
    ∃ s s', run (step queryable) (.init 0 none)
      [.process 1, .beforeSend 1, .send 1, .sendReturns 1 .succeeded, .sent 1] = some s ∧
      run (step queryable) s [.advance 3600000000000, .process 2] = some s' ∧
      s.facts.state = .succeeded ∧ s'.facts.state = s.facts.state := by
  refine ⟨?s, ?t, ?hrun, ?hlater, ?hstate,
    final_states_stay queryable 0 none _ _ ?s ?t ?hmeets ?hrun ?hlater ?hfinal⟩
  case hrun | hlater | hstate | hfinal => rfl
  refine .cons trivial rfl (.cons ?_ rfl ?_)
  · rintro _ ⟨⟩
    rfl
  iterate 2 refine .cons trivial rfl ?_
  refine .cons ?_ rfl (.cons trivial rfl (.cons trivial rfl trivial))
  rintro _ ⟨⟩
  rfl

end BeSdk.Extcmd

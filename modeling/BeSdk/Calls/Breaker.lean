import BeSdk.Library.Runs
import BeSdk.Library.Tables

/-!
# The circuit breaker

`calls/breaker.go`: one breaker under calls that start and end in any order.  A permit has no
period, so a result that arrives while the breaker is closed goes into the window, also when its
call was admitted before the breaker last opened.

The calls in flight, the outcomes of the trials and the results of the calls admitted since the
breaker last became closed are kept beside the breaker, to say what it should do.
-/

namespace BeSdk.Calls

open Runs Function Tables List Option

inductive BreakerState
  | closed
  | opened
  | halfOpen
deriving DecidableEq, Repr

inductive Outcome
  | success
  | failure
  | ignored
deriving DecidableEq, Repr

def breakerWindow : Nat := 20

/-- In nanoseconds. -/
def breakerOpenFirst : Int := 5000000000

def breakerOpenMax : Int := 30000000000

def breakerTrialsToClose : Nat := 3

structure Breaker where
  state : BreakerState := .closed
  window : List Bool := []
  openedAt : Int := 0
  openFor : Int := breakerOpenFirst
  trial : Nat := 0
  trialOK : Nat := 0
  next : Nat := 0

/-- The last results, no more than the window has. -/
def latest (results : List Bool) : List Bool := results.drop (results.length - breakerWindow)

/-- The latest twenty exist, and more than half of them failed. -/
def tripped (results : List Bool) : Bool :=
  (latest results).length = breakerWindow ∧ (latest results).count true * 2 > breakerWindow

namespace Breaker

/-- `Start`, with the permit of an admitted call. -/
def start (b : Breaker) (now : Int) : Breaker × Option Nat :=
  let b := { b with next := b.next + 1 }
  if b.state = .opened ∧ now - b.openedAt < b.openFor then (b, none)
  else
    let b :=
      if b.state = .opened then { b with state := .halfOpen, trial := 0, trialOK := 0 } else b
    if b.state = .halfOpen then
      if b.trial ≠ 0 then (b, none) else ({ b with trial := b.next }, some b.next)
    else (b, some b.next)

/-- `End`. -/
def finish (b : Breaker) (p : Nat) (now : Int) (outcome : Outcome) : Breaker :=
  match b.state with
  | .halfOpen =>
    if b.trial ≠ p then b
    else
      match outcome with
      | .failure =>
        { b with
          trial := 0, state := .opened, openedAt := now, trialOK := 0
          openFor := min (2 * b.openFor) breakerOpenMax }
      | .success =>
        if b.trialOK + 1 ≥ breakerTrialsToClose then
          { b with
            trial := 0, trialOK := b.trialOK + 1, state := .closed, window := []
            openFor := breakerOpenFirst }
        else { b with trial := 0, trialOK := b.trialOK + 1 }
      | .ignored => { b with trial := 0 }
  | .closed =>
    if outcome = .ignored then b
    else
      let results := b.window ++ [decide (outcome = .failure)]
      if tripped results then { b with state := .opened, openedAt := now, window := [] }
      else { b with window := latest results }
  | .opened => b

end Breaker

/-- An admitted call: how often the breaker had closed, and whether it was half open. -/
structure Admitted where
  closings : Nat
  trial : Bool

structure System where
  b : Breaker := {}
  clock : Int
  closings : Nat := 0
  inFlight : Nat → Option Admitted := fun _ => none
  -- since the breaker is half open
  trials : List Outcome := []
  -- of the calls admitted since the breaker last became closed
  own : List Bool := []

inductive Action
  | start (now : Int)
  | finish (p : Nat) (now : Int) (outcome : Outcome)

namespace System

variable (s : System)

def started (now : Int) : System :=
  let b := (s.b.start now).1
  { s with
    b := b
    clock := now
    trials := if s.b.state = .opened ∧ b.state = .halfOpen then [] else s.trials
    inFlight :=
      match (s.b.start now).2 with
      | some p => update s.inFlight p (some ⟨s.closings, b.state = .halfOpen⟩)
      | none => s.inFlight }

def finished (p : Nat) (now : Int) (outcome : Outcome) (adm : Admitted) : System :=
  let b := s.b.finish p now outcome
  let closes := s.b.state ≠ .closed ∧ b.state = .closed
  { b := b
    clock := now
    closings := if closes then s.closings + 1 else s.closings
    inFlight := update s.inFlight p none
    trials := if adm.trial then s.trials ++ [outcome] else s.trials
    own :=
      if closes then []
      else if s.b.state = .closed ∧ outcome ≠ .ignored ∧ adm.closings = s.closings then
        s.own ++ [decide (outcome = .failure)]
      else s.own }

end System

/-- A call starts or ends, the clock not going back and each call ending once. -/
def step (s : System) : Action → Option System
  | .start now => if now < s.clock then none else some (s.started now)
  | .finish p now outcome =>
    if now < s.clock then none else (s.inFlight p).map (s.finished p now outcome)

/-- A result that counts is of a call admitted since the breaker last became closed. -/
def System.timely (s : System) : Action → Bool
  | .start _ => true
  | .finish p _ outcome => s.b.state ≠ .closed ∨ outcome = .ignored ∨
      (s.inFlight p).map (·.closings) = some s.closings

variable {s t : System} {a : Action}

theorem step_cases (hstep : step s a = some t) :
    (∃ now, a = .start now ∧ s.clock ≤ now ∧ t = s.started now) ∨
    ∃ p now outcome adm, a = .finish p now outcome ∧ s.clock ≤ now ∧ s.inFlight p = some adm ∧
      t = s.finished p now outcome adm := by
  cases a with simp only [step, ite_none_left_eq_some, Int.not_lt] at hstep
  | start now =>
    obtain ⟨hnow, heq⟩ := hstep
    exact .inl ⟨now, rfl, hnow, (some.inj heq).symm⟩
  | finish p now outcome =>
    obtain ⟨hnow, heq⟩ := hstep
    obtain ⟨adm, hadm, rfl⟩ := map_eq_some_iff.1 heq
    exact .inr ⟨p, now, outcome, adm, rfl, hnow, hadm, rfl⟩

theorem start_cases (b : Breaker) (now : Int) : b.state = .opened ∧ now < b.openedAt + b.openFor ∧
      b.start now = ({ b with next := b.next + 1 }, none) ∨
    b.state = .opened ∧ b.openedAt + b.openFor ≤ now ∧ b.start now =
      ({ b with next := b.next + 1, state := .halfOpen, trial := b.next + 1, trialOK := 0 },
        some (b.next + 1)) ∨
    b.state = .halfOpen ∧ b.trial ≠ 0 ∧ b.start now = ({ b with next := b.next + 1 }, none) ∨
    b.state = .halfOpen ∧ b.trial = 0 ∧
      b.start now = ({ b with next := b.next + 1, trial := b.next + 1 }, some (b.next + 1)) ∨
    b.state = .closed ∧ b.start now = ({ b with next := b.next + 1 }, some (b.next + 1)) := by
  unfold Breaker.start
  cases hstate : b.state with
  | closed => simp
  | opened =>
    by_cases hnow : now - b.openedAt < b.openFor
    · simp [hnow, show now < b.openedAt + b.openFor by omega]
    simp [hnow, show b.openedAt + b.openFor ≤ now by omega]
  | halfOpen => by_cases htrial : b.trial = 0 <;> simp [htrial]

/-- What holds of the trials, in every run. -/
structure Inv (s : System) : Prop where
  permits : ∀ p, s.inFlight p ≠ none → p ≠ 0
  trial : ∀ p a, s.inFlight p = some a → a.trial = true → s.b.state = .halfOpen ∧ s.b.trial = p
  slot : s.b.state = .halfOpen → ∀ a, s.inFlight s.b.trial = some a → a.trial = true
  counted : s.b.state = .halfOpen →
    .failure ∉ s.trials ∧ s.trials.count .success = s.b.trialOK ∧ s.b.trialOK < breakerTrialsToClose
  closed : s.closings ≠ 0 → s.b.state = .closed →
    .failure ∉ s.trials ∧ s.trials.count .success = breakerTrialsToClose

theorem permits_update {calls : Nat → Option Admitted} (h : ∀ q, calls q ≠ none → q ≠ 0) {p : Nat}
    (hp : p ≠ 0) (x : Option Admitted) (q : Nat) (hq : update calls p x q ≠ none) : q ≠ 0 := by
  rcases update_cases calls p x q with ⟨rfl, -⟩ | ⟨-, hcall⟩
  · exact hp
  exact h q (hcall ▸ hq)

theorem inv_started (h : Inv s) (now : Int) : Inv (s.started now) := by
  obtain ⟨hpermits, htrial, hslot, hcounted, hclosed⟩ := h
  have hadmitted := permits_update hpermits s.b.next.succ_ne_zero
  rcases start_cases s.b now with ⟨hstate, -, hstart⟩ | ⟨hstate, -, hstart⟩ |
    ⟨hstate, hfree, hstart⟩ | ⟨hstate, hfree, hstart⟩ | ⟨hstate, hstart⟩
  all_goals
    rw [hstate] at htrial hslot hcounted hclosed
    simp only [System.started, hstart, hstate, reduceCtorEq, and_false, false_and, and_self,
      if_true, if_false, decide_true, decide_false]
  · exact ⟨hpermits, htrial, hslot, hcounted, hclosed⟩
  · refine ⟨hadmitted _, fun q a ha htrue => ?_, fun _ a ha => ?_,
      fun _ => ⟨not_mem_nil, rfl, Nat.succ_pos 2⟩, nofun⟩
    · rcases update_eq_some ha with ⟨rfl, -⟩ | ⟨-, hcall⟩
      · exact ⟨rfl, rfl⟩
      exact nomatch (htrial q a hcall htrue).1
    · rcases update_eq_some ha with ⟨-, rfl⟩ | ⟨hne, -⟩
      · rfl
      exact absurd rfl hne
  · exact ⟨hpermits, htrial, hslot, hcounted, hclosed⟩
  · refine ⟨hadmitted _, fun q a ha htrue => ?_, fun _ a ha => ?_, hcounted, nofun⟩
    · rcases update_eq_some ha with ⟨rfl, -⟩ | ⟨-, hcall⟩
      · exact ⟨rfl, rfl⟩
      -- the slot is free, and 0 is no permit
      exact absurd ((htrial q a hcall htrue).2.symm.trans hfree)
        (hpermits q (hcall ▸ some_ne_none a))
    · rcases update_eq_some ha with ⟨-, rfl⟩ | ⟨hne, -⟩
      · rfl
      exact absurd rfl hne
  · refine ⟨hadmitted _, fun q a ha htrue => ?_, nofun, nofun, hclosed⟩
    rcases update_eq_some ha with ⟨-, rfl⟩ | ⟨-, hcall⟩
    · exact nomatch htrue
    exact htrial q a hcall htrue

theorem inv_finished (h : Inv s) {p : Nat} (now : Int) (outcome : Outcome) {adm : Admitted}
    (hadm : s.inFlight p = some adm) : Inv (s.finished p now outcome adm) := by
  obtain ⟨hpermits, htrial, hslot, hcounted, hclosed⟩ := h
  have hleft := permits_update hpermits (hpermits p (hadm ▸ some_ne_none adm)) none
  have hother {q : Nat} {a : Admitted} (ha : update s.inFlight p none q = some a) :
      q ≠ p ∧ s.inFlight q = some a := by
    rcases update_cases s.inFlight p none q with ⟨-, hself⟩ | ⟨hne, hcall⟩
    · exact nomatch hself.symm.trans ha
    exact ⟨hne, hcall ▸ ha⟩
  have hcall (hne : ¬ (s.b.state = .halfOpen ∧ s.b.trial = p)) : adm.trial = false :=
    eq_false_of_ne_true fun htrue => hne (htrial p adm hadm htrue)
  -- no trial stays in flight when the breaker was closed, and none when its trial ends
  have hnone (hlast : s.b.state = .halfOpen → s.b.trial = p) (b : Breaker) (q : Nat) (a : Admitted)
      (ha : update s.inFlight p none q = some a) (htrue : a.trial = true) :
      b.state = .halfOpen ∧ b.trial = q := by
    obtain ⟨hstate, rfl⟩ := htrial q a (hother ha).2 htrue
    exact absurd (hlast hstate) (hother ha).1
  unfold System.finished Breaker.finish
  cases hstate : s.b.state with
  | opened =>
    have hhalf : s.b.state ≠ .halfOpen := hstate ▸ nofun
    exact ⟨hleft, fun q a ha => htrial q a (hother ha).2, fun hs => absurd hs hhalf,
      fun hs => absurd hs hhalf, fun _ hs => nomatch hstate.symm.trans hs⟩
  | closed =>
    have hhalf : s.b.state ≠ .halfOpen := hstate ▸ nofun
    replace hnone := hnone fun hs => absurd hs hhalf
    simp only [hcall fun hs => hhalf hs.1, ne_eq, not_true_eq_false, false_and, if_false,
      Bool.false_eq_true]
    by_cases hignored : outcome = .ignored
    · simp only [hignored, if_true]
      exact ⟨hleft, hnone _, fun hs => absurd hs hhalf, fun hs => absurd hs hhalf, hclosed⟩
    cases tripped (s.b.window ++ [decide (outcome = .failure)]) <;> simp only [hignored, if_false]
    · exact ⟨hleft, hnone _, nofun, nofun, fun hne _ => hclosed hne hstate⟩
    · exact ⟨hleft, hnone _, nofun, nofun, fun _ => nofun⟩
  | halfOpen =>
    by_cases hp : s.b.trial = p
    · replace hnone := hnone fun _ => hp
      have hzero (a : Admitted) (ha : update s.inFlight p none 0 = some a) : a.trial = true :=
        absurd rfl (hpermits 0 ((hother ha).2 ▸ some_ne_none a))
      obtain ⟨hfailed, hcount, hlt⟩ := hcounted hstate
      simp only [hslot hstate adm (hp ▸ hadm), hp, ne_eq, not_true_eq_false, if_false, if_true]
      cases outcome with
      | failure => exact ⟨hleft, hnone _, nofun, nofun, fun _ => nofun⟩
      | ignored =>
        exact ⟨hleft, hnone _, fun _ => hzero,
          fun _ => ⟨by simpa using hfailed, by simpa using hcount, hlt⟩, fun _ => nofun⟩
      | success =>
        by_cases hlast : s.b.trialOK + 1 ≥ breakerTrialsToClose
        all_goals simp only [hlast, if_true, if_false]
        · refine ⟨hleft, hnone _, nofun, nofun, fun _ _ => ⟨by simpa using hfailed, ?_⟩⟩
          simp only [count_append, hcount, count_singleton_self]
          omega
        · exact ⟨hleft, hnone _, fun _ => hzero,
            fun _ => ⟨by simpa using hfailed, by simpa using hcount, Nat.lt_of_not_ge hlast⟩,
            fun _ => nofun⟩
    · simp only [hcall fun hs => hp hs.2, ne_eq, hp, not_false_eq_true, if_true, hstate,
        reduceCtorEq, and_false, if_false, Bool.false_eq_true]
      exact ⟨hleft, fun q a ha => htrial q a (hother ha).2, fun hs a ha => hslot hs a (hother ha).2,
        hcounted, hclosed⟩

theorem inv_step (h : Inv s) (hstep : step s a = some t) : Inv t := by
  rcases step_cases hstep with ⟨now, rfl, -, rfl⟩ | ⟨p, now, outcome, adm, rfl, -, hadm, rfl⟩
  · exact inv_started h now
  exact inv_finished h now outcome hadm

/-- While an open period lasts the breaker is open with it. -/
theorem step_waits {openedAt openFor : Int}
    (h : s.b.state = .opened ∧ s.b.openedAt = openedAt ∧ s.b.openFor = openFor ∨
      openedAt + openFor ≤ s.clock) (hstep : step s a = some t) :
    t.b.state = .opened ∧ t.b.openedAt = openedAt ∧ t.b.openFor = openFor ∨
      openedAt + openFor ≤ t.clock := by
  rcases step_cases hstep with ⟨now, rfl, hnow, rfl⟩ | ⟨p, now, outcome, adm, rfl, hnow, -, rfl⟩
  · rcases h with ⟨hopened, rfl, rfl⟩ | hpast
    · rcases start_cases s.b now with ⟨-, -, hstart⟩ | ⟨-, hended, -⟩ | ⟨hstate, -⟩ | ⟨hstate, -⟩ |
        ⟨hstate, -⟩
      · exact .inl (by simp [System.started, hstart, hopened])
      · exact .inr hended
      all_goals exact nomatch hopened.symm.trans hstate
    exact .inr (Int.le_trans hpast hnow)
  rcases h with ⟨hopened, rfl, rfl⟩ | hpast
  · -- an open breaker leaves results out
    exact .inl (by simp [System.finished, Breaker.finish, hopened])
  exact .inr (Int.le_trans hpast hnow)

/-! ## The window -/

theorem latest_append (results : List Bool) (failed : Bool) :
    latest (latest results ++ [failed]) = latest (results ++ [failed]) := by
  simp only [latest, breakerWindow, length_append, length_drop, length_singleton,
    drop_append, drop_drop]
  congr 2 <;> omega

/-- While closed the window has the latest results, and they have not opened the breaker. -/
def Windowed (s : System) : Prop :=
  s.b.state = .closed → s.b.window = latest s.own ∧ tripped s.own = false

/-- A timely result opens a closed breaker, or is in its window. -/
theorem step_window (h : Windowed s) (htimely : s.timely a = true) (hstep : step s a = some t) :
    Windowed t ∧ (s.b.state = .closed → (t.b.state = .opened ↔ tripped t.own = true)) := by
  rcases step_cases hstep with ⟨now, rfl, -, rfl⟩ | ⟨p, now, outcome, adm, rfl, -, hadm, rfl⟩
  · unfold Windowed at h ⊢
    rcases start_cases s.b now with ⟨hstate, -, hstart⟩ | ⟨hstate, -, hstart⟩ |
      ⟨hstate, -, hstart⟩ | ⟨hstate, -, hstart⟩ | ⟨hstate, hstart⟩
    all_goals simp only [System.started, hstart, hstate, reduceCtorEq, false_implies, and_self]
    obtain ⟨hwindow, htripped⟩ := h hstate
    exact ⟨fun _ => ⟨hwindow, htripped⟩, fun _ => by simp [htripped]⟩
  unfold Windowed System.finished Breaker.finish at *
  cases hstate : s.b.state with
  | opened => simp [hstate]
  | halfOpen =>
    by_cases hp : s.b.trial = p
    · cases outcome with
      | success =>
        by_cases hlast : breakerTrialsToClose ≤ s.b.trialOK + 1
        · simp [hp, hlast, latest, tripped, breakerWindow]
        simp [hp, hlast]
      | _ => simp [hp]
    simp [hp, hstate]
  | closed =>
    obtain ⟨hwindow, htripped⟩ := h hstate
    by_cases hignored : outcome = .ignored
    · simp [hignored, hstate, hwindow, htripped]
    have hcounted : adm.closings = s.closings := by
      simpa [System.timely, hstate, hignored, hadm] using htimely
    -- the window's latest results and the new one trip the breaker as all of them do
    have hlatest := latest_append s.own (decide (outcome = .failure))
    have hsame : tripped (latest s.own ++ [decide (outcome = .failure)])
        = tripped (s.own ++ [decide (outcome = .failure)]) := by
      rw [tripped, hlatest, tripped]
    cases htrips : tripped (s.own ++ [decide (outcome = .failure)]) with
    | true => simp [hignored, hcounted, hwindow, hsame, htrips]
    | false => simp [hignored, hcounted, hwindow, hsame, htrips, hlatest]

/-- **Every interleaving.**  Half open, at most one trial is in flight; once open, no call is
admitted before the period ends; the breaker closes after three successful trials and no failed one.
In a run in which no result counts of a call admitted before the breaker last became closed, it
opens from closed when of the results since then the latest twenty exist and most failed, and only
then. -/
theorem breaker_of_timely_results (clock : Int) (acts : List Action) (s : System)
    (hrun : run step { clock := clock } acts = some s) :
    (∀ p q a a', s.inFlight p = some a → s.inFlight q = some a' → a.trial = true →
      a'.trial = true → p = q) ∧
    (s.b.state = .opened → ∀ later t, run step s later = some t → ∀ now, t.clock ≤ now →
      (t.b.start now).2.isSome = true → s.b.openedAt + s.b.openFor ≤ now) ∧
    (s.closings ≠ 0 → s.b.state = .closed →
      .failure ∉ s.trials ∧ s.trials.count .success = breakerTrialsToClose) ∧
    (Meets step (fun s a => s.timely a = true) { clock := clock } acts → s.b.state = .closed →
      ∀ a t, s.timely a = true → step s a = some t →
        (t.b.state = .opened ↔ tripped t.own = true)) := by
  have hinv : Inv s := by
    refine run_invariant_of_step (fun _ _ _ => inv_step) ?_ hrun
    constructor <;> simp
  refine ⟨fun p q a a' ha ha' htrial htrial' => ?_, fun hstate later t hlater now hnow hsome => ?_,
    hinv.closed, fun hmeets hstate a t htimely hstep => ?_⟩
  · rw [← (hinv.trial p a ha htrial).2, (hinv.trial q a' ha' htrial').2]
  · have hwaits := run_invariant_of_step (fun _ _ _ => step_waits)
      (.inl ⟨hstate, rfl, rfl⟩ : _ ∨ s.b.openedAt + s.b.openFor ≤ s.clock) hlater
    rcases hwaits with ⟨hopened, hat, hfor⟩ | hpast
    · have hcases := start_cases t.b now
      grind
    omega
  have hwindowed : Windowed s := by
    refine run_invariant (fun _ _ _ h htimely hstep => (step_window h htimely hstep).1) ?_ hmeets
      hrun
    exact fun _ => ⟨rfl, rfl⟩
  exact (step_window hwindowed htimely hstep).2 hstate

/-- Twenty calls fail and the breaker opens; five seconds later it closes after three trials, and
nineteen calls fail. -/
def opensAgain : List Action :=
  ((List.range 20).flatMap fun i => [.start 0, .finish (i + 1) 0 .failure]) ++
    ((List.range 3).flatMap fun i =>
      [.start 5000000000, .finish (i + 21) 5000000000 .success]) ++
    (List.range 19).flatMap fun i => [.start 5000000000, .finish (i + 24) 5000000000 .failure]

/-- While it is open no call is admitted for five seconds; three trials have closed it; and the
twentieth failure of a call admitted since then opens it. -/
theorem breaker_opens_again :
    ∃ s₀ s t, run step { clock := 0 } (opensAgain.take 40) = some s₀ ∧ s₀.b.state = .opened ∧
      (∀ now, s₀.clock ≤ now → (s₀.b.start now).2.isSome = true → 5000000000 ≤ now) ∧
      run step { clock := 0 } (opensAgain ++ [.start 5000000000]) = some s ∧
      s.b.state = .closed ∧ s.trials.count .success = breakerTrialsToClose ∧
      step s (.finish 43 5000000000 .failure) = some t ∧ t.own.length = 20 ∧
      t.b.state = .opened := by
  have hopen : (run step { clock := 0 } (opensAgain.take 40)).map
      (fun s => (s.b.state, s.b.openedAt + s.b.openFor)) = some (.opened, 5000000000) := by
    decide +kernel
  obtain ⟨s₀, hrun₀, hs₀⟩ := map_eq_some_iff.1 hopen
  obtain ⟨hopened, hends⟩ := Prod.mk.injEq .. ▸ hs₀
  have hlast : (run step { clock := 0 } (opensAgain ++ [.start 5000000000])).map
      (fun s => (s.b.state, s.closings, s.timely (.finish 43 5000000000 .failure),
        (step s (.finish 43 5000000000 .failure)).map fun t => (t.own.length, tripped t.own))) =
      some (.closed, 1, true, some (20, true)) := by decide +kernel
  obtain ⟨s, hrun, hs⟩ := map_eq_some_iff.1 hlast
  simp only [Prod.mk.injEq] at hs
  obtain ⟨hclosed, hclosings, htimely, hs⟩ := hs
  obtain ⟨t, hstep, ht⟩ := map_eq_some_iff.1 hs
  obtain ⟨hlength, htripped⟩ := Prod.mk.injEq .. ▸ ht
  obtain ⟨-, -, htrials, hopens⟩ := breaker_of_timely_results 0 _ s hrun
  refine ⟨s₀, s, t, hrun₀, hopened, fun now hnow hsome => ?_, hrun, hclosed, ?_, hstep, hlength, ?_⟩
  · have hwaits := (breaker_of_timely_results 0 _ s₀ hrun₀).2.1 hopened [] s₀ rfl now hnow hsome
    exact hends ▸ hwaits
  · exact (htrials (by rw [hclosings]; decide) hclosed).2
  exact (hopens (by decide +kernel) hclosed _ t htimely hstep).2 htripped

/-- Forty calls are admitted and twenty fail; after three trials the breaker is closed, and the
other twenty fail: it opens, and no call was admitted since it became closed. -/
theorem late_results_open :
    let acts : List Action :=
      (List.range 40).map (fun _ => .start 0) ++
        (List.range 20).map (fun i => .finish (i + 1) 0 .failure) ++
        [.start 5000000000, .finish 41 5000000000 .success, .start 5000000000,
          .finish 42 5000000000 .success, .start 5000000000, .finish 43 5000000000 .success] ++
        (List.range 19).map (fun i => .finish (i + 21) 5000000000 .failure)
    (run step { clock := 0 } acts).map (·.b.state) = some .closed ∧
      (run step { clock := 0 } (acts ++ [.finish 40 5000000000 .failure])).map
        (fun s => (s.b.state, s.own)) = some (.opened, []) := by
  decide +kernel

end BeSdk.Calls

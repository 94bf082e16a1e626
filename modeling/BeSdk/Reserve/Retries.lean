import BeSdk.Reserve.Participant

/-!
# Retries of a consumption

A consumption ID that took effect should answer every later attempt with the same content as a
repeat.  `Consume` looks the ID up before it locks the branch, so an attempt can find the ID
unused, wait for the branch behind another attempt with the same ID, and go on from a branch that
has changed under it: it is refused on a branch that is consumed now, or uses the resource once
more and fails on the duplicate ID.

Where no attempt commits a consumption while another one with its ID is past the lookup
(`OneByOne`), that does not happen.  `PlaceOk` says why: while an ID is recorded, every transaction
with that ID is before its lookup or has found it there.  IDs are compared with the text the
database gives back, so they have to be written that way.
-/

namespace BeSdk.Reserve

open Runs List Function

variable {A : Type*} [AddCommGroup A]

namespace Participant

variable {cfg : Config} {s s' : Participant A}

/-- A consumption commits only when no other transaction with its ID is past the lookup of the ID;
branch IDs are in the database's own form. -/
def OneByOne (cfg : Config) (s : Participant A) : Action A → Prop
  | .begin _ call _ => cfg.canon call.id = call.id
  | .commit f => ∀ tx write answer, s.txs f = some tx → tx.at_ = .ready write true answer →
      ∀ g tx', g ≠ f → s.txs g = some tx' → tx'.call.consumption = tx.call.consumption →
        tx'.at_ = .start
  | _ => True

/-- The attempt took effect: it answered, and neither repeated nor refused nor in conflict. -/
def TookEffect (e : Ended A) : Prop :=
  ∃ answer, e.outcome = .answered answer ∧ answer.repeated = false ∧ answer.refused = none ∧
    answer.conflict = false

/-- Two attempts with one consumption ID, branch and content. -/
def SameConsumption (cfg : Config) (e e' : Ended A) : Prop :=
  ∃ kind kind' id id' consumption digest amount amount',
    e.call = .consume kind id consumption digest amount ∧
    e'.call = .consume kind' id' consumption digest amount' ∧ cfg.canon id = cfg.canon id'

def Repeats (e : Ended A) : Prop :=
  ∃ answer, e.outcome = .answered answer ∧ answer.repeated = true ∧ answer.refused = none ∧
    answer.conflict = false

/-! ## Where transactions are -/

/-- Where a transaction with a consumption's ID can be, by what is recorded under the ID. -/
def PlaceOk (recorded : Option Consumption) (mine : Consumption) : Place A → Prop
  | .start => True
  | .used by_ => recorded = some by_
  | .ready _ records answer =>
    (records = false → answer.repeated = true ∨ answer.refused ≠ none ∨ answer.conflict = true) ∧
      ∀ by_, recorded = some by_ → records = false ∧ answer.refused = none ∧
        (by_ = mine → answer.conflict = false ∧ answer.repeated = true)
  | .failed duplicate => duplicate = false
  | _ => recorded = none

def RetryOk (cfg : Config) (s : Participant A) (tx : Tx A) : Prop :=
  match tx.call with
  | .consume _ id consumption digest _ =>
    cfg.canon id = id ∧ PlaceOk (s.consumptions consumption) ⟨id, digest⟩ tx.at_
  | _ => tx.at_ ≠ .failed true

structure Orderly (cfg : Config) (s : Participant A) : Prop where
  txs : ∀ f tx, s.txs f = some tx → RetryOk cfg s tx
  recorded : ∀ e ∈ s.log, TookEffect e → ∀ kind id consumption digest amount,
    e.call = .consume kind id consumption digest amount →
    s.consumptions consumption = some ⟨cfg.canon id, digest⟩
  repeats : s.log.Pairwise fun e e' => TookEffect e → SameConsumption cfg e e' → Repeats e'
  unique : ∀ e ∈ s.log, e.outcome ≠ .duplicate

variable {f : Nat} {tx : Tx A} {at_ : Place A}

section
variable (h : Orderly cfg s)
include h

theorem Orderly.goTo (hok : RetryOk cfg s { tx with at_ := at_ }) : Orderly cfg (s.goTo f tx at_) :=
  { h with
    txs := fun g tx' htx' => by
      by_cases heq : g = f
      · subst heq
        obtain rfl := by simpa [Participant.goTo] using htx'
        exact hok
      exact h.txs g tx' (by simpa [Participant.goTo, update_of_ne heq] using htx') }

theorem Orderly.release (f : Nat) : Orderly cfg (s.release f) :=
  { h with
    txs := fun g tx htx => by
      by_cases heq : g = f
      · simp [Participant.release, heq] at htx
      exact h.txs g tx (by simpa [Participant.release, update_of_ne heq] using htx) }

/-- Branches, accounts and locks do not matter. -/
theorem Orderly.congr (htxs : s'.txs = s.txs) (hlog : s'.log = s.log)
    (hconsumptions : s'.consumptions = s.consumptions) : Orderly cfg s' := by
  refine ⟨fun f tx htx => ?_, ?_, hlog ▸ h.repeats, hlog ▸ h.unique⟩
  · rw [htxs] at htx
    have hold := h.txs f tx htx
    unfold RetryOk at hold ⊢
    rw [hconsumptions]
    exact hold
  rw [hlog, hconsumptions]
  exact h.recorded

end

/-- A command that consumes nothing cannot fail on an ID. -/
theorem retryOk_of_not_failed (hcall : ∀ kind id consumption digest amount,
      tx.call ≠ .consume kind id consumption digest amount) (hat : tx.at_ ≠ .failed true) :
    RetryOk cfg s tx := by
  unfold RetryOk
  split
  next hcons =>
    exact absurd hcons (hcall _ _ _ _ _)
  exact hat

/-! ## Steps of a consumption -/

variable {id digest : String}

theorem placeOk_readUsed {by_ : Consumption} (b : Option Branch) :
    PlaceOk (some by_) ⟨id, digest⟩ (readUsed tx id digest by_ b) := by
  have hready : ∀ (st : BranchState) (past : Bool) (branch : Option Branch),
      PlaceOk (A := A) (some by_) ⟨id, digest⟩
        (let c : Command :=
          if by_.branch = id ∧ by_.digest = digest then .consumeUsedSame else .consumeUsedOther
        let d := st.decide past c
        .ready none false
          { branch := branch, conflict := d.conflict, repeated := !d.conflict }) := by
    intro st past branch
    by_cases hsame : by_.branch = id ∧ by_.digest = digest
    · simp [hsame, BranchState.decide, PlaceOk]
    rw [if_neg hsame]
    refine ⟨fun _ => .inr (.inr rfl), fun u hu => ⟨rfl, rfl, ?_⟩⟩
    rintro rfl
    obtain rfl := Option.some.inj hu
    exact absurd ⟨rfl, rfl⟩ hsame
  unfold readUsed
  split
  · split
    · rfl
    exact hready _ _ _
  exact hready _ _ _

variable {mine : Consumption} {write : Option (Branch × Account A)} {records : Bool}

/-- Anything but a duplicate is in order while nothing is recorded. -/
theorem placeOk_none {answer : Answer}
    (h : records = false →
      answer.repeated = true ∨ answer.refused ≠ none ∨ answer.conflict = true) :
    PlaceOk none mine (.ready write records answer) :=
  ⟨h, fun _ hu => absurd hu (by simp)⟩

variable {kind consumption : String} {amount : A}

theorem placeOk_look (hcall : tx.call = .consume kind id consumption digest amount)
    (b : Option Branch) : PlaceOk none mine (look tx b) := by
  unfold look
  split
  · split <;> rfl
  rw [hcall]
  exact placeOk_none fun _ => .inr (.inl (by simp [BranchState.decide]))

theorem placeOk_locked (hcall : tx.call = .consume kind id consumption digest amount) (b : Branch)
    (account : Account A) : PlaceOk none mine (locked tx b account) := by
  unfold locked
  rw [hcall]
  dsimp only
  split
  · exact placeOk_none fun _ => .inr (.inl (by simp))
  rfl

theorem placeOk_used [DecidableEq A] (amount : A) (b : Branch) (account : Account A)
    (beyond : Bool) : PlaceOk none mine (used tx amount b account beyond) := by
  unfold used
  dsimp only
  split
  · exact placeOk_none fun _ => .inr (.inl (by simp))
  rfl

theorem placeOk_apply (now : Int) (b : Branch) (account : Account A)
    (d : Decision) : PlaceOk none mine (apply now b account d true) := by
  unfold apply
  dsimp only
  split <;> exact placeOk_none fun h => by cases h

theorem locked_ne_failed (tx : Tx A) (b : Branch) (account : Account A) :
    locked tx b account ≠ .failed true := by
  have happly : ∀ d, apply tx.now b account d false ≠ .failed true := fun d => by
    unfold apply
    dsimp only
    split <;> simp
  unfold locked
  split
  · simp
  · exact happly _
  · exact happly _
  · exact happly _
  split <;> simp

/-- A transaction goes on while nothing is recorded under its ID. -/
theorem Orderly.goOn (h : Orderly cfg s) {now : Int} {at_' : Place A}
    (htx : s.txs f = some ⟨.consume kind id consumption digest amount, now, at_⟩)
    (hbefore : PlaceOk (s.consumptions consumption) ⟨id, digest⟩ at_ →
      PlaceOk (s.consumptions consumption) ⟨id, digest⟩ at_') :
    Orderly cfg (s.goTo f ⟨.consume kind id consumption digest amount, now, at_⟩ at_') := by
  obtain ⟨hcanon, hplace⟩ := h.txs f _ htx
  exact h.goTo ⟨hcanon, hbefore hplace⟩

/-! ## The commit -/

theorem written_consume {now : Int} (write : Option (Branch × Account A)) :
    (s.written cfg ⟨.consume kind id consumption digest amount, now, at_⟩ write true).consumptions =
      update s.consumptions consumption (some ⟨cfg.canon id, digest⟩) := by
  cases write <;> rfl

/-- The commits that write under no ID. -/
def RecordsNothing (call : Call A) (records : Bool) : Prop :=
  records = false ∨ call.consumption = none

theorem written_other (h : RecordsNothing tx.call records) (write : Option (Branch × Account A)) :
    (s.written cfg tx write records).consumptions = s.consumptions := by
  obtain ⟨call, now, at_⟩ := tx
  cases write <;> cases call <;> cases records <;> simp [RecordsNothing, Call.consumption] at h <;>
    rfl

/-- A commit that records nothing: what it answers is a repeat if its consumption took effect. -/
theorem Orderly.answer (h : Orderly cfg s) {answer : Answer} (htx : s.txs f = some tx)
    (hat : tx.at_ = .ready write records answer) (hnothing : RecordsNothing tx.call records) :
    Orderly cfg { s with log := s.log ++ [⟨tx.call, .answered answer⟩] } := by
  have hok := h.txs f tx htx
  refine ⟨h.txs, fun e he heffect kind id consumption digest amount hcall => ?_, ?_, ?_⟩
  · rcases mem_append.1 he with he | he
    · exact h.recorded e he heffect kind id consumption digest amount hcall
    -- what records nothing did not take effect
    obtain rfl := mem_singleton.1 he
    have hcall : tx.call = .consume kind id consumption digest amount := hcall
    rw [RetryOk, hcall, hat] at hok
    obtain ⟨answer', heq, hrepeated, hrefused, hconflict⟩ := heffect
    obtain rfl : answer = answer' := by simpa using heq
    have hfalse : records = false := hnothing.resolve_right (by simp [hcall, Call.consumption])
    rcases hok.2.1 hfalse with hr | hr | hr
    · simp [hrepeated] at hr
    · exact absurd hrefused hr
    simp [hconflict] at hr
  · refine pairwise_append.2 ⟨h.repeats, pairwise_singleton _ _, ?_⟩
    intro e he e' he' heffect hsame
    obtain rfl := mem_singleton.1 he'
    obtain ⟨kind, kind', id, id', consumption, digest, amount, amount', hcall, hcall', hid⟩ := hsame
    have hcall' : tx.call = .consume kind' id' consumption digest amount' := hcall'
    have hrecorded := h.recorded e he heffect kind id consumption digest amount hcall
    rw [RetryOk, hcall', hat] at hok
    obtain ⟨hcanon, -, hready⟩ := hok
    obtain ⟨-, hrefused, hmine⟩ := hready _ hrecorded
    obtain ⟨hconflict, hrepeated⟩ := hmine (by rw [hid, hcanon])
    exact ⟨answer, rfl, hrepeated, hrefused, hconflict⟩
  intro e he
  rcases mem_append.1 he with he | he
  · exact h.unique e he
  obtain rfl := mem_singleton.1 he
  simp

/-- A commit that records its ID, which nobody has used and nobody else is past looking up. -/
theorem Orderly.record (h : Orderly cfg s) {now : Int} {answer : Answer}
    (htx : s.txs f = some ⟨.consume kind id consumption digest amount, now,
      .ready write true answer⟩) (hok : OneByOne cfg s (.commit f)) :
    Orderly cfg (Participant.release { s with
      consumptions := update s.consumptions consumption (some ⟨cfg.canon id, digest⟩)
      log := s.log ++ [⟨.consume kind id consumption digest amount, .answered answer⟩] } f) := by
  obtain ⟨-, -, hready⟩ : cfg.canon id = id ∧
      PlaceOk (s.consumptions consumption) ⟨id, digest⟩ (.ready write true answer) := h.txs f _ htx
  have hnone : s.consumptions consumption = none := by
    cases hrec : s.consumptions consumption with
    | none => rfl
    | some by_ => simpa using (hready by_ hrec).1
  have hother : ∀ e ∈ s.log, TookEffect e → ∀ kind' id' consumption' digest' amount',
      e.call = .consume kind' id' consumption' digest' amount' → consumption' ≠ consumption := by
    rintro e he heffect kind' id' consumption' digest' amount' hcall rfl
    have hrec := h.recorded e he heffect kind' id' consumption' digest' amount' hcall
    rw [hnone] at hrec
    cases hrec
  refine ⟨fun g tx' htx' => ?_, fun e he heffect kind' id' consumption' digest' amount' hcall => ?_,
    ?_, ?_⟩
  · have hne : g ≠ f := by
      rintro rfl
      simp [Participant.release] at htx'
    have htx' : s.txs g = some tx' := by simpa [Participant.release, update_of_ne hne] using htx'
    have hold := h.txs g tx' htx'
    cases hcall : tx'.call with
    | consume kind' id' consumption' digest' amount' =>
      simp only [RetryOk, hcall] at hold ⊢
      refine ⟨hold.1, ?_⟩
      change PlaceOk (update s.consumptions consumption _ consumption') _ _
      by_cases hsame : consumption' = consumption
      · rw [hok _ write answer htx rfl g tx' hne htx' (by rw [hcall, hsame]; rfl)]
        trivial
      rw [update_of_ne hsame]
      exact hold.2
    | _ => simpa only [RetryOk, hcall] using hold
  · change update s.consumptions consumption _ consumption' = _
    rcases mem_append.1 he with he | he
    · rw [update_of_ne (hother e he heffect _ _ _ _ _ hcall)]
      exact h.recorded e he heffect kind' id' consumption' digest' amount' hcall
    obtain rfl := mem_singleton.1 he
    have hcall : Call.consume kind id consumption digest amount = _ := hcall
    injection hcall with _ hid hconsumption hdigest _
    subst hid hconsumption hdigest
    rw [update_self]
  · refine pairwise_append.2 ⟨h.repeats, pairwise_singleton _ _, ?_⟩
    intro e he e' he' heffect hsame
    obtain rfl := mem_singleton.1 he'
    obtain ⟨_, _, _, _, _, _, _, _, hcall, hcall', -⟩ := hsame
    have hcall' : Call.consume kind id consumption digest amount = _ := hcall'
    injection hcall' with _ _ hconsumption _ _
    exact absurd hconsumption.symm (hother e he heffect _ _ _ _ _ hcall)
  intro e he
  rcases mem_append.1 he with he | he
  · exact h.unique e he
  obtain rfl := mem_singleton.1 he
  simp

/-! ## Runs -/

theorem orderly_init (cfg : Config) : Orderly cfg (init A) where
  txs f tx htx := by simp [init] at htx
  recorded e he := by simp [init] at he
  repeats := List.Pairwise.nil
  unique e he := by simp [init] at he

variable [DecidableEq A]

section
variable (h : Orderly cfg s)
include h

theorem orderly_insert (hstep : step cfg s (.insert f) = some s') :
    Orderly cfg s' := by
  simp only [step] at hstep
  split at hstep
  all_goals try cases hstep
  all_goals
    unfold Participant.insert at hstep
    split at hstep <;> cases hstep
    · exact h.goTo (by simp [RetryOk])
    refine (h.goTo ?_).congr rfl rfl rfl
    simp [RetryOk, tombstone]

theorem orderly_look (hstep : step cfg s (.look f) = some s') :
    Orderly cfg s' := by
  simp only [step] at hstep
  split at hstep
  next tx htx =>
    split at hstep <;> cases hstep
    rename_i hlooks
    obtain ⟨call, now, at_⟩ := tx
    cases call with
    | consume kind id consumption digest amount =>
      cases at_ <;> simp [looks] at hlooks
      refine h.goOn htx fun hnone => ?_
      rw [show s.consumptions consumption = none from hnone]
      exact placeOk_look rfl _
    | _ =>
      refine h.goTo ?_
      unfold look
      split
      · split <;> simp [RetryOk]
      simp [RetryOk]
  cases hstep

theorem orderly_lock (hstep : step cfg s (.lock f) = some s') :
    Orderly cfg s' := by
  simp only [step] at hstep
  split at hstep
  next call now htx =>
    split at hstep <;> cases hstep
    cases call with
    | consume kind id consumption digest amount =>
      refine (h.goOn htx fun hnone => ?_).congr rfl rfl rfl
      rw [show s.consumptions consumption = none from hnone]
      exact placeOk_locked rfl _ _
    | _ =>
      refine (h.goTo ?_).congr rfl rfl rfl
      refine retryOk_of_not_failed (by simp) ?_
      dsimp only
      exact locked_ne_failed _ _ _
  cases hstep

theorem orderly_record (hstep : step cfg s (.record f) = some s') :
    Orderly cfg s' := by
  simp only [step] at hstep
  split at hstep
  next htx =>
    unfold Participant.record at hstep
    split at hstep
    · -- the ID cannot be recorded: nobody commits it while this one is past the lookup
      rename_i hsome
      obtain ⟨-, hnone⟩ := h.txs f _ htx
      rw [show s.consumptions _ = none from hnone] at hsome
      cases hsome
    split at hstep <;> cases hstep
    refine (h.goOn htx fun hnone => ?_).congr rfl rfl rfl
    rw [show s.consumptions _ = none from hnone]
    exact placeOk_apply _ _ _ _
  cases hstep

theorem orderly_commit (hok : OneByOne cfg s (.commit f))
    (hstep : step cfg s (.commit f) = some s') :
    Orderly cfg s' := by
  simp only [step] at hstep
  split at hstep <;> cases hstep
  rename_i call now write records answer htx
  have htxs := written_txs cfg s ⟨call, now, .ready write records answer⟩ write records
  by_cases hnothing : RecordsNothing call records
  · refine ((h.answer htx rfl hnothing).release f).congr ?_ rfl ?_
    · simp only [Participant.release, htxs]
    exact written_other hnothing write
  · cases call with
    | consume kind id consumption digest amount =>
      cases records with
      | false => exact absurd (.inl rfl) hnothing
      | true =>
        refine (h.record htx hok).congr ?_ rfl ?_
        · simp only [Participant.release, htxs]
        exact written_consume write
    | _ => exact absurd (.inr rfl) hnothing

end

theorem orderly_step {a : Action A} (h : Orderly cfg s) (hok : OneByOne cfg s a)
    (hstep : step cfg s a = some s') : Orderly cfg s' := by
  cases a with simp only [step] at hstep
  | «begin» f call now =>
    split at hstep <;> cases hstep
    have hstart : RetryOk cfg s { call := call, now := now } := by
      cases call with
      | consume kind id consumption digest amount => exact ⟨hok, trivial⟩
      | _ => simp [RetryOk]
    have hgoes : Orderly cfg (s.goTo f { call := call, now := now } .start) := h.goTo hstart
    exact hgoes
  | insert f => exact orderly_insert h hstep
  | readThere f =>
    split at hstep
    · split at hstep <;> cases hstep
      refine (h.goTo ?_).congr rfl rfl rfl
      unfold readThere
      split <;> simp [RetryOk]
    cases hstep
  | take f enough reason =>
    split at hstep <;> cases hstep
    exact h.goTo (by simp [RetryOk, taken])
  | check f =>
    split at hstep
    next htx =>
      split at hstep
      next by_ hused =>
        cases hstep
        exact h.goOn htx fun _ => hused
      rename_i hunused
      cases hstep
      exact h.goOn htx fun _ => hunused
    cases hstep
  | readUsed f =>
    split at hstep <;> cases hstep
    rename_i htx
    refine h.goOn htx fun hused => ?_
    rw [show s.consumptions _ = some _ from hused]
    exact placeOk_readUsed _
  | look f => exact orderly_look h hstep
  | lock f => exact orderly_lock h hstep
  | use f beyond =>
    split at hstep <;> cases hstep
    rename_i htx
    refine h.goOn htx fun hnone => ?_
    rw [show s.consumptions _ = none from hnone]
    exact placeOk_used _ _ _ _
  | record f => exact orderly_record h hstep
  | commit f => exact orderly_commit h hok hstep
  | rollback f =>
    split at hstep
    next call _ htx =>
      have hfailed := h.txs f _ htx
      cases call with
      | consume kind id consumption digest amount => exact absurd hfailed.2 (by simp [PlaceOk])
      | _ => exact absurd rfl hfailed
    · cases hstep
      exact h.release f
    cases hstep

/-- **Retries.**  In every run in which no consumption commits while another transaction with its ID
is past the lookup, once a consumption has taken effect every other attempt with its ID, branch and
content that commits answers a repeat, with no refusal and no conflict, and no attempt fails on a
duplicate ID. -/
theorem retries_repeat (cfg : Config) (as : List (Action A)) (s : Participant A)
    (hmeets : Meets (step cfg) (OneByOne cfg) (init A) as)
    (hrun : run (step cfg) (init A) as = some s) :
    s.log.Pairwise (fun e e' => TookEffect e → SameConsumption cfg e e' → Repeats e') ∧
      ∀ e ∈ s.log, e.outcome ≠ .duplicate := by
  have horderly : Orderly cfg s :=
    run_invariant (fun _ _ _ h => orderly_step h) (orderly_init cfg) hmeets hrun
  exact ⟨horderly.repeats, horderly.unique⟩

def confirmed : List (Action Int) :=
  [.begin 0 (.hold "stock" "b" "d" 10) 0, .insert 0, .take 0 true "", .commit 0,
    .begin 0 (.confirm "stock" "b") 1, .look 0, .lock 0, .commit 0]

/-- An attempt from its lookup on, when it finds the ID unused. -/
def attempt (f : Nat) : List (Action Int) := [.look f, .lock f, .use f false, .record f, .commit f]

def plain : Config := ⟨fun _ => 300, fun id => id⟩

/-- One process alone, with IDs in the database's form. -/
theorem meets_alone {as : List (Action A)} (hcanon : ∀ id, cfg.canon id = id)
    (hof : ∀ a ∈ as, a.of = f) (halone : ∀ g, g ≠ f → s.txs g = none) :
    Meets (step cfg) (OneByOne cfg) s as := by
  induction as generalizing s with
  | nil => trivial
  | cons a as ih =>
    rw [forall_mem_cons] at hof
    obtain ⟨rfl, hof⟩ := hof
    refine ⟨?_, fun t hstep => ih hof fun g hne => ?_⟩
    · cases a with
      | «begin» f call now => exact hcanon _
      | commit f =>
        intro tx write answer _ _ g tx' hne htx'
        rw [halone g hne] at htx'
        cases htx'
      | _ => trivial
    rw [step_txs_of_ne hstep hne]
    exact halone g hne

def twice : List (Action Int) :=
  confirmed ++ .begin 0 (.consume "stock" "b" "c" "e" 10) 2 :: .check 0 :: attempt 0 ++
    [.begin 0 (.consume "stock" "b" "c" "e" 10) 3, .check 0, .readUsed 0, .commit 0]

/-- An attempt that looks its ID up when the first has committed is a repeat. -/
theorem retries_repeat_after_commit :
    ∃ s e e', run (step plain) (init Int) twice = some s ∧ s.log.drop 2 = [e, e'] ∧
      TookEffect e ∧ Repeats e' := by
  have hof : ∀ a ∈ twice, a.of = 0 := by decide
  refine ⟨?s, ?e, ?r, ?hrun, ?hlog, ?heffect, ?hrepeats⟩
  case' hrepeats =>
    have h := (retries_repeat plain twice ?s (meets_alone (fun _ => rfl) hof fun _ _ => rfl)
      ?hrun).1.sublist (drop_sublist 2 _)
  case hrun | hlog => rfl
  case heffect => exact ⟨_, rfl, rfl, rfl, rfl⟩
  refine rel_of_pairwise_cons h (mem_singleton_self _) ⟨_, rfl, rfl, rfl, rfl⟩ ?_
  exact ⟨_, _, _, _, _, _, _, _, rfl, rfl, rfl⟩

/-- Two attempts that both find the ID unused: the second one is refused when the first has consumed
the branch, and fails on the duplicate ID when something is left. -/
theorem refused_after_taking_effect :
    (∃ s, run (step plain) (init Int) (confirmed ++
        [.begin 0 (.consume "stock" "b" "c" "e" 10) 2,
          .begin 1 (.consume "stock" "b" "c" "e" 10) 2, .check 0, .check 1] ++
        attempt 0 ++ [.look 1, .lock 1, .commit 1]) = some s ∧
      ∃ e e' answer, s.log.drop 2 = [e, e'] ∧ TookEffect e ∧ SameConsumption plain e e' ∧
        e'.outcome = .answered answer ∧ answer.refused = some .notCommitted) ∧
    ∃ s, run (step plain) (init Int) (confirmed ++
        [.begin 0 (.consume "stock" "b" "c" "e" 4) 2,
          .begin 1 (.consume "stock" "b" "c" "e" 4) 2, .check 0, .check 1] ++
        attempt 0 ++ [.look 1, .lock 1, .use 1 false, .record 1, .rollback 1]) = some s ∧
      ∃ e e', s.log.drop 2 = [e, e'] ∧ TookEffect e ∧ SameConsumption plain e e' ∧
        e'.outcome = .duplicate := by
  refine ⟨⟨_, rfl, _, _, _, rfl, ⟨_, rfl, rfl, rfl, rfl⟩, ?_, rfl, rfl⟩,
    ⟨_, rfl, _, _, rfl, ⟨_, rfl, rfl, rfl, rfl⟩, ?_, rfl⟩⟩
  · exact ⟨_, _, _, _, _, _, _, _, rfl, rfl, rfl⟩
  exact ⟨_, _, _, _, _, _, _, _, rfl, rfl, rfl⟩

end Participant
end BeSdk.Reserve

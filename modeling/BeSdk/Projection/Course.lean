import BeSdk.Projection.Turns
import BeSdk.Projection.Upkeep

/-!
# The course of the alignment state

What a step of the consumer does to the alignment state of its source, said once for all actions
(`Moves`, `step_moves`). Most steps leave it alone. The locked transactions give inputs to the state
table (`Gives` says which), and `identify` may adopt another identity. Two transactions of an
alignment write past the table: its first one stores the status and the identity its `Step` read,
and its last one takes back the request for a re-fetch before the table hears of the completion.

The first of the two is why the processes matter: what a `Step` read may be stored much later.
`Pc.Next` follows the state a process holds.
-/

namespace BeSdk.Projection

open Runs Function State

variable {J : Type}

/-! ## Processes -/

/-- A process that holds no state it will store. -/
def Pc.Away : Pc J → Prop
  | .stepping _ _ _ => False
  | .aligning _ => False
  | _ => True

/-- What becomes of a process in one step, by the stored state `w`. -/
inductive Pc.Next (cfg : Config J) (w : WmState) : Pc J → Pc J → Prop where
  | stay (pc : Pc J) : Next cfg w pc pc
  | read (age last : Option Int) : Next cfg w .idle (.stepping w age last)
  | align {st : WmState} {age last : Option Int} {soon : Bool}
      (hdue : (due cfg st age last soon).1 = .align) :
      Next cfg w (.stepping st age last) (.aligning st)
  | away {pc pc' : Pc J} (haway : pc'.Away) : Next cfg w pc pc'

variable {w : WmState}

variable {cfg : Config J} {p : Nat}

theorem State.setPc_next {s s' : State J} {pc : Pc J}
    (hprocs : s'.procs = s.procs) (hnext : Pc.Next cfg w (s.procs p).pc pc) (q : Nat) :
    Pc.Next cfg w (s.procs q).pc ((s'.setPc p pc).procs q).pc := by
  simp only [State.setPc, hprocs]
  by_cases hq : q = p
  · rw [hq, update_self]
    exact hnext
  rw [update_of_ne hq]
  exact .stay _

/-! ## The log -/

def Note.IsTurn : Note → Prop
  | .turned _ _ => True
  | _ => False

/-- The log has these turns more, after notes of other kinds. -/
def Logged (log : List Note) (turns : List Turn) (log' : List Note) : Prop :=
  ∃ notes, (∀ n ∈ notes, ¬ n.IsTurn) ∧
    log' = log ++ notes ++ turns.map fun turn => .turned turn.1 turn.2

theorem Logged.refl (log : List Note) : Logged log [] log := ⟨[], by simp, by simp⟩

theorem Logged.turns (log : List Note) (turns : List Turn) :
    Logged log turns (log ++ turns.map fun turn => .turned turn.1 turn.2) :=
  ⟨[], by simp, by simp⟩

theorem Logged.note (log : List Note) {n : Note} (hn : ¬ n.IsTurn) : Logged log [] (log ++ [n]) :=
  ⟨[n], by simpa using hn, by simp⟩

/-! ## Steps -/

def WmState.Same (w w' : WmState) : Prop :=
  w'.toSourceState = w.toSourceState ∧ w'.refetch = w.refetch ∧ w'.adopted = w.adopted

/-- The inputs an action gives to the state table where it adopts nothing. -/
inductive Gives (s : State J) : Action J → SourceEvent → Prop where
  | handle {e : Received J} {fault : Fault} {ev : SourceEvent}
      (hev : ev.kind = .foreign ∧ e.impl ≠ s.db.wm.adopted.impl ∨ ev = s.db.tripped) :
      Gives s (.handle e fault) ev
  | confirm {ev : SourceEvent} (hkind : ev.kind = .operatorConfirms) : Gives s .confirm ev
  | rows {p : Nat} {faults : Nat → Fault} {ev : SourceEvent} (hev : ev = s.db.tripped) :
      Gives s (.applyRows p faults) ev
  | answer {p : Nat} {resp : PullResponse J} {nonce : String} {requested : List Nat}
      {ev : SourceEvent} (hpc : (s.procs p).pc = .asking nonce requested none)
      (hheard : s.db.Heard resp.source ev) : Gives s (.answer p resp) ev

/-- What a step does to the alignment state, the log and the processes. -/
inductive Moves (cfg : Config J) (s : State J) : Action J → State J → Prop where
  | quiet {a : Action J} {s' : State J} (hwm : s.db.wm.Same s'.db.wm)
      (hlog : Logged s.log [] s'.log)
      (hprocs : ∀ q, Pc.Next cfg s.db.wm (s.procs q).pc (s'.procs q).pc) : Moves cfg s a s'
  | turned {a : Action J} {s' : State J} {turns : List Turn}
      (hturned : s.db.Turned (Gives s a) (s'.db, turns)) (hlog : Logged s.log turns s'.log)
      (hprocs : ∀ q, Pc.Next cfg s.db.wm (s.procs q).pc (s'.procs q).pc) : Moves cfg s a s'
  | adopted {p : Nat} {resp : PullResponse J} {s' : State J} {turns : List Turn}
      (hadopted : s.db.Adopted resp.source (s'.db, turns)) (hlog : Logged s.log turns s'.log)
      (hprocs : ∀ q, Pc.Next cfg s.db.wm (s.procs q).pc (s'.procs q).pc)
      (haway : (s'.procs p).pc.Away) : Moves cfg s (.answer p resp) s'
  -- An alignment begins with the status and the identity its `Step` read.
  | begun {p : Nat} {st : WmState} {s' : State J} (hpc : (s.procs p).pc = .aligning st)
      (hwm : s'.db = (s.db.beginAlign cfg st).1) (hlog : s'.log = s.log)
      (hprocs : ∀ q, Pc.Next cfg s.db.wm (s.procs q).pc (s'.procs q).pc) : Moves cfg s (.begin p) s'
  | completed {p : Nat} {nonce : String} {p0 : List Nat} {s' : State J} {turns : List Turn}
      (hdone : s.db.done nonce p0 = (s'.db, turns)) (hlog : Logged s.log turns s'.log)
      (hprocs : ∀ q, Pc.Next cfg s.db.wm (s.procs q).pc (s'.procs q).pc) : Moves cfg s (.done p) s'

theorem WmState.Same.refl (w : WmState) : w.Same w := ⟨rfl, rfl, rfl⟩

theorem Db.record_same (db : Db J) (nonce dbEpoch : String) :
    db.wm.Same (db.record nonce dbEpoch).wm := by
  unfold Db.record
  dsimp only
  split <;> exact ⟨rfl, rfl, rfl⟩

theorem WmState.Same.trans {w₁ w₂ : WmState} (h : w.Same w₁) (h' : w₁.Same w₂) : w.Same w₂ :=
  ⟨h'.1.trans h.1, h'.2.1.trans h.2.1, h'.2.2.trans h.2.2⟩

/-- An alignment that begins for the adopted instance and epoch leaves them. -/
theorem Db.beginAlign_adopted (cfg : Config J) (db : Db J) {st : WmState}
    (himpl : st.adopted.impl = db.wm.adopted.impl) (hepoch : st.adopted.epoch = db.wm.adopted.epoch)
    : (db.beginAlign cfg st).1.wm.adopted = db.wm.adopted := by
  have himpl' : (if st.adopted.impl = "" then db.wm.adopted.impl else st.adopted.impl) =
      db.wm.adopted.impl := by
    rw [himpl, ite_self]
  have hepoch' : (if st.adopted.epoch = "" then db.wm.adopted.epoch else st.adopted.epoch) =
      db.wm.adopted.epoch := by
    rw [hepoch, ite_self]
  change { db.wm.adopted with
    impl := if st.adopted.impl = "" then db.wm.adopted.impl else st.adopted.impl
    epoch := if st.adopted.epoch = "" then db.wm.adopted.epoch else st.adopted.epoch } =
      db.wm.adopted
  rw [himpl', hepoch']

theorem State.goOn_next {s s' : State J} {nonce : String}
    {p0 : List Nat} {run : Option (Run J)} (hprocs : s'.procs = s.procs) (q : Nat) :
    Pc.Next cfg w (s.procs q).pc ((s'.goOn p nonce p0 run).procs q).pc := by
  refine setPc_next hprocs (.away ?_) q
  cases run <;> exact trivial

section Step
variable [DecidableEq J] [EmptyCollection J] [Append J] {cfg : Config J} {s s' : State J}
  {a : Action J}

omit [DecidableEq J] [EmptyCollection J] [Append J] in
theorem answer_moves {resp : PullResponse J} (hsettled : s.db.wm.Settled)
    (hanswer : s.answer cfg p resp = some s') : Moves cfg s (.answer p resp) s' := by
  unfold State.answer at hanswer
  dsimp only at hanswer
  split at hanswer
  next nonce requested hpc =>
    split at hanswer
    · cases hanswer
      exact .quiet (.refl _) (.note _ not_false) (setPc_next rfl (.away trivial))
    rename_i result use hidentify
    cases hanswer
    have hlog : Logged s.log result.2 (s.log ++ [.answered nonce resp.source] ++
        result.2.map fun turn => .turned turn.1 turn.2) :=
      ⟨[.answered nonce resp.source], by simp [Note.IsTurn], rfl⟩
    rcases Db.identify_cases hsettled hidentify with hturned | hadopted
    · exact .turned (hturned.mono fun _ hheard => .answer hpc hheard) hlog
        (setPc_next rfl (.away (by split <;> trivial)))
    refine .adopted hadopted hlog (setPc_next rfl (.away (by split <;> trivial))) ?_
    simp only [State.setPc, update_self]
    split <;> trivial
  · cases hanswer
    exact .quiet (.refl _) (.refl _) (setPc_next rfl (.away (by split <;> trivial)))
  · cases hanswer
    refine .quiet (.refl _) (.note _ not_false) (setPc_next rfl (.away ?_))
    split
    · cases pointsOf cfg.partitions resp.partitions <;> trivial
    trivial
  cases hanswer

/-- **Inversion.** Everything a step can do to the alignment state. -/
theorem step_moves (hsettled : s.db.wm.Settled) (hstep : step cfg s a = some s') :
    Moves cfg s a s' := by
  cases a with simp only [step] at hstep
  | clock now =>
    cases hstep
    exact .quiet (.refl _) (.refl _) fun _ => .stay _
  | handle e fault =>
    cases hstep
    exact .turned ((Db.handle_turned hsettled e fault).mono fun _ => .handle) (.turns _ _)
      fun _ => .stay _
  | confirm =>
    cases hstep
    exact .turned ((Db.confirm_turned hsettled).mono fun _ => .confirm) (.turns _ _)
      fun _ => .stay _
  | pullSoon p =>
    cases hstep
    refine .quiet (.refl _) (.refl _) fun q => ?_
    by_cases hq : q = p
    · simp only [hq, update_self]
      exact .stay _
    simp only [update_of_ne hq]
    exact .stay _
  | read p =>
    split at hstep <;> cases hstep
    rename_i hpc
    exact .quiet (.refl _) (.refl _) (setPc_next rfl (hpc ▸ .read _ _))
  | choose p =>
    split at hstep <;> cases hstep
    rename_i st age last hpc
    refine .quiet (.refl _) (.refl _) fun q => ?_
    by_cases hq : q = p
    · simp only [hq, update_self, hpc]
      cases hdue : (due cfg st age last (s.procs p).soon).1 with
      | rest => exact .away trivial
      | align => exact .align hdue
      | pull => exact .away trivial
    simp only [update_of_ne hq]
    exact .stay _
  | record p nonce dbEpoch =>
    split at hstep
    · cases hstep
      exact .quiet (s.db.record_same _ _) (.refl _) (setPc_next rfl (.away trivial))
    · cases hstep
      exact .quiet (s.db.record_same _ _) (.note _ not_false) (setPc_next rfl (.away trivial))
    cases hstep
  | positions p =>
    split at hstep <;> cases hstep
    exact .quiet (.refl _) (.note _ not_false) (setPc_next rfl (.away trivial))
  | answer p resp => exact answer_moves hsettled hstep
  | applyRows p faults =>
    split at hstep <;> cases hstep
    rename_i nonce requested first rows rest more hpc
    exact .turned ((Db.applyPartition_turned hsettled _).mono fun _ => .rows) (.turns _ _)
      (setPc_next rfl (.away (by split <;> trivial)))
  | turnPage p =>
    split at hstep <;> cases hstep
    exact .quiet (.refl _) (.refl _) (setPc_next rfl (.away (by split <;> trivial)))
  | begin p =>
    split at hstep <;> cases hstep
    rename_i st hpc
    exact .begun hpc rfl rfl (setPc_next rfl (.away trivial))
  | savePoint p =>
    split at hstep
    · split at hstep
      · cases hstep
        exact .quiet ⟨rfl, rfl, rfl⟩ (.refl _) (setPc_next rfl (.away trivial))
      · cases hstep
        exact .quiet (.refl _) (.refl _) (setPc_next rfl (.away trivial))
    cases hstep
  | page p page | select p | reads p results source =>
    split at hstep <;> cases hstep
    exact .quiet (.refl _) (.refl _) (goOn_next rfl)
  | put p =>
    split at hstep
    · split at hstep
      · cases hstep
        exact .quiet (.refl _) (.refl _) (goOn_next rfl)
      · cases hstep
        exact .quiet (.refl _) (.refl _) (setPc_next rfl (.away trivial))
    cases hstep
  | done p =>
    split at hstep
    next run nonce p0 hpc =>
      split at hstep
      · split at hstep
        · cases hstep
          exact .completed rfl (.turns _ _) (setPc_next rfl (.away trivial))
        · cases hstep
          exact .quiet (.refl _) (.refl _) (setPc_next rfl (.away trivial))
      cases hstep
    cases hstep
  | fail p =>
    cases hstep
    exact .quiet (.refl _) (.refl _) (setPc_next rfl (.away trivial))

end Step

/-! ## What holds in every state -/

/-- An aligned source has no re-fetch pending. -/
def WmState.Fresh (w : WmState) : Prop := w.state = .aligned → w.refetch = false

theorem WmState.Fresh.congr {w' : WmState} (hstate : w'.toSourceState = w.toSourceState)
    (hrefetch : w'.refetch = w.refetch) (h : w.Fresh) : w'.Fresh := fun haligned =>
  hrefetch.trans (h ((congrArg SourceState.state hstate).symm.trans haligned))

variable {ev : SourceEvent}

theorem WmState.Fresh.transition (h : w.Fresh)
    (hdone : ev.kind ≠ .alignmentDone) : (w.transition ev).Fresh := by
  unfold WmState.Fresh WmState.transition
  dsimp only
  refine nextState_cases (P := fun next action => next.state = .aligned →
    decide (w.refetch = true ∨ action = .refetch ∨ action = .rowCheckRefetch ∨
      action = .clearAndRefetch) = false) ?_ ?_ ?_ ?_ ?_ ?_ ?_ ?_ ?_
  · simp
  · intro _ hblocked haligned
    simp [hblocked] at haligned
  · simp
  · intro hblocked
    refine nextBlocked_cases
      (P := fun next action => next.state = .aligned → _) ?_ ?_ ?_ ?_ ?_ ?_ <;>
      simp [hblocked]
  · simp
  · simp
  · simp
  · exact fun _ hkind => absurd hkind hdone
  intro _ action haction haligned
  rcases haction with rfl | rfl <;> simpa using h haligned

/-- The completion of an alignment asks for no re-fetch. -/
theorem WmState.transition_refetch_of_done (hdone : ev.kind = .alignmentDone)
    (h : w.refetch = false) : (w.transition ev).refetch = false := by
  unfold WmState.transition
  dsimp only
  refine nextState_cases (P := fun _ action => decide (w.refetch = true ∨ action = .refetch ∨
    action = .rowCheckRefetch ∨ action = .clearAndRefetch) = false) ?_ ?_ ?_ ?_ ?_ ?_ ?_ ?_ ?_
  · simp [hdone]
  · simp [h]
  · simp [h]
  · intro _
    refine nextBlocked_cases (P := fun _ action => decide (_ ∨ action = _ ∨ action = _ ∨
      action = _) = false) ?_ ?_ ?_ ?_ ?_ ?_ <;> simp [h, hdone]
  · simp [hdone]
  · simp [hdone]
  · simp [h]
  · simp [h]
  intro _ action haction
  rcases haction with rfl | rfl <;> simp [h]

/-- What a process may hold: only a source that is adopted and not aligned is aligned anew. -/
def Pc.Sane : Pc J → Prop
  | .stepping st _ _ => st.Fresh
  | .aligning st => st.adopted.impl ≠ "" ∧ st.state ≠ .aligned
  | _ => True

theorem due_align {st : WmState} {age last : Option Int} {soon : Bool}
    (hdue : (due cfg st age last soon).1 = .align) :
    st.adopted.impl ≠ "" ∧ (st.refetch = true ∨ st.state = .aligning) := by
  unfold due at hdue
  split at hdue
  · cases hdue
  split at hdue
  · assumption
  split at hdue
  · cases hdue
  split at hdue <;> cases hdue

theorem Pc.Sane.next {cfg : Config J} {pc pc' : Pc J} (hw : w.Fresh) (h : pc.Sane)
    (hnext : Pc.Next cfg w pc pc') : pc'.Sane := by
  cases hnext with
  | stay => exact h
  | read => exact hw
  | align hdue =>
    obtain ⟨himpl, hrefetch⟩ := due_align hdue
    refine ⟨himpl, fun haligned => ?_⟩
    rcases hrefetch with hrefetch | haligning
    · simp [h haligned] at hrefetch
    simp [haligned] at haligning
  | away haway => cases pc' <;> first | exact trivial | exact haway.elim

structure State.Sane (s : State J) : Prop where
  settled : s.db.wm.Settled
  fresh : s.db.wm.Fresh
  procs : ∀ p, (s.procs p).pc.Sane

theorem State.sane_init (cfg : Config J) (now : Nat) : (State.init cfg now).Sane where
  settled := fun _ => rfl
  fresh := fun _ => rfl
  procs := fun _ => trivial

theorem Gives.kind {s : State J} {a : Action J} (h : Gives s a ev) :
    ev.kind ≠ .alignmentDone ∧ ev.kind ≠ .environmentCopy ∧ ev.kind ≠ .adoptEpoch ∧
      ev.kind ≠ .firstContact := by
  cases h with
  | handle hev => rcases hev with ⟨hkind, -⟩ | rfl <;> simp [Db.tripped, *]
  | confirm hkind => simp [hkind]
  | rows hev => simp [hev, Db.tripped]
  | answer _ hheard => cases hheard <;> simp [*]

section Sane
variable [DecidableEq J] [EmptyCollection J] [Append J] {cfg : Config J} {s s' : State J}
  {a : Action J}

theorem State.sane_step (h : s.Sane) (hstep : step cfg s a = some s') : s'.Sane := by
  cases step_moves h.settled hstep with
  | quiet hwm _ hprocs =>
    obtain ⟨hstate, hrefetch, hadopted⟩ := hwm
    refine ⟨?_, h.fresh.congr hstate hrefetch, fun q => (h.procs q).next h.fresh (hprocs q)⟩
    exact h.settled.congr hadopted
  | turned hturned _ hprocs =>
    refine ⟨?_, ?_, fun q => (h.procs q).next h.fresh (hprocs q)⟩
    · exact h.settled.congr hturned.adopted
    exact hturned.path.invariant (fun _ _ => .congr) (fun _ _ hev hw => hw.transition hev)
      (fun turn hturn => (hturned.turns turn hturn).1.kind.1) h.fresh
  | adopted hadopted _ hprocs =>
    refine ⟨?_, ?_, fun q => (h.procs q).next h.fresh (hprocs q)⟩
    · intro himpl
      rw [hadopted.epoch, if_pos (hadopted.impl.symm.trans himpl)]
    obtain ⟨kind, hkind, hturns⟩ := hadopted.turns
    refine hadopted.path.invariant (Q := fun _ ev => ev.kind ≠ .alignmentDone)
      (fun _ _ => .congr) (fun _ _ hev hw => hw.transition hev) ?_ (h.fresh.congr rfl rfl)
    rw [hturns]
    rcases hkind with rfl | rfl <;> simp
  | begun hpc hwm _ hprocs =>
    have hst : Pc.Sane (.aligning _) := hpc ▸ h.procs _
    refine ⟨?_, ?_, fun q => (h.procs q).next h.fresh (hprocs q)⟩
    · intro himpl
      simp [hwm, Db.beginAlign, Db.setSourceRow, SourceRow.begin, WmState.want, hst.1] at himpl
    intro haligned
    rw [hwm] at haligned
    exact absurd haligned hst.2
  | completed hdone _ hprocs =>
    have hturned := hdone ▸ Db.done_turned h.settled _ _
    refine ⟨?_, ?_, fun q => (h.procs q).next h.fresh (hprocs q)⟩
    · exact h.settled.congr hturned.adopted
    refine fun _ => hturned.path.invariant (P := fun w => w.refetch = false)
      (Q := fun _ ev => ev.kind = .alignmentDone) (fun _ _ _ hrefetch hw => hrefetch.trans hw)
      (fun _ _ hev hw => WmState.transition_refetch_of_done hev hw) ?_ rfl
    exact fun turn hturn => by rw [(hturned.turns turn hturn).1]

theorem State.sane_run {acts : List (Action J)} (h : s.Sane)
    (hrun : run (step cfg) s acts = some s') : s'.Sane :=
  run_invariant_of_step (fun _ _ _ hs hstep => sane_step hs hstep) h hrun

end Sane

/-! ## Pulls and alignments of a small stream -/

def plain : Config (List Nat) where
  deployment := "d"
  partitions := 1
  partitionOf := fun _ => 0
  freshness := 60000000
  input := Received.input

/-- The primary of an instance's first epoch. -/
def primaryOf (impl : String) : Declaration :=
  { deployment := "d", impl := impl, systemID := "7", epoch := "1.1", primary := true }

/-- An answer that carries nothing but who gives it. -/
def answeredBy (source : Declaration) : PullResponse (List Nat) :=
  { source := source, partitions := [], more := false }

def pullBy (p : Nat) (nonce : String) (source : Declaration) : List (Action (List Nat)) :=
  [.read p, .choose p, .record p nonce "1.1", .positions p, .answer p (answeredBy source)]

/-- A `Step` that aligns with a source of no records. -/
def alignWith (p : Nat) (nonce : String) (source : Declaration) : List (Action (List Nat)) :=
  [.read p, .choose p, .begin p, .record p nonce "1.1",
    .answer p { answeredBy source with partitions := [⟨0, .unspecified, some 1, []⟩] },
    .savePoint p, .page p ⟨[], "", declared source⟩, .put p, .select p, .done p]

end BeSdk.Projection

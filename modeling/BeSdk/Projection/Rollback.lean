import Mathlib.Data.List.Induction
import BeSdk.Projection.Course

/-!
# Rollbacks

A source that lost commits is stalled with the recovery generation it had then, and stays so until
an answer of a larger generation is adopted: its positions may have been given out twice.

The generation a rollback is remembered with may be overwritten by later rollbacks and by a failed
row check, so what carries the argument is `SourceState.Open g`, the remembered generation is at
least `g`, for every rollback of the log that no adoption answered (`Unanswered`). Each turn of the
table keeps that if what it remembers is no smaller than the adopted generation
(`SourceEvent.Respects`), and the turns of a run are so with two exceptions. `identify` remembers
the generation a restored system declares, which may be below the adopted one; and an alignment
that begins late stores the epoch its `Step` read. `GenerationKept` excludes both.
-/

namespace BeSdk.Projection

open Runs List

/-! ## Rollbacks in the log -/

/-- The table records a rollback of an adopted source: it hears of one, or the row check of a
confirmed correction fails. -/
def WmState.RecordsRollback (st : WmState) (ev : SourceEvent) : Prop :=
  st.adopted.impl ≠ "" ∧
    (st.state ≠ .blocked ∧ ev.kind = .rollback ∨
      st.state = .blocked ∧ st.confirmed = true ∧ ev.kind = .primaryResponse ∧
        ev.matching = true ∧ ¬ (st.prior = some .stalled ∧ above ev.gen st.stalledGen = false) ∧
        ev.rowCheck = .failed)

/-- An answer of a larger generation than `g` is adopted. -/
def Note.Adopts (g : Int) : Note → Prop
  | .turned _ ev => (ev.kind = .adoptEpoch ∨ ev.kind = .firstContact) ∧ g < ev.gen
  | _ => False

instance (g : Int) : DecidablePred (Note.Adopts g)
  | .turned _ _ => inferInstanceAs (Decidable (_ ∧ _))
  | .sent _ => isFalse id
  | .answered _ _ => isFalse id

/-- A rollback was recorded under generation `g` and no larger one has been adopted since. -/
def Unanswered (log : List Note) (g : Int) : Prop :=
  ∃ pre st ev post, log = pre ++ .turned st ev :: post ∧ st.RecordsRollback ev ∧
    generation st.adopted.epoch = g ∧ ∀ n ∈ post, ¬ n.Adopts g

variable {log : List Note}

theorem Unanswered.append {n : Note} {g : Int} (h : Unanswered (log ++ [n]) g) :
    Unanswered log g ∧ ¬ n.Adopts g ∨
      ∃ st ev, n = .turned st ev ∧ st.RecordsRollback ev ∧ generation st.adopted.epoch = g := by
  obtain ⟨pre, st, ev, post, hlog, hrecords, hgen, hpost⟩ := h
  rcases eq_nil_or_concat post with rfl | ⟨post, m, rfl⟩
  · obtain ⟨-, ⟨⟩⟩ := append_inj' hlog rfl
    exact .inr ⟨st, ev, rfl, hrecords, hgen⟩
  rw [concat_eq_append, ← cons_append, ← append_assoc] at hlog
  obtain ⟨hpre, ⟨⟩⟩ := append_inj' hlog rfl
  simp only [concat_eq_append, forall_mem_append] at hpost
  exact .inl ⟨⟨pre, st, ev, post, hpre, hrecords, hgen, hpost.1⟩, hpost.2 n (by simp)⟩

theorem Unanswered.of_notes {notes : List Note} {g : Int} (hnotes : ∀ n ∈ notes, ¬ n.IsTurn)
    (h : Unanswered (log ++ notes) g) : Unanswered log g := by
  induction notes using List.reverseRecOn with
  | nil => simpa using h
  | append_singleton notes n ih =>
    rw [forall_mem_append] at hnotes
    rw [← append_assoc] at h
    rcases h.append with ⟨h, -⟩ | ⟨st, ev, rfl, -⟩
    · exact ih hnotes.1 h
    exact absurd trivial (hnotes.2 (.turned st ev) (by simp))

/-! ## Turns -/

/-- What a turn remembers or ends is in line with the adopted generation `g`. -/
structure SourceEvent.Respects (g : Int) (ev : SourceEvent) : Prop where
  copy : ev.kind ≠ .environmentCopy
  rollback : ev.kind = .rollback → g ≤ ev.gen
  response : ev.kind = .primaryResponse → ev.matching = true → g ≤ ev.gen
  done : ev.kind = .alignmentDone → ev.gen ≤ g

theorem WmState.RecordsRollback.opens {st : WmState} {ev : SourceEvent} (h : st.RecordsRollback ev)
    {g : Int} (hev : ev.Respects g) : (st.transition ev).Open g := by
  change (nextState st.toSourceState ev).1.Open g
  rcases h.2 with ⟨hblocked, hkind⟩ | ⟨hblocked, hconfirmed, hkind, hmatching, hprior, hcheck⟩
  · have hnext : (nextState st.toSourceState ev).1 = { st.toSourceState with
        state := .stalled, rollback := true, stalledGen := some ev.gen } := by
      simp [nextState, hblocked, hkind]
    rw [hnext]
    exact ⟨rfl, ⟨ev.gen, rfl, hev.rollback hkind⟩, by simp⟩
  have hnext : (nextState st.toSourceState ev).1 = { st.toSourceState with
      state := .stalled, confirmed := false, rollback := true, stalledGen := some ev.gen } := by
    simp only [nextState, nextBlocked, hblocked, hconfirmed, hkind, hmatching, if_neg hprior,
      hcheck]
    simp
  rw [hnext]
  exact ⟨rfl, ⟨ev.gen, rfl, hev.response hkind hmatching⟩, by simp⟩

/-- Every unanswered rollback is open, under the adopted generation. -/
def Kept (log : List Note) (adopted : Identity) (cur : SourceState) : Prop :=
  ∀ g, Unanswered log g → cur.Open g ∧ generation adopted.epoch = g ∧ adopted.impl ≠ ""

/-- The turns of a transaction that adopts nothing. -/
theorem Kept.path {w w' : WmState} {turns : List Turn} {adopted : Identity}
    (h : Kept log adopted w.toSourceState) (hpath : Path w turns w')
    (hturns : ∀ turn ∈ turns, turn.2.Respects (generation adopted.epoch) ∧
      turn.1.adopted = adopted) :
    Kept (log ++ turns.map fun turn => .turned turn.1 turn.2) adopted w'.toSourceState := by
  induction hpath generalizing log with
  | nil hstate _ =>
    rw [hstate]
    simpa using h
  | @cons w w₁ w' ev turns hstate _ _ _ ih =>
    rw [forall_mem_cons] at hturns
    obtain ⟨⟨hev, hadopted⟩, hturns⟩ := hturns
    have hnext : Kept (log ++ [.turned w₁ ev]) adopted (w₁.transition ev).toSourceState := by
      intro g hg
      rcases hg.append with ⟨hg, -⟩ | ⟨st, ev', hn, hrecords, hgen⟩
      · obtain ⟨hopen, hgen, himpl⟩ := h g hg
        rw [hgen] at hev
        rw [← hstate] at hopen
        exact ⟨nextState_open hopen hev.copy hev.rollback hev.response hev.done, hgen, himpl⟩
      · cases hn
        rw [hadopted] at hgen
        exact ⟨hrecords.opens (hgen ▸ hev), hgen, hadopted ▸ hrecords.1⟩
    simpa using ih hnext hturns

/-- The adoption of another epoch answers every rollback of a smaller generation. -/
theorem Kept.adopted {J : Type} {db : Db J} {d : Declaration} {result : Result J}
    (h : Kept log db.wm.adopted db.wm.toSourceState) (hadopted : db.Adopted d result) :
    Kept (log ++ result.2.map fun turn => .turned turn.1 turn.2) result.1.wm.adopted
      result.1.wm.toSourceState := by
  obtain ⟨kind, hkind, hturns⟩ := hadopted.turns
  intro g hg
  have hpath := hadopted.path
  rw [hturns] at hg hpath
  rcases hg.append with ⟨hg, hsmall⟩ | ⟨st, ev, hn, hrecords, -⟩
  · obtain ⟨hopen, hgen, himpl⟩ := h g hg
    rcases hadopted.decision with ⟨-, hnone⟩ | hadopt
    · exact absurd hnone himpl
    have hle : g ≤ generation d.epoch := hgen ▸ (decideEpoch_adopt hadopt).2
    have hsame : generation d.epoch = g := by
      refine le_antisymm (not_lt.mp fun hlt => hsmall ⟨?_, hlt⟩) hle
      exact hkind.symm
    have himpl' : d.impl = db.wm.adopted.impl :=
      (deployment_impl_of_decideEpoch (r := declared d) (by simp [hadopt])).2 himpl
    refine ⟨?_, ?_, by rw [hadopted.impl, himpl']; exact himpl⟩
    · cases hpath with
      | cons hstate _ _ hrest =>
        cases hrest with
        | nil hend _ =>
          rw [hend]
          refine nextState_open hopen ?_ ?_ ?_ ?_ <;> rcases hkind with rfl | rfl <;> simp
    rw [hadopted.epoch, if_neg (himpl' ▸ himpl), hsame]
  · cases hn
    rcases hrecords.2 with ⟨-, hrollback⟩ | ⟨-, -, hresponse, -⟩
    · rcases hkind with rfl | rfl <;> cases hrollback
    rcases hkind with rfl | rfl <;> cases hresponse

/-! ## Runs -/

section Run
variable {J : Type}

/-- A pull's answer that stalls the source declares no smaller generation than the adopted one, and
an alignment begins for the instance and epoch that are adopted then. -/
def GenerationKept (s : State J) : Action J → Prop
  | .answer p resp =>
    match (s.procs p).pc with
    | .asking _ _ none => decideEpoch s.db.wm.adopted (declared resp.source) = .stall →
        generation s.db.wm.adopted.epoch ≤ generation resp.source.epoch
    | _ => True
  | .begin p =>
    match (s.procs p).pc with
    | .aligning st =>
      st.adopted.impl = s.db.wm.adopted.impl ∧ st.adopted.epoch = s.db.wm.adopted.epoch
    | _ => True
  | _ => True

instance (s : State J) (a : Action J) : Decidable (GenerationKept s a) := by
  unfold GenerationKept
  split
  · split <;> infer_instance
  · split <;> infer_instance
  infer_instance

theorem Gives.respects {s : State J} {a : Action J} {ev : SourceEvent} (h : Gives s a ev)
    (hok : GenerationKept s a) : ev.Respects (generation s.db.wm.adopted.epoch) := by
  obtain ⟨hdone, hcopy, -⟩ := h.kind
  refine ⟨hcopy, fun hkind => ?_, fun hkind hmatching => ?_, fun hkind => absurd hkind hdone⟩
  · cases h with
    | handle hev => rcases hev with ⟨hev, -⟩ | rfl <;> simp_all [Db.tripped]
    | confirm hev => simp [hev] at hkind
    | rows hev => simp [hev, Db.tripped]
    | answer hpc hheard =>
      cases hheard with
      | response _ hev | foreign hev | retention hev => simp [hev] at hkind
      | rollback _ hgen _ hdecision =>
        rw [hgen]
        rcases hdecision with hstall | huse
        · simp only [GenerationKept, hpc] at hok
          exact hok hstall
        exact (decideEpoch_use huse).ge
  · cases h with
    | handle hev => rcases hev with ⟨hev, -⟩ | rfl <;> simp_all [Db.tripped]
    | confirm hev => simp [hev] at hkind
    | rows hev => simp [hev, Db.tripped] at hkind
    | answer _ hheard =>
      cases hheard with
      | response _ _ hgen hdecision =>
        rw [hgen]
        rcases hdecision hmatching with huse | hadopt
        · exact (decideEpoch_use huse).ge
        exact (decideEpoch_adopt hadopt).2
      | foreign hev | retention hev | rollback hev => simp [hev] at hkind

def State.Kept (s : State J) : Prop := Projection.Kept s.log s.db.wm.adopted s.db.wm.toSourceState

theorem Kept.notes {log notes : List Note} {adopted : Identity} {cur : SourceState}
    (h : Kept log adopted cur) (hnotes : ∀ n ∈ notes, ¬ n.IsTurn) :
    Kept (log ++ notes) adopted cur :=
  fun g hg => h g (hg.of_notes hnotes)

variable [DecidableEq J] [EmptyCollection J] [Append J] {cfg : Config J} {s s' : State J}
  {a : Action J}

theorem kept_step (hsane : s.Sane) (h : s.Kept) (hok : GenerationKept s a)
    (hstep : step cfg s a = some s') : s'.Kept := by
  cases step_moves hsane.settled hstep with
  | quiet hwm hlog =>
    obtain ⟨notes, hnotes, hlog⟩ := hlog
    obtain ⟨hstate, -, hadopted⟩ := hwm
    rw [map_nil, append_nil] at hlog
    rw [State.Kept, hstate, hadopted, hlog]
    exact Kept.notes h hnotes
  | turned hturned hlog =>
    obtain ⟨notes, hnotes, hlog⟩ := hlog
    rw [State.Kept, hturned.adopted, hlog]
    exact (Kept.notes h hnotes).path hturned.path fun turn hturn =>
      ⟨(hturned.turns turn hturn).1.respects hok, (hturned.turns turn hturn).2⟩
  | adopted hadopted hlog =>
    obtain ⟨notes, hnotes, hlog⟩ := hlog
    rw [State.Kept, hlog]
    exact (Kept.notes h hnotes).adopted hadopted
  | begun hpc hdb hlog =>
    have hst : Pc.Sane (.aligning _) := hpc ▸ hsane.procs _
    simp only [GenerationKept, hpc] at hok
    obtain ⟨himpl, hepoch⟩ := hok
    rw [State.Kept, hlog, hdb, Db.beginAlign_adopted cfg s.db himpl hepoch]
    intro g hg
    obtain ⟨hopen, hadopted⟩ := h g hg
    exact ⟨⟨hopen.rollback, hopen.gen, hst.2⟩, hadopted⟩
  | completed hdone hlog =>
    obtain ⟨notes, hnotes, hlog⟩ := hlog
    have hturned := hdone ▸ Db.done_turned hsane.settled _ _
    rw [State.Kept, hturned.adopted, hlog]
    have hnotes : Projection.Kept (s.log ++ notes) s.db.wm.adopted
        { s.db.wm with refetch := false }.toSourceState := Kept.notes h hnotes
    refine hnotes.path hturned.path fun turn hturn => ?_
    obtain ⟨hev, hadopted⟩ := hturned.turns turn hturn
    rw [hev]
    exact ⟨⟨by simp, by simp, by simp, fun _ => le_rfl⟩, hadopted⟩

theorem kept_run {acts : List (Action J)} (hsane : s.Sane) (h : s.Kept)
    (hmeets : Meets (step cfg) GenerationKept s acts) (hrun : run (step cfg) s acts = some s') :
    s'.Sane ∧ s'.Kept :=
  run_invariant (P := fun s => s.Sane ∧ s.Kept)
    (fun _ _ _ hs hok hstep => ⟨State.sane_step hs.1 hstep, kept_step hs.1 hs.2 hok hstep⟩)
    ⟨hsane, h⟩ hmeets hrun

/-- **Rollbacks.** In a run that keeps the generation, a source that is aligned has adopted an
answer of a larger generation since each rollback that was recorded. -/
theorem aligned_after_larger_generation (cfg : Config J) (now : Nat) (acts : List (Action J))
    (s : State J) (hmeets : Meets (step cfg) GenerationKept (State.init cfg now) acts)
    (hrun : run (step cfg) (State.init cfg now) acts = some s) (haligned : s.db.wm.state = .aligned)
    (pre post : List Note) (st : WmState) (ev : SourceEvent)
    (hlog : s.log = pre ++ .turned st ev :: post) (hrecords : st.RecordsRollback ev) :
    ∃ n ∈ post, n.Adopts (generation st.adopted.epoch) := by
  have hinit : (State.init cfg now).Kept := by
    rintro g ⟨pre, st, ev, post, hlog, -⟩
    simp [State.init] at hlog
  obtain ⟨-, hkept⟩ := kept_run (State.sane_init cfg now) hinit hmeets hrun
  by_contra hnone
  have hunanswered : Unanswered s.log (generation st.adopted.epoch) :=
    ⟨pre, st, ev, post, hlog, hrecords, rfl, fun n hn hadopts => hnone ⟨n, hn, hadopts⟩⟩
  exact (hkept _ hunanswered).1.state haligned

end Run

/-! ## A restored system -/

/-- The application instance on a system, in an epoch. -/
def appOn (systemID epoch : String) : Declaration :=
  { primaryOf "app" with systemID := systemID, epoch := epoch }

/-- A source of epoch `first` is aligned; a restored system answers a pull with `restored` and the
source stalls, re-fetches from where it was, then pulls an answer of `next` and aligns with that. -/
def restoredRun (first restored next : Declaration) : List (Action (List Nat)) :=
  pullBy 0 "n" first ++ alignWith 0 "p" first ++ pullBy 0 "q" restored ++ alignWith 0 "r" first ++
    [.clock 40000000] ++ pullBy 0 "s" next ++ alignWith 0 "t" next

theorem aligned_after_generation_two :
    ∃ s pre st ev post, run (step plain) (State.init plain 0)
        (restoredRun (appOn "7" "1.1") (appOn "8" "1.9") (appOn "8" "2.1")) = some s ∧
      s.db.wm.state = .aligned ∧ s.log = pre ++ .turned st ev :: post ∧ st.RecordsRollback ev ∧
      ∃ n ∈ post, n.Adopts (generation st.adopted.epoch) := by
  refine ⟨?s, [.sent "n", .answered "n" (appOn "7" "1.1"), .turned ?a ?b, .sent "p",
    .answered "p" (appOn "7" "1.1"), .turned ?c ?d, .sent "q", .answered "q" (appOn "8" "1.9")],
    ?st, ?ev, ?post, ?hrun, ?haligned, ?hlog, ?hrecords, aligned_after_larger_generation plain 0 _
      ?s (by decide) ?hrun ?haligned _ ?post ?st ?ev ?hlog ?hrecords⟩
  case hrun | haligned | hlog => rfl
  exact ⟨by decide, .inl ⟨by decide, rfl⟩⟩

/-- The restored system declares generation 1 while 2 is adopted, and 1 is what the table remembers:
the next timeline of generation 2 is taken for a recovery. -/
theorem aligned_again_in_generation_two :
    ∃ s pre st ev post, run (step plain) (State.init plain 0)
        (restoredRun (appOn "7" "2.1") (appOn "8" "1.9") (appOn "7" "2.2")) = some s ∧
      s.db.wm.state = .aligned ∧ s.log = pre ++ .turned st ev :: post ∧ st.RecordsRollback ev ∧
      ∀ n ∈ post, ¬ n.Adopts (generation st.adopted.epoch) := by
  refine ⟨_, [.sent "n", .answered "n" (appOn "7" "2.1"), .turned _ _, .sent "p",
    .answered "p" (appOn "7" "2.1"), .turned _ _, .sent "q", .answered "q" (appOn "8" "1.9")],
    _, _, _, rfl, rfl, rfl, ⟨by decide, .inl ⟨by decide, rfl⟩⟩, by decide⟩

end BeSdk.Projection

import BeSdk.Projection.Course

/-!
# Adopting an epoch

A source may move on to a larger epoch while its consumer sits in any state. Only the first page of
a pull adopts an epoch, so what decides how soon the consumer follows is when a `Step` finds a pull
due. From then on it follows: the pull is answered by the new epoch, which `identify` adopts in
every state but `blocked`, whatever the bus delivers of the instance meanwhile (`pull_due_adopts`).

The proof is an invariant of the `Step`s of one process (`Follows`): the source is not blocked, the
declared epoch is to be adopted or has been, and what the process read of the identity still stands.
-/

namespace BeSdk.Projection

open Runs List

/-! ## What the answers come to -/

theorem nextState_not_blocked {cur : SourceState} {ev : SourceEvent} (hstate : cur.state ≠ .blocked)
    (hkind : ev.kind ≠ .foreign) : (nextState cur ev).1.state ≠ .blocked := by
  refine nextState_cases (P := fun next _ => next.state ≠ .blocked) ?_ ?_ ?_ ?_ ?_ ?_ ?_ ?_ ?_
  · simp
  · exact fun hforeign => absurd hforeign hkind
  · exact fun hforeign => absurd hforeign hkind
  · exact fun hblocked => absurd hblocked hstate
  · simp
  · simp
  · simp
  · simp
  exact fun _ _ _ => hstate

theorem Path.not_blocked {w w' : WmState} {turns : List Turn} (hpath : Path w turns w')
    (hkind : ∀ turn ∈ turns, turn.2.kind ≠ .foreign) (hstate : w.state ≠ .blocked) :
    w'.state ≠ .blocked :=
  hpath.invariant (P := fun w => w.state ≠ .blocked) (Q := fun _ ev => ev.kind ≠ .foreign)
    (fun _ _ hsame _ hw => by rwa [hsame])
      (fun _ _ hev hw => nextState_not_blocked hw hev) hkind hstate

def Declaration.InUse (d : Declaration) (adopted : Identity) : Prop :=
  decideEpoch adopted (declared d) = .use ∧ adopted.epoch = d.epoch

def Declaration.Awaits (d : Declaration) (adopted : Identity) : Prop :=
  adopted.impl ≠ "" ∧ d.impl = adopted.impl ∧
    (decideEpoch adopted (declared d) = .adopt ∨ d.InUse adopted)

/-- Once it is adopted, the same declaration is used. -/
theorem Declaration.inUse_of_adopt {adopted : Identity} {d : Declaration}
    (himpl : adopted.impl ≠ "") (hadopt : decideEpoch adopted (declared d) = .adopt) :
    d.InUse { adopted with impl := d.impl, systemID := d.systemID, epoch := d.epoch } := by
  have hblock : decideEpoch adopted (declared d) ≠ .block := by simp [hadopt]
  obtain ⟨hdeployment, hsame⟩ := deployment_impl_of_decideEpoch hblock
  have hd : d.impl ≠ "" := fun hd => himpl ((hsame himpl).symm.trans hd)
  have hprimary : d.primary = true := (decideEpoch_adopt hadopt).1
  have hdeployment : d.deployment = adopted.deployment := hdeployment
  exact ⟨by simp [decideEpoch, declared, hdeployment, hd, hprimary, cmpEpoch_self], rfl⟩

/-! ## The `Step`s of one process -/

variable {J : Type}

section Steps

/-- The `Step`s of one process with all its pulls answered by `d`, the clock, and what else reaches
the consumer without a `Step`: confirmations, wishes for a pull and events of the instance. -/
def Action.Serves (p : Nat) (d : Declaration) : Action J → Prop
  | .clock _ => True
  | .handle e _ => e.impl = d.impl
  | .confirm => True
  | .pullSoon _ => True
  | .read q => q = p
  | .choose q => q = p
  | .record q _ _ => q = p
  | .positions q => q = p
  | .answer q resp => q = p ∧ resp.source = d
  | .applyRows q _ => q = p
  | .turnPage q => q = p
  | .begin q => q = p
  | .savePoint q => q = p
  | .page q _ => q = p
  | .put q => q = p
  | .select q => q = p
  | .reads q _ _ => q = p
  | .done q => q = p
  | .fail _ => False

/-- What the process read still stands, as far as an alignment writes it back. -/
def Pc.Stands (w : WmState) : Pc J → Prop
  | .stepping st _ _ => st.state ≠ .blocked ∧ st.adopted = w.adopted
  | .aligning st => st.state ≠ .blocked ∧ st.adopted = w.adopted
  | _ => True

structure Follows (p : Nat) (d : Declaration) (s : State J) : Prop where
  sane : s.Sane
  state : s.db.wm.state ≠ .blocked
  awaits : d.Awaits s.db.wm.adopted
  proc : (s.procs p).pc.Stands s.db.wm

theorem Pc.Away.stands {w : WmState} {pc : Pc J} (h : pc.Away) : pc.Stands w := by
  cases pc <;> first | exact trivial | exact h.elim

theorem Pc.Stands.next {cfg : Config J} {w w' : WmState} {pc pc' : Pc J} (h : pc.Stands w)
    (hstate : w.state ≠ .blocked) (hadopted : w'.adopted = w.adopted)
    (hnext : Pc.Next cfg w pc pc') : pc'.Stands w' := by
  cases hnext with
  | stay =>
    cases pc with
    | stepping st age last | aligning st => exact ⟨h.1, h.2.trans hadopted.symm⟩
    | _ => trivial
  | read => exact ⟨hstate, hadopted.symm⟩
  | align => exact ⟨h.1, h.2.trans hadopted.symm⟩
  | away haway => exact haway.stands

/-- An answer of the awaited source is not foreign, nor is an event of its instance. -/
theorem Gives.not_foreign {s : State J} {a : Action J} {ev : SourceEvent} {p : Nat}
    {d : Declaration} (h : Gives s a ev) (hserves : a.Serves p d)
    (hawaits : d.Awaits s.db.wm.adopted) : ev.kind ≠ .foreign := by
  obtain ⟨-, himpl, hdecision⟩ := hawaits
  cases h with
  | handle hev =>
    rcases hev with ⟨-, hforeign⟩ | rfl
    · exact absurd (hserves.trans himpl) hforeign
    simp [Db.tripped]
  | confirm hkind => simp [hkind]
  | rows hev => simp [hev, Db.tripped]
  | answer _ hheard =>
    cases hheard with
    | response _ hkind | retention hkind | rollback hkind => simp [hkind]
    | foreign _ hblock =>
      rw [hserves.2] at hblock
      rcases hdecision with hadopt | ⟨huse, -⟩
      · simp [hblock] at hadopt
      simp [hblock] at huse

variable {d : Declaration}

/-- An answer that adopts brings the declared epoch into use. -/
theorem Db.Adopted.inUse {db : Db J} {result : Result J} (hadopted : db.Adopted d result)
    (hawaits : d.Awaits db.wm.adopted) :
    d.impl = result.1.wm.adopted.impl ∧ d.InUse result.1.wm.adopted := by
  obtain ⟨himpl, hsame, -⟩ := hawaits
  rcases hadopted.decision with ⟨-, hnone⟩ | hadopt
  · exact absurd hnone himpl
  rw [hadopted.adopted, if_neg (hsame ▸ himpl)]
  exact ⟨rfl, Declaration.inUse_of_adopt himpl hadopt⟩

variable [DecidableEq J] [EmptyCollection J] [Append J] {cfg : Config J} {s s' : State J}
  {a : Action J} {p : Nat}

theorem follows_step (h : Follows p d s) (hserves : a.Serves p d) (hstep : step cfg s a = some s') :
    Follows p d s' ∧ (s'.db.wm.adopted = s.db.wm.adopted ∨ d.InUse s'.db.wm.adopted) := by
  have hsane := State.sane_step h.sane hstep
  have hkept {w : WmState} (hadopted : w.adopted = s.db.wm.adopted) : d.Awaits w.adopted := by
    rw [hadopted]
    exact h.awaits
  cases step_moves h.sane.settled hstep with
  | quiet hwm _ hprocs =>
    obtain ⟨hstate, -, hadopted⟩ := hwm
    exact ⟨⟨hsane, by rw [hstate]; exact h.state, hkept hadopted,
      h.proc.next h.state hadopted (hprocs p)⟩, .inl hadopted⟩
  | turned hturned _ hprocs =>
    refine ⟨⟨hsane, hturned.path.not_blocked (fun turn hturn => ?_) h.state,
      hkept hturned.adopted, h.proc.next h.state hturned.adopted (hprocs p)⟩, .inl hturned.adopted⟩
    exact (hturned.turns turn hturn).1.not_foreign hserves h.awaits
  | adopted hadopted _ _ haway =>
    obtain ⟨rfl, rfl⟩ := hserves
    obtain ⟨himpl, hinUse⟩ := hadopted.inUse h.awaits
    obtain ⟨kind, hkind, hturns⟩ := hadopted.turns
    refine ⟨⟨hsane, ?_, ⟨?_, himpl, .inr hinUse⟩, haway.stands⟩, .inr hinUse⟩
    · refine hadopted.path.not_blocked (fun turn hturn => ?_) h.state
      rw [hturns] at hturn
      cases mem_singleton.mp hturn
      rcases hkind with rfl | rfl <;> simp
    rw [← himpl, h.awaits.2.1]
    exact h.awaits.1
  | begun hpc hdb _ hprocs =>
    cases hserves
    have hst : Pc.Stands s.db.wm (.aligning _) := hpc ▸ h.proc
    have hadopted := Db.beginAlign_adopted cfg s.db (congrArg Identity.impl hst.2)
      (congrArg Identity.epoch hst.2)
    rw [← hdb] at hadopted
    exact ⟨⟨hsane, by rw [hdb]; exact hst.1, hkept hadopted,
      h.proc.next h.state hadopted (hprocs _)⟩, .inl hadopted⟩
  | completed hdone _ hprocs =>
    have hturned := hdone ▸ Db.done_turned h.sane.settled _ _
    refine ⟨⟨hsane, hturned.path.not_blocked (fun turn hturn => ?_) h.state,
      hkept hturned.adopted, h.proc.next h.state hturned.adopted (hprocs p)⟩, .inl hturned.adopted⟩
    simp [(hturned.turns turn hturn).1]

end Steps

/-! ## A pull that is due -/

section Pull

/-- A pull is under way whose first page has not been answered. -/
def Pc.Pulls : Pc J → Prop
  | .pulling => True
  | .recorded _ => True
  | .asking _ _ none => True
  | _ => False

variable {d : Declaration}

theorem Db.identify_adopt {db : Db J} (hstate : db.wm.state ≠ .blocked)
    (himpl : d.impl ≠ "") (hadopt : decideEpoch db.wm.adopted (declared d) = .adopt)
    (requested : List Nat) (prs : List (PartitionResult J)) :
    ∃ result, db.identify d requested prs = some (result, false) ∧ result.1.wm.adopted =
      { db.wm.adopted with impl := d.impl, systemID := d.systemID, epoch := d.epoch } := by
  refine ⟨({ db.load with st := db.wm.adopt (declared d) }.transition
    { kind := .adoptEpoch, gen := generation d.epoch }).saveAll.commit, ?_, ?_⟩
  · unfold Db.identify
    dsimp only
    rw [hadopt, if_neg fun hblocked => hstate hblocked.1]
    rfl
  simp [Txn.saveAll, Txn.saveState, Txn.transition, WmState.transition, WmState.adopt, Txn.commit,
    Db.load, declared, himpl]

variable [DecidableEq J] [EmptyCollection J] [Append J] {cfg : Config J} {s s' : State J}
  {a : Action J} {p : Nat}

theorem answer_inUse {nonce : String} {requested : List Nat} {resp : PullResponse J}
    (hpc : (s.procs p).pc = .asking nonce requested none) (h : Follows p resp.source s)
    (hstep : step cfg s (.answer p resp) = some s') : resp.source.InUse s'.db.wm.adopted := by
  obtain ⟨himpl, hsame, hadopt | hinUse⟩ := h.awaits
  · obtain ⟨result, hidentify, hadopted⟩ := Db.identify_adopt h.state (hsame ▸ himpl) hadopt
      requested resp.partitions
    simp only [step, State.answer, hpc, State.note, hidentify] at hstep
    cases hstep
    change resp.source.InUse result.1.wm.adopted
    rw [hadopted]
    exact Declaration.inUse_of_adopt himpl hadopt
  have hserves : (Action.answer p resp).Serves p resp.source := ⟨rfl, rfl⟩
  rcases (follows_step h hserves hstep).2 with hadopted | hinUse'
  · rw [hadopted]
    exact hinUse
  exact hinUse'

/-- A pull under way goes on until its first page is answered by the declared epoch. -/
theorem pulls_step (h : Follows p d s) (hserves : a.Serves p d) (hpulls : (s.procs p).pc.Pulls)
    (hstep : step cfg s a = some s') : (s'.procs p).pc.Pulls ∨ d.InUse s'.db.wm.adopted := by
  cases a with
  | clock now =>
    cases hstep
    exact .inl hpulls
  | handle e fault =>
    cases hstep
    exact .inl hpulls
  | confirm =>
    cases hstep
    exact .inl hpulls
  | pullSoon q =>
    cases hstep
    by_cases hq : p = q
    · cases hq
      simpa using .inl hpulls
    simpa [Function.update_of_ne hq] using .inl hpulls
  | record q nonce dbEpoch =>
    cases hserves
    simp only [step] at hstep
    split at hstep
    · cases hstep
      exact .inl (by simp [State.setPc, Pc.Pulls])
    · next hpc => simp [hpc, Pc.Pulls] at hpulls
    cases hstep
  | positions q =>
    cases hserves
    simp only [step] at hstep
    split at hstep <;> cases hstep
    exact .inl (by simp [State.setPc, State.note, Pc.Pulls])
  | answer q resp =>
    obtain ⟨rfl, rfl⟩ := hserves
    have hanswer := hstep
    simp only [step, State.answer] at hanswer
    split at hanswer
    · next hpc => exact .inr (answer_inUse hpc h hstep)
    · next hpc => simp [hpc, Pc.Pulls] at hpulls
    · next hpc => simp [hpc, Pc.Pulls] at hpulls
    cases hanswer
  | read q | choose q | applyRows q _ | turnPage q | begin q | savePoint q | page q _ | put q
  | select q | reads q _ _ | done q =>
    -- none of these is possible while the pull is under way
    cases hserves
    simp only [step] at hstep
    split at hstep
    · next hpc => simp [hpc, Pc.Pulls] at hpulls
    cases hstep
  | fail q => exact hserves.elim

/-- The pull goes on until it is answered, and what is in use by then stays in use. -/
theorem follows_pull_step (h : Follows p d s) (hserves : a.Serves p d)
    (hpulls : (s.procs p).pc.Pulls ∨ d.InUse s.db.wm.adopted) (hstep : step cfg s a = some s') :
    Follows p d s' ∧ ((s'.procs p).pc.Pulls ∨ d.InUse s'.db.wm.adopted) := by
  obtain ⟨hfollows, hadopted⟩ := follows_step h hserves hstep
  refine ⟨hfollows, ?_⟩
  rcases hpulls with hpulls | hinUse
  · exact pulls_step h hserves hpulls hstep
  rcases hadopted with hadopted | hinUse'
  · exact .inr (hadopted ▸ hinUse)
  exact .inr hinUse'

/-- **Following an epoch.** While every answer declares one epoch that is to be adopted, the first
of the `Step`s of a process that finds a pull due ends with that epoch adopted. -/
theorem pull_due_adopts (cfg : Config J) (now : Nat) (acts : List (Action J)) (s : State J)
    (hreach : run (step cfg) (State.init cfg now) acts = some s)
    (hstate : s.db.wm.state ≠ .blocked) (himpl : s.db.wm.adopted.impl ≠ "")
    (p : Nat) (hidle : (s.procs p).pc = .idle) (d : Declaration)
    (hadopt : decideEpoch s.db.wm.adopted (declared d) = .adopt)
    (before after : List (Action J)) (t s' : State J)
    (hserves : ∀ a ∈ before ++ .choose p :: after, a.Serves p d)
    (hbefore : run (step cfg) s before = some t)
    (hafter : run (step cfg) t (.choose p :: after) = some s') (hend : (s'.procs p).pc = .idle)
    (st : WmState) (age last : Option Int) (hpc : (t.procs p).pc = .stepping st age last)
    (hdue : (due cfg st age last (t.procs p).soon).1 = .pull) :
    s'.db.wm.adopted.epoch = d.epoch := by
  rw [forall_mem_append, forall_mem_cons] at hserves
  obtain ⟨hservesBefore, -, hservesAfter⟩ := hserves
  have hsame := (deployment_impl_of_decideEpoch (r := declared d) (by simp [hadopt])).2 himpl
  have hs : Follows p d s :=
    ⟨State.sane_run (State.sane_init cfg now) hreach, hstate, ⟨himpl, hsame, .inl hadopt⟩,
      by simp [hidle, Pc.Stands]⟩
  have ht : Follows p d t := by
    refine run_invariant (P := Follows p d) ?_ hs (Meets.of_forall hservesBefore) hbefore
    exact fun _ _ _ h hok hstep => (follows_step h hok hstep).1
  obtain ⟨u, hchoose, hrest⟩ := run_cons_eq_some.mp hafter
  have hu : Follows p d u := (follows_step ht (a := .choose p) rfl hchoose).1
  have hpulls : (u.procs p).pc.Pulls := by
    simp only [step, hpc, hdue, Option.some.injEq] at hchoose
    simp [← hchoose, Chore.start, Pc.Pulls]
  have hs' : Follows p d s' ∧ ((s'.procs p).pc.Pulls ∨ d.InUse s'.db.wm.adopted) := by
    refine run_invariant (P := fun s => Follows p d s ∧
      ((s.procs p).pc.Pulls ∨ d.InUse s.db.wm.adopted)) ?_ ⟨hu, .inl hpulls⟩
      (Meets.of_forall hservesAfter) hrest
    exact fun _ _ _ h hok hstep => follows_pull_step h.1 hok h.2 hstep
  rcases hs'.2 with hpulls' | hinUse
  · simp [hend, Pc.Pulls] at hpulls'
  exact hinUse.2

end Pull

/-! ## Aligned sources -/

/-- The application's source after a failover: the next timeline of its generation. -/
def failedOver : Declaration := { primaryOf "app" with epoch := "1.2" }

def alignedRun : List (Action (List Nat)) :=
  pullBy 0 "n" (primaryOf "app") ++ alignWith 0 "p" (primaryOf "app")

theorem pull_due_adopts_without_watermark :
    ∃ s s', run (step plain) (State.init plain 0) alignedRun = some s ∧
      run (step plain) s ([.read 0] ++ .choose 0 ::
        [.record 0 "q" "1.1", .positions 0, .answer 0 (answeredBy failedOver)]) = some s' ∧
      s'.db.wm.adopted.epoch = "1.2" := by
  refine ⟨_, _, rfl, rfl, ?_⟩
  exact pull_due_adopts plain 0 alignedRun _ rfl (by decide) (by decide) 0 rfl failedOver rfl
    [.read 0] [.record 0 "q" "1.1", .positions 0, .answer 0 (answeredBy failedOver)] _ _
    (by simp [Action.Serves, answeredBy]) rfl rfl rfl _ _ _ rfl rfl

/-- The echo of the pull `"q"`, the row after P0. -/
def echoRow : Received (List Nat) :=
  { echo := true, recordID := "q", version := 0, projection := .unknown, data := [], impl := "app"
    epoch := "1.1", partition := 0, seq := 2, subjects := [], digest := "" }

/-- A pull applies its echo: the watermark is its `m_p`. -/
def freshRun : List (Action (List Nat)) :=
  alignedRun ++ [.read 0, .choose 0, .record 0 "q" "1.1", .positions 0,
    .answer 0 { answeredBy (primaryOf "app") with
      partitions := [⟨0, .unspecified, some 2, [echoRow]⟩] },
    .applyRows 0 fun _ => .ok, .turnPage 0]

/-- Just after its watermark was proved, three `Step`s of an aligned source have nothing to do, and
the epoch it failed over to is not adopted. -/
theorem three_steps_at_rest :
    ∃ s s', run (step plain) (State.init plain 0) freshRun = some s ∧ s.db.wm.state = .aligned ∧
      s.db.wm.adopted.impl = "app" ∧
      decideEpoch s.db.wm.adopted (declared failedOver) = .adopt ∧
      run (step plain) s [.read 0, .choose 0, .read 0, .choose 0, .read 0, .choose 0] = some s' ∧
      (s'.procs 0).pc = .idle ∧ s'.db.wm.adopted.epoch = "1.1" :=
  ⟨_, _, rfl, rfl, rfl, rfl, rfl, rfl, rfl⟩

end BeSdk.Projection

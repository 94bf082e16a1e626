import BeSdk.Projection.Course

/-!
# Blocked sources

An event or an answer of another deployment or instance blocks the source: its address is taken to
be misconfigured until an operator confirms that it was corrected and the adopted instance answers.

The state table keeps to that (`Path.leaves_blocked`), and so does every transaction that goes
through it. The first transaction of an alignment does not: it stores the status its `Step` read
before, and a block that came in between is gone. `StatusHanded` is what a run has to meet for the
rule to hold of all its steps.

The rule that a confirmation is good for one pull does not hold at all. A foreign answer leaves the
confirmation of a blocked source where it is, and the echo-only pull of a re-fetch does not look at
the table: either way the next `Step` pulls again (`foreign_step`).
-/

namespace BeSdk.Projection

open Runs List

/-! ## Leaving `blocked` -/

/-- Without a confirmation nothing moves a blocked source but the operator. -/
theorem nextState_unconfirmed {cur : SourceState} {ev : SourceEvent}
    (hblocked : cur.state = .blocked) (hconfirmed : cur.confirmed = false)
    (hkind : ev.kind ≠ .environmentCopy ∧ ev.kind ≠ .operatorConfirms) :
    (nextState cur ev).1 = cur := by
  by_cases hforeign : ev.kind = .foreign
  · simp [nextState, hforeign, hblocked]
  simp [nextState, nextBlocked, hforeign, hblocked, hconfirmed, hkind]

/-- Turns that lead out of `blocked` start confirmed, unless the operator confirms among them, and
one of them is a matching answer. -/
theorem Path.leaves_blocked {w w' : WmState} {turns : List Turn} (hpath : Path w turns w')
    (hkind : ∀ turn ∈ turns, turn.2.kind ≠ .environmentCopy) (hblocked : w.state = .blocked)
    (hleft : w'.state ≠ .blocked) :
    ((∀ turn ∈ turns, turn.2.kind ≠ .operatorConfirms) → w.confirmed = true) ∧
      ∃ turn ∈ turns, turn.2.kind = .primaryResponse ∧ turn.2.matching = true := by
  constructor
  · intro hconfirms
    by_contra hconfirmed
    refine hleft (hpath.invariant (P := fun w => w.state = .blocked ∧ w.confirmed = false)
      (Q := fun _ ev => ev.kind ≠ .environmentCopy ∧ ev.kind ≠ .operatorConfirms)
      ?_ ?_ (fun turn hturn => ⟨hkind turn hturn, hconfirms turn hturn⟩)
      ⟨hblocked, by simpa using hconfirmed⟩).1
    · intro w w' hstate _ hw
      rwa [hstate]
    intro w ev hev hw
    have hsame : (w.transition ev).toSourceState = w.toSourceState :=
      nextState_unconfirmed hw.1 hw.2 hev
    rwa [hsame]
  by_contra hnone
  refine hleft (hpath.invariant (P := fun w => w.state = .blocked)
    (Q := fun _ ev => ev.kind ≠ .environmentCopy ∧
      ¬ (ev.kind = .primaryResponse ∧ ev.matching = true)) ?_ ?_ ?_ hblocked)
  · intro w w' hstate _ hw
    rwa [hstate]
  · intro w ev hev hw
    by_contra hout
    obtain ⟨hresponse, -, hmatching⟩ := nextState_leaves_blocked hw hev.1 hout
    exact hev.2 ⟨hresponse, hmatching⟩
  exact fun turn hturn => ⟨hkind turn hturn, fun hresponse => hnone ⟨turn, hturn, hresponse⟩⟩

variable {J : Type}

section Leaving

/-- While the source is blocked, an alignment begins only if its `Step` read that, and only
primaries answer. -/
def StatusHanded (s : State J) : Action J → Prop
  | .begin p => s.db.wm.state = .blocked → ∀ st, (s.procs p).pc = .aligning st → st.state = .blocked
  | .answer _ resp => s.db.wm.state = .blocked → resp.source.primary = true
  | _ => True

/-- The one input of the table that is an answer to a blocked source. -/
theorem Gives.response {s : State J} {a : Action J} {ev : SourceEvent} (h : Gives s a ev)
    (hkind : ev.kind = .primaryResponse) (hmatching : ev.matching = true) :
    ∃ p resp nonce requested, a = .answer p resp ∧ (s.procs p).pc = .asking nonce requested none ∧
      (decideEpoch s.db.wm.adopted (declared resp.source) = .use ∨
        decideEpoch s.db.wm.adopted (declared resp.source) = .adopt) := by
  cases h with
  | handle hev => rcases hev with ⟨hev, -⟩ | rfl <;> simp_all [Db.tripped]
  | confirm hev => simp [hev] at hkind
  | rows hev => simp [hev, Db.tripped] at hkind
  | answer hpc hheard =>
    cases hheard with
    | response _ _ _ hdecision => exact ⟨_, _, _, _, rfl, hpc, hdecision hmatching⟩
    | foreign hev | retention hev | rollback hev => simp [hev] at hkind

variable [DecidableEq J] [EmptyCollection J] [Append J]

/-- **Leaving `blocked`.** In a run where every alignment that begins while the source is blocked
was handed that status, the source leaves `blocked` by nothing but the first page of a pull,
answered by a primary of the adopted instance, while an operator's confirmation is recorded. -/
theorem blocked_left_by_confirmed_answer (cfg : Config J) (now : Nat) (acts : List (Action J))
    (a : Action J) (s s' : State J)
    (hmeets : Meets (step cfg) StatusHanded (State.init cfg now) (acts ++ [a]))
    (hrun : run (step cfg) (State.init cfg now) acts = some s) (hstep : step cfg s a = some s')
    (hblocked : s.db.wm.state = .blocked) (hleft : s'.db.wm.state ≠ .blocked) :
    s.db.wm.confirmed = true ∧ ∃ p resp nonce requested, a = .answer p resp ∧
      (s.procs p).pc = .asking nonce requested none ∧ resp.source.primary = true ∧
      (decideEpoch s.db.wm.adopted (declared resp.source) = .use ∨
        decideEpoch s.db.wm.adopted (declared resp.source) = .adopt) := by
  have hsane := State.sane_run (State.sane_init cfg now) hrun
  have hok : StatusHanded s a := (hmeets.of_append.2 s hrun).1
  cases step_moves hsane.settled hstep with
  | quiet hwm => exact absurd ((congrArg SourceState.state hwm.1).trans hblocked) hleft
  | turned hturned =>
    obtain ⟨hconfirmed, turn, hturn, hkind, hmatching⟩ := hturned.path.leaves_blocked
      (fun turn hturn => (hturned.turns turn hturn).1.kind.2.1) hblocked hleft
    obtain ⟨p, resp, nonce, requested, rfl, hpc, hdecision⟩ :=
      (hturned.turns turn hturn).1.response hkind hmatching
    refine ⟨hconfirmed fun turn hturn => ?_, p, resp, nonce, requested, rfl, hpc, hok hblocked,
      hdecision⟩
    cases (hturned.turns turn hturn).1 with
    | answer _ hheard => cases hheard <;> simp [*]
  | adopted hadopted => exact absurd hblocked hadopted.state
  | begun hpc hwm =>
    rw [hwm] at hleft
    exact absurd (hok hblocked _ hpc) hleft
  | completed hdone =>
    have hturned := hdone ▸ Db.done_turned hsane.settled _ _
    obtain ⟨-, turn, hturn, hkind, -⟩ := hturned.path.leaves_blocked
      (fun turn hturn => by simp [(hturned.turns turn hturn).1]) hblocked hleft
    simp [(hturned.turns turn hturn).1] at hkind

end Leaving

/-! ## Two processes and a foreign event -/

/-- An event of another instance under this stream's subject. -/
def strayEvent : Received (List Nat) :=
  { echo := false, recordID := "x", version := 1, projection := .full, data := [], impl := "other"
    epoch := "1.1", partition := 0, seq := 1, subjects := [], digest := "" }

/-- A pull of process 0 establishes the source while a pull of process 1 is under way. -/
def establishedBesides : List (Action (List Nat)) :=
  [.read 0, .choose 0, .read 1, .choose 1, .record 0 "n" "1.1", .positions 0,
    .answer 0 (answeredBy (primaryOf "app")), .record 1 "m" "1.1", .positions 1]

theorem blocked_left_by_the_other_pull :
    ∃ s s', run (step plain) (State.init plain 0)
        (establishedBesides ++ [.handle strayEvent .ok, .confirm]) = some s ∧
      step plain s (.answer 1 (answeredBy (primaryOf "app"))) = some s' ∧
      s.db.wm.state = .blocked ∧ s'.db.wm.state = .aligning ∧ s.db.wm.confirmed = true := by
  refine ⟨_, _, rfl, rfl, rfl, rfl, ?_⟩
  refine (blocked_left_by_confirmed_answer plain 0
    (establishedBesides ++ [.handle strayEvent .ok, .confirm])
    (.answer 1 (answeredBy (primaryOf "app"))) _ _ ?_ rfl rfl rfl (by decide)).1
  simp [establishedBesides, Meets, StatusHanded, answeredBy, primaryOf]

/-- Process 0 reads that the source is aligning, another instance's event blocks it, and the
alignment begins with the status process 0 had read: nobody confirmed and nobody answered. -/
theorem block_lost_to_an_alignment :
    ∃ s s', run (step plain) (State.init plain 0)
        (establishedBesides ++ [.read 0, .choose 0, .handle strayEvent .ok]) = some s ∧
      step plain s (.begin 0) = some s' ∧ s.db.wm.state = .blocked ∧ s.db.wm.confirmed = false ∧
      s'.db.wm.state = .aligning :=
  ⟨_, _, rfl, rfl, rfl, rfl, rfl⟩

/-! ## Confirmations -/

section Confirmations

/-- After a pull that another deployment or instance than the adopted one answered, no pull is sent
before an operator confirms. -/
def OnePullPerConfirmation (adopted : Identity) (log : List Note) : Prop :=
  ∀ pre nonce source mid nonce' post,
    log = pre ++ [.answered nonce source] ++ mid ++ [.sent nonce'] ++ post →
    decideEpoch adopted (declared source) = .block →
    ∃ st ev, Note.turned st ev ∈ mid ∧ ev.kind = .operatorConfirms

/-- The actions of the `Step`s of one process whose pulls are all answered alike, and the clock. -/
def Action.OfStep (p : Nat) (resp : PullResponse J) : Action J → Prop
  | .clock _ => True
  | .read q => q = p
  | .choose q => q = p
  | .record q _ _ => q = p
  | .positions q => q = p
  | .begin q => q = p
  | .answer q r => q = p ∧ r = resp
  | _ => False

/-- The source is blocked and confirmed, its address answers for another one, and no `Step` of the
process is under way. -/
structure State.Confirmed (p : Nat) (resp : PullResponse J) (s : State J) : Prop where
  blocked : s.db.wm.state = .blocked
  confirmed : s.db.wm.confirmed = true
  settled : s.db.wm.Settled
  foreign : decideEpoch s.db.wm.adopted (declared resp.source) = .block
  idle : (s.procs p).pc = .idle

/-- Half the freshness after its last pull, the `Step` of a confirmed source re-fetches or pulls. -/
theorem due_confirmed {cfg : Config J} {st : WmState} (hblocked : st.state = .blocked)
    (hconfirmed : st.confirmed = true) (age : Option Int) {last : Option Int}
    (hlast : last.all ((cfg.freshness : Int) ≤ 2 * ·)) (soon : Bool) :
    (due cfg st age last soon).1 = .align ∨ (due cfg st age last soon).1 = .pull := by
  unfold due
  rw [if_neg (by simp [hconfirmed])]
  split
  · exact .inl rfl
  split
  · exact .inr rfl
  rw [if_pos ⟨by simp [hblocked], hlast⟩]
  exact .inr rfl

theorem Db.exists_last (cfg : Config J) (db : Db J) :
    ∃ now, (Db.last { db with now := now }).all ((cfg.freshness : Int) ≤ 2 * ·) := by
  refine ⟨db.now + ((db.pulls.map (·.2)).max?).getD 0 + cfg.freshness, ?_⟩
  cases hmax : (db.pulls.map (·.2)).max? with
  | none => simp [Db.last, hmax]
  | some mp =>
    have hlast : (cfg.freshness : Int) ≤ 2 * ((db.now + mp + cfg.freshness : Nat) - mp) := by omega
    simpa [Db.last, hmax] using hlast

/-- A blocked source hears of another foreign answer: nothing changes. -/
theorem Db.identify_foreign {db : Db J} {d : Declaration} (hblocked : db.wm.state = .blocked)
    (hsettled : db.wm.Settled) (hforeign : decideEpoch db.wm.adopted (declared d) = .block)
    (requested : List Nat) (prs : List (PartitionResult J)) :
    ∃ result, db.identify d requested prs = some (result, false) ∧ db.wm.Same result.1.wm ∧
      result.2 = [(db.wm, { kind := .foreign, gen := generation d.epoch })] := by
  refine ⟨(db.load.transition { kind := .foreign, gen := generation d.epoch }).saveAll.commit,
    ?_, ?_, rfl⟩
  · unfold Db.identify
    dsimp only
    rw [hforeign, if_neg (by simp)]
    rfl
  have hnext : nextState db.wm.toSourceState { kind := .foreign, gen := generation d.epoch } =
      (db.wm.toSourceState, .alert) := by
    simp [nextState, hblocked]
  refine ⟨congrArg Prod.fst hnext, ?_, Txn.saveState_adopted hsettled⟩
  simp [Txn.saveAll, Txn.saveState, Txn.transition, WmState.transition, Db.load, Txn.commit, hnext]

/-- An alignment that begins with the stored state writes back what is there. -/
theorem Db.beginAlign_same (cfg : Config J) (db : Db J) :
    db.wm.Same (db.beginAlign cfg db.wm).1.wm :=
  ⟨rfl, rfl, Db.beginAlign_adopted cfg db rfl rfl⟩

theorem State.Confirmed.of_same {s s' : State J} {p : Nat} {resp : PullResponse J}
    (h : s.Confirmed p resp)
    (hsame : s.db.wm.Same s'.db.wm) (hidle : (s'.procs p).pc = .idle) : s'.Confirmed p resp where
  blocked := by rw [hsame.1, h.blocked]
  confirmed := by rw [hsame.1, h.confirmed]
  settled := h.settled.congr hsame.2.2
  foreign := by rw [hsame.2.2, h.foreign]
  idle := hidle

variable [DecidableEq J] [EmptyCollection J] [Append J] (cfg : Config J) {s : State J} {p : Nat}
  {resp : PullResponse J}

theorem answer_foreign {nonce : String} {requested : List Nat}
    (hpc : (s.procs p).pc = .asking nonce requested none) (hblocked : s.db.wm.state = .blocked)
    (hsettled : s.db.wm.Settled)
    (hforeign : decideEpoch s.db.wm.adopted (declared resp.source) = .block) :
    ∃ s', step cfg s (.answer p resp) = some s' ∧ s.db.wm.Same s'.db.wm ∧
      (s'.procs p).pc = .idle ∧ s'.log = s.log ++ [.answered nonce resp.source,
        .turned s.db.wm { kind := .foreign, gen := generation resp.source.epoch }] := by
  obtain ⟨result, hidentify, hsame, hturns⟩ :=
    Db.identify_foreign hblocked hsettled hforeign requested resp.partitions
  refine ⟨((s.note (.answered nonce resp.source)).commit result).setPc p .idle, ?_, hsame, ?_, ?_⟩
  · simp [step, State.answer, hpc, State.note, hidentify]
  · simp [State.setPc]
  simp [State.setPc, State.commit, State.note, hturns]

theorem answer_point {st : WmState} {align : Run J} {nonce : String}
    (hpc : (s.procs p).pc = .pointing st align nonce)
    (hforeign : decideEpoch st.adopted (declared resp.source) = .block) :
    ∃ s', step cfg s (.answer p resp) = some s' ∧ s'.db = s.db ∧ (s'.procs p).pc = .idle ∧
      s'.log = s.log ++ [.answered nonce resp.source] := by
  simp [step, State.answer, hpc, State.note, hforeign, State.setPc]

/-- A `Step` of a confirmed source sends a pull, and the foreign answer leaves the source
confirmed. -/
theorem foreign_step_due (h : s.Confirmed p resp)
    (hlast : s.db.last.all ((cfg.freshness : Int) ≤ 2 * ·)) (nonce dbEpoch : String) :
    ∃ acts s' notes, run (step cfg) s acts = some s' ∧ (∀ a ∈ acts, a.OfStep p resp) ∧
      s'.Confirmed p resp ∧ (∀ st ev, Note.turned st ev ∈ notes → ev.kind = .foreign) ∧
      s'.log = s.log ++ [.sent nonce, .answered nonce resp.source] ++ notes := by
  obtain ⟨s₁, hlook, hdb₁, hlog₁, hproc₁⟩ := run_look cfg h.idle
  rcases due_confirmed h.blocked h.confirmed s.db.age hlast (s.procs p).soon with hdue | hdue
  · -- a re-fetch is pending: its echo-only pull is refused without a turn of the table
    obtain ⟨s₂, hbegin, hdb₂, hlog₂, hproc₂⟩ :=
      run_begin cfg (s := s₁) (p := p) (by rw [hproc₁, hdue]; rfl) nonce dbEpoch
    obtain ⟨s₃, hanswer, hdb₃, hidle, hlog₃⟩ :=
      answer_point cfg (s := s₂) (by rw [hproc₂]) h.foreign
    refine ⟨_, s₃, [], run_trans (run_trans hlook hbegin) ((run_singleton _ _).trans hanswer),
      by simp [Action.OfStep], h.of_same ?_ hidle, by simp, by simp [hlog₃, hlog₂, hlog₁]⟩
    rw [hdb₃, hdb₂, hdb₁]
    exact (Db.beginAlign_same cfg s.db).trans (Db.record_same _ nonce dbEpoch)
  obtain ⟨s₂, hask, hdb₂, hlog₂, hproc₂⟩ :=
    run_ask cfg (s := s₁) (p := p) (by rw [hproc₁, hdue]; rfl) nonce dbEpoch
  have hsame : s.db.wm.Same s₂.db.wm := by
    rw [hdb₂, hdb₁]
    exact Db.record_same _ nonce dbEpoch
  have h₂ : { s₂ with procs := s.procs }.Confirmed p resp := h.of_same hsame h.idle
  obtain ⟨s₃, hanswer, hsame₃, hidle, hlog₃⟩ := answer_foreign cfg (s := s₂)
    (by rw [hproc₂]) h₂.blocked h₂.settled h₂.foreign
  refine ⟨_, s₃, [.turned s₂.db.wm { kind := .foreign, gen := generation resp.source.epoch }],
    run_trans (run_trans hlook hask) ((run_singleton _ _).trans hanswer), by simp [Action.OfStep],
    h.of_same (hsame.trans hsame₃) hidle, ?_, by simp [hlog₃, hlog₂, hlog₁]⟩
  intro st ev hturned
  cases mem_singleton.mp hturned
  rfl

/-- The same, once enough time has passed. -/
theorem foreign_step (h : s.Confirmed p resp) (nonce dbEpoch : String) :
    ∃ acts s' notes, run (step cfg) s acts = some s' ∧ (∀ a ∈ acts, a.OfStep p resp) ∧
      s'.Confirmed p resp ∧ (∀ st ev, Note.turned st ev ∈ notes → ev.kind = .foreign) ∧
      s'.log = s.log ++ [.sent nonce, .answered nonce resp.source] ++ notes := by
  obtain ⟨now, hlast⟩ := s.db.exists_last cfg
  have htick : { s with db := { s.db with now := now } }.Confirmed p resp :=
    h.of_same ⟨rfl, rfl, rfl⟩ h.idle
  obtain ⟨acts, s', notes, hrun, hacts, hrest⟩ := foreign_step_due cfg htick hlast nonce dbEpoch
  refine ⟨.clock now :: acts, s', notes, run_cons_eq_some.mpr ⟨_, rfl, hrun⟩, ?_, hrest⟩
  exact forall_mem_cons.mpr ⟨trivial, hacts⟩

/-- Whoever the operator confirms to: when the address of a blocked source answers for another
deployment or instance, one confirmation is followed by a pull, its foreign answer and another
pull. -/
theorem confirmation_not_used_up (cfg : Config J) (now : Nat) (acts : List (Action J)) (s : State J)
    (hrun : run (step cfg) (State.init cfg now) acts = some s) (hblocked : s.db.wm.state = .blocked)
    (p : Nat) (hidle : (s.procs p).pc = .idle) (resp : PullResponse J)
    (hforeign : decideEpoch s.db.wm.adopted (declared resp.source) = .block) :
    ∃ more s' notes, run (step cfg) s (.confirm :: more) = some s' ∧
      (∀ a ∈ more, a.OfStep p resp) ∧ s'.log = s.log ++ notes ∧
      ¬ OnePullPerConfirmation s.db.wm.adopted notes := by
  have hsane := State.sane_run (State.sane_init cfg now) hrun
  have hnext : nextState s.db.wm.toSourceState { kind := .operatorConfirms } =
      ({ s.db.wm.toSourceState with confirmed := true }, .confirm) := by
    simp [nextState, nextBlocked, hblocked]
  have hstate : s.db.confirm.1.wm.toSourceState =
    { s.db.wm.toSourceState with confirmed := true } :=
    congrArg Prod.fst hnext
  have hadopted := (Db.confirm_turned hsane.settled).adopted
  have hconfirmed : (s.commit s.db.confirm).Confirmed p resp :=
    { blocked := (congrArg SourceState.state hstate).trans hblocked
      confirmed := congrArg SourceState.confirmed hstate
      settled := hsane.settled.congr hadopted
      foreign := by rw [← hforeign, ← hadopted]; rfl
      idle := hidle }
  obtain ⟨acts₁, s₁, notes₁, hrun₁, hacts₁, hconfirmed₁, hforeign₁, hlog₁⟩ :=
    foreign_step cfg hconfirmed "first" "1.1"
  obtain ⟨acts₂, s₂, notes₂, hrun₂, hacts₂, -, -, hlog₂⟩ :=
    foreign_step cfg hconfirmed₁ "second" "1.1"
  refine ⟨acts₁ ++ acts₂, s₂,
    ((s.db.confirm.2.map fun turn => .turned turn.1 turn.2) ++ [.sent "first"]) ++
      [.answered "first" resp.source] ++ notes₁ ++ [.sent "second"] ++
      (.answered "second" resp.source :: notes₂),
    run_cons_eq_some.mpr ⟨_, rfl, run_trans hrun₁ hrun₂⟩, ?_, ?_, ?_⟩
  · exact fun a ha => (mem_append.mp ha).elim (hacts₁ a) (hacts₂ a)
  · simp [hlog₂, hlog₁, State.commit]
  intro hone
  obtain ⟨st, ev, hturned, hkind⟩ := hone _ "first" resp.source notes₁ "second" _ rfl hforeign
  simp [hforeign₁ st ev hturned] at hkind

end Confirmations

theorem confirmation_not_used_up_first_contact :
    ∃ s, run (step plain) (State.init plain 0)
        (pullBy 0 "n" (primaryOf "app") ++ [.handle strayEvent .ok]) = some s ∧
      ∃ more s' notes, run (step plain) s (.confirm :: more) = some s' ∧
        (∀ a ∈ more, a.OfStep 0 (answeredBy (primaryOf "other"))) ∧ s'.log = s.log ++ notes ∧
        ¬ OnePullPerConfirmation s.db.wm.adopted notes :=
  ⟨_, rfl, confirmation_not_used_up plain 0
    (pullBy 0 "n" (primaryOf "app") ++ [.handle strayEvent .ok]) _ rfl rfl 0 rfl
    (answeredBy (primaryOf "other")) rfl⟩

/-- An aligned source is blocked and the operator confirms once; another instance answers the pull
`"a"`, and the next `Step` sends `"b"`. -/
def twoPulls : List (Action (List Nat)) :=
  pullBy 0 "n" (primaryOf "app") ++ alignWith 0 "p" (primaryOf "app") ++
    [.handle strayEvent .ok, .confirm, .clock 40000000] ++ pullBy 0 "a" (primaryOf "other") ++
    [.clock 80000000, .read 0, .choose 0, .record 0 "b" "1.1", .positions 0]

theorem second_pull_after_a_foreign_answer :
    ∃ s, run (step plain) (State.init plain 0) twoPulls = some s ∧
      ¬ OnePullPerConfirmation s.db.wm.adopted s.log := by
  refine ⟨_, rfl, fun hone => ?_⟩
  obtain ⟨st, ev, hturned, hkind⟩ := hone
    [.sent "n", .answered "n" (primaryOf "app"), .turned _ _, .sent "p",
      .answered "p" (primaryOf "app"), .turned _ _, .turned _ _, .turned _ _, .sent "a"]
    "a" (primaryOf "other") [.turned _ { kind := .foreign, gen := 1 }] "b" [] rfl rfl
  cases mem_singleton.mp hturned
  cases hkind

end BeSdk.Projection

import BeSdk.Work.Runner

/-!
# Fencing: which claim a guarded write belongs to

A write of a `Run` commits only past `guard`: the item running, its epoch the one the
run's claim took, the claim's database epoch the current one.  Claims take the epochs
of an item one after the other, so of the runs whose claims committed only the latest
can pass (`Latest`), whatever takeovers, releases and epoch changes lie between.

A run whose claim rolled back is not among them: the next claim takes the same epoch
number again, and both runs pass the guard (`not_fenced_of_failed_claim`).
`HandsOutCommitted` is the condition that no such run is handed out.

That no queue or cron item completes twice needs no condition: `done` is never left.
-/

namespace BeSdk.Work

open Runs Function Option State

variable {cfg : Config} {s s' : State} {a : Action}

/-- The claim through whose `Run` the action commits a guarded update, if it does. -/
def committedBy (s : State) : Action → Option Nat
  | .write k w result =>
    match s.runs[k]? with
    | some rs =>
      if rs.phase.allows w ∧ result.applied ∧ (s.exec rs.run id []).isSome then some k else none
    | none => none
  | .settle k result =>
    match s.runs[k]? with
    | some ⟨r, .failing _ _⟩ => if result.applied ∧ (s.exec r id []).isSome then some k else none
    | _ => none
  | _ => none

/-- The `Run` of claim `k` is its item's latest claim, the item is running, and the
database epoch is the one it was claimed under. -/
def Fenced (s : State) (k : Nat) : Prop :=
  ∃ (rs : RunState) (it : Item), s.runs[k]? = some rs ∧ s.items rs.run.id = some it ∧
    it.state = .running ∧ s.latest rs.run.id = some k ∧ it.claimEpoch = some s.epoch

/-- A claim whose transaction failed hands out no `Run`. -/
def HandsOutCommitted (cfg : Config) (s : State) : Action → Prop
  | .claim holder id .failed =>
    ∀ it job, s.items id = some it → (claim s.now cfg.lease s.epoch holder job it).2 = none
  | _ => True

/-! ## Rows and claims -/

/-- The claim names a row of its kind and of its job's effect class. -/
def Named (s : State) (r : Run) : Prop :=
  ∃ it, s.items r.id = some it ∧ it.kind = r.kind ∧ it.effectClass = r.job.effect

/-- Rows are stored under their key with their job's effect class, and every claim names
its row. -/
structure Issued (cfg : Config) (s : State) : Prop where
  key : ∀ id it, s.items id = some it → it.id = id
  declared : ∀ id it, s.items id = some it → it.Declared cfg
  named : ∀ (k : Nat) (r : Run), s.claims[k]? = some r → Named s r

/-- No claim is ahead of its item, and one that is level with it is the latest. -/
def Latest (s : State) : Prop :=
  ∀ (k : Nat) (r : Run) (it : Item), s.claims[k]? = some r → s.items r.id = some it →
    r.epoch ≤ it.epoch ∧ (r.epoch = it.epoch → s.latest r.id = some k)

variable {k : Nat} {rs : RunState} {it : Item}

theorem Latest.of_run (h : Latest s)
    (hrun : s.runs[k]? = some rs) (hitem : s.items rs.run.id = some it) :
    rs.run.epoch ≤ it.epoch ∧ (rs.run.epoch = it.epoch → s.latest rs.run.id = some k) :=
  h k rs.run.key it (claims_of_run hrun) hitem

theorem Issued.of_run (h : Issued cfg s) (hrun : s.runs[k]? = some rs) : Named s rs.run :=
  h.named k rs.run.key (claims_of_run hrun)

/-- A row rewritten by a statement, with claims that name a row already. -/
theorem Issued.update (h : Issued cfg s) {id : String} {it' : Item} (hitem : s.items id = some it)
    (hkeeps : it.Keeps it') (hitems : s'.items = update s.items id (some it'))
    (hclaims : ∀ (k : Nat) (r : Run), s'.claims[k]? = some r → Named s r) : Issued cfg s' := by
  have hrow : ∀ id' row, s'.items id' = some row →
      ∃ old, s.items id' = some old ∧ old.Keeps row := by
    intro id' row hrow
    rw [hitems] at hrow
    by_cases heq : id' = id
    · subst heq
      rw [update_self, some.injEq] at hrow
      exact ⟨it, hitem, hrow ▸ hkeeps⟩
    rw [update_of_ne heq] at hrow
    exact ⟨row, hrow, ⟨rfl, rfl, rfl, rfl⟩⟩
  constructor
  · intro id' row hrow'
    obtain ⟨old, hold, hk⟩ := hrow id' row hrow'
    rw [hk.id]
    exact h.key id' old hold
  · intro id' row hrow'
    obtain ⟨old, hold, hk⟩ := hrow id' row hrow'
    obtain ⟨job, hjob, heffect⟩ := h.declared id' old hold
    exact ⟨job, by rw [hk.job, hjob], by rw [hk.effectClass, heffect]⟩
  intro k r hr
  obtain ⟨old, hold, hkind, heffect⟩ := hclaims k r hr
  by_cases heq : r.id = id
  · rw [heq, hitem, some.injEq] at hold
    subst hold
    refine ⟨it', by rw [hitems, heq, update_self], ?_, ?_⟩
    · rw [hkeeps.kind, hkind]
    rw [hkeeps.effectClass, heffect]
  exact ⟨old, by rw [hitems, update_of_ne heq, hold], hkind, heffect⟩

theorem Latest.update (h : Latest s) {id : String} {it' : Item} (hitem : s.items id = some it)
    (hepoch : it'.epoch = it.epoch) (hitems : s'.items = update s.items id (some it'))
    (hlatest : s'.latest = s.latest) (hclaims : s'.claims = s.claims) : Latest s' := by
  intro k r row hr hrow
  rw [hclaims] at hr
  rw [hitems] at hrow
  rw [hlatest]
  by_cases heq : r.id = id
  · rw [heq, update_self, some.injEq] at hrow
    rw [← hrow, hepoch]
    exact h k r it hr (heq ▸ hitem)
  rw [update_of_ne heq] at hrow
  exact h k r row hr hrow

theorem issued_init (epoch : Epoch) : Issued cfg (init epoch) :=
  ⟨fun _ _ h => by simp [init] at h, fun _ _ h => by simp [init] at h,
    fun _ _ h => by simp [init, State.claims] at h⟩

theorem latest_init (epoch : Epoch) : Latest (init epoch) :=
  fun _ _ _ h => by simp [init, State.claims] at h

/-- A claim, old or new: the new one is the last of the list. -/
theorem mem_claims_claim {holder : String} {job : Job} {result : TxResult} {r : Run}
    (hr : (s.claim cfg holder job it result).claims[k]? = some r) : s.claims[k]? = some r ∨
      k = s.runs.length ∧ ∃ r', (claim s.now cfg.lease s.epoch holder job it).2 = some r' ∧
        r'.key = r := by
  rw [claims_claim] at hr
  have hlength : s.claims.length = s.runs.length := by simp [State.claims]
  cases hclaim : (claim s.now cfg.lease s.epoch holder job it).2 with
  | none =>
    rw [hclaim] at hr
    exact .inl (by simpa using hr)
  | some r' =>
    rw [hclaim] at hr
    rcases Nat.lt_trichotomy k s.claims.length with hlt | heq | hgt
    · exact .inl (by simpa [List.getElem?_append_left hlt] using hr)
    · subst heq
      exact .inr ⟨hlength, r', rfl, by simpa using hr⟩
    rw [List.getElem?_eq_none (by simp; omega)] at hr
    simp at hr

theorem issued_step (h : Issued cfg s) (hstep : step cfg s a = some s') : Issued cfg s' := by
  cases step_moves hstep with
  | quiet hitems _ _ hclaims _ =>
    exact ⟨by rw [hitems]; exact h.key, by rw [hitems]; exact h.declared,
      by unfold Named; rw [hitems, hclaims]; exact h.named⟩
  | added hnone hfresh =>
    rename_i it
    have hrow : ∀ id row, (s.put it.id it).items id = some row →
        row = it ∧ id = it.id ∨ s.items id = some row := by
      intro id row hrow
      by_cases heq : id = it.id
      · subst heq
        simp only [State.put, update_self, some.injEq] at hrow
        exact .inl ⟨hrow.symm, rfl⟩
      simp only [State.put, update_of_ne heq] at hrow
      exact .inr hrow
    constructor
    · intro id row hrow'
      rcases hrow id row hrow' with ⟨rfl, rfl⟩ | hold
      · rfl
      exact h.key id row hold
    · intro id row hrow'
      rcases hrow id row hrow' with ⟨rfl, rfl⟩ | hold
      · exact hfresh.declared
      exact h.declared id row hold
    intro k r hr
    obtain ⟨row, hrow, hnamed⟩ := h.named k r hr
    have hne : r.id ≠ it.id := fun heq => by simp [heq, hnone] at hrow
    exact ⟨row, by simp [State.put, update_of_ne hne, hrow], hnamed⟩
  | claimed hitem hjob hclaim =>
    rename_i holder id result it job
    have hid : it.id = id := h.key id it hitem
    subst hid
    have hclaims : ∀ (k : Nat) (r : Run),
        (s.claim cfg holder job it result).claims[k]? = some r → Named s r := by
      intro k r hr
      rcases mem_claims_claim hr with hr | ⟨-, r', hr', rfl⟩
      · exact h.named k r hr
      obtain ⟨hrid, hrk, -, hrjob, -⟩ := claim_run hr'
      obtain ⟨job', hjob', heffect⟩ := h.declared _ it hitem
      obtain rfl : job' = job := by rw [hjob] at hjob'; simpa using hjob'.symm
      exact ⟨it, by simp [Run.key, hrid, hitem], hrk.symm, by simp [Run.key, hrjob, heffect]⟩
    cases hres : result.applied with
    | true => exact h.update hitem (claim_keeps ..) (by simp [State.claim, hres]; rfl) hclaims
    | false =>
      refine h.update hitem ⟨rfl, rfl, rfl, rfl⟩ ?_ hclaims
      rw [← hitem, update_eq_self]
      simp [State.claim, hres]
  | wrote hrun hallows hitem hguard hkey =>
    refine h.update hitem (Write.keeps_set ..) rfl fun k r hr => h.named k r ?_
    exact claims_of_setRun hr hrun hkey
  | reported hrun =>
    exact ⟨h.key, h.declared, fun k r hr => h.named k r (claims_of_setRun hr hrun rfl)⟩
  | settled hrun hitem hguard =>
    refine h.update hitem (FailWrite.keeps_set ..) rfl fun k r hr => h.named k r ?_
    exact claims_of_setRun hr hrun rfl
  | operated hitem hop hs' =>
    subst hs'
    exact h.update hitem hop.keeps rfl h.named

theorem latest_step (hissued : Issued cfg s) (h : Latest s) (hok : HandsOutCommitted cfg s a)
    (hstep : step cfg s a = some s') : Latest s' := by
  cases step_moves hstep with
  | quiet hitems hlatest _ hclaims _ =>
    intro k r it hr hit
    rw [hlatest]
    exact h k r it (hclaims ▸ hr) (hitems ▸ hit)
  | added hnone hfresh =>
    rename_i it
    intro k r row hr hrow
    obtain ⟨old, hold, -⟩ := hissued.named k r hr
    have hne : r.id ≠ it.id := fun heq => by simp [heq, hnone] at hold
    simp only [State.put, update_of_ne hne] at hrow
    exact h k r row hr hrow
  | claimed hitem hjob hclaim =>
    rename_i holder id result it job
    have hid : it.id = id := hissued.key id it hitem
    have hepoch := claim_epoch s.now cfg.lease s.epoch holder job it
    intro k r row hr hrow
    cases hres : result.applied with
    | false =>
      -- the transaction failed, so by the condition nothing was handed out
      obtain rfl : result = .failed := by cases result <;> simp_all [TxResult.applied]
      simp only [State.claim, hres, Bool.false_eq_true, if_false] at hrow ⊢
      rcases mem_claims_claim hr with hr | ⟨-, r', hr', -⟩
      · exact h k r row hr hrow
      simp [hok it job hitem] at hr'
    | true =>
      simp only [State.claim, hres, if_true] at hrow ⊢
      rcases mem_claims_claim hr with hr | ⟨rfl, r', hr', rfl⟩
      · by_cases heq : r.id = it.id
        · -- an older claim of the same item falls behind
          rw [heq, update_self, some.injEq] at hrow
          have hle := (h k r it hr (by rw [heq, hid]; exact hitem)).1
          rw [← hrow, hepoch]
          exact ⟨by omega, fun hcontra => by omega⟩
        rw [update_of_ne heq] at hrow ⊢
        exact h k r row hr hrow
      obtain ⟨hrid, -, hrepoch, -⟩ := claim_run hr'
      have hkey : r'.key.id = it.id := hrid
      rw [hkey, update_self, some.injEq] at hrow
      rw [← hrow, hepoch, hkey, update_self, hr']
      exact ⟨le_of_eq hrepoch, fun _ => rfl⟩
  | wrote hrun hallows hitem hguard hkey =>
    exact h.update hitem (Write.set_epoch ..) rfl rfl (claims_setRun hrun hkey)
  | reported hrun => exact fun k r it hr hit => h k r it (claims_of_setRun hr hrun rfl) hit
  | settled hrun hitem hguard =>
    exact h.update hitem (FailWrite.set_epoch ..) rfl rfl (claims_setRun hrun rfl)
  | operated hitem hop hs' =>
    subst hs'
    exact h.update hitem hop.epoch rfl rfl rfl

/-! ## Completing -/

/-- `done` is where a queue or cron item that completed stays. -/
def CompletedOnce (s : State) : Prop :=
  ∀ id, s.log.count (.complete id) = 0 ∨
    ∃ it, s.items id = some it ∧
      (it.kind = .singleton ∨ it.state = .done ∧ s.log.count (.complete id) = 1)

/-- Rewriting a row that is not done keeps the count, unless it is the completing one. -/
theorem CompletedOnce.update (h : CompletedOnce s) {id : String} {it' : Item}
    {entries : List Entry} (hitem : s.items id = some it) (hopen : it.state ≠ .done)
    (hkind : it'.kind = it.kind) (hentries : ∀ id', entries.count (.complete id') = 0 ∨
      id' = id ∧ entries.count (.complete id') = 1 ∧ (it'.kind = .singleton ∨ it'.state = .done))
    (hitems : s'.items = update s.items id (some it'))
    (hlog : s'.log = s.log ++ entries) : CompletedOnce s' := by
  intro id'
  rw [hlog, List.count_append]
  by_cases heq : id' = id
  · subst heq
    have hitem' : s'.items id' = some it' := by rw [hitems, update_self]
    have hzero : s.log.count (.complete id') = 0 ∨ it.kind = .singleton := by
      rcases h id' with hzero | ⟨row, hrow, hrow'⟩
      · exact .inl hzero
      obtain rfl : row = it := by rw [hitem] at hrow; simpa using hrow.symm
      rcases hrow' with hsingle | ⟨hdone, -⟩
      · exact .inr hsingle
      exact absurd hdone hopen
    rcases hzero with hzero | hsingle
    · rw [hzero, Nat.zero_add]
      rcases hentries id' with hnone | ⟨-, hone, hend⟩
      · exact .inl hnone
      exact .inr ⟨it', hitem', hend.imp id fun hdone => ⟨hdone, hone⟩⟩
    exact .inr ⟨it', hitem', .inl (hkind.trans hsingle)⟩
  have hnone : entries.count (.complete id') = 0 := by
    rcases hentries id' with hnone | ⟨hcontra, -, -⟩
    · exact hnone
    exact absurd hcontra heq
  rw [hnone, Nat.add_zero, hitems, update_of_ne heq]
  exact h id'

theorem completedOnce_step (hissued : Issued cfg s) (h : CompletedOnce s)
    (hstep : step cfg s a = some s') : CompletedOnce s' := by
  cases step_moves hstep with
  | quiet hitems hlatest hlog hclaims _ =>
    intro id
    rw [hlog, hitems]
    exact h id
  | added hnone hfresh =>
    rename_i it
    intro id
    refine (h id).imp_right ?_
    rintro ⟨row, hrow, hend⟩
    have hne : id ≠ it.id := fun heq => by simp [heq, hnone] at hrow
    exact ⟨row, by simp [State.put, update_of_ne hne, hrow], hend⟩
  | claimed hitem hjob hclaim =>
    rename_i holder id result it job
    have hid : it.id = id := hissued.key id it hitem
    subst hid
    have hopen : it.state ≠ .done := by
      intro hdone
      simp [Item.claimable, hdone] at hclaim
    cases hres : result.applied with
    | false =>
      intro id
      simp only [State.claim, hres, Bool.false_eq_true, if_false]
      exact h id
    | true =>
      have hkind := (claim_keeps s.now cfg.lease s.epoch holder job it).kind
      have hlog : (s.claim cfg holder job it result).log = s.log ++ [] := by simp [State.claim]
      exact h.update hitem hopen hkind (fun _ => .inl rfl) (by simp [State.claim, hres]) hlog
  | wrote hrun hallows hitem hguard hkey =>
    rename_i k rs w result it r'
    obtain ⟨-, hrunning, -⟩ := guard_iff.mp hguard
    have hkind := (Write.keeps_set s.now cfg.lease rs.run w it).kind
    refine h.update hitem (by simp [hrunning]) hkind ?_ rfl rfl
    intro id'
    cases w with
    | complete op =>
      by_cases heq : id' = rs.run.id
      · refine .inr ⟨heq, by simp [Write.entries, heq], ?_⟩
        by_cases hsingle : rs.run.kind = .singleton
        · obtain ⟨row, hrow, hrk, -⟩ := hissued.of_run hrun
          obtain rfl : row = it := by
            rw [hitem] at hrow
            simpa using hrow.symm
          exact .inl (by rw [hkind, hrk]; exact hsingle)
        exact .inr (by simp [Write.set, hsingle])
      exact .inl (by simp [Write.entries, Ne.symm heq])
    | _ => exact .inl (by simp [Write.entries])
  | reported hrun => exact h
  | settled hrun hitem hguard =>
    rename_i k r cause w result it
    obtain ⟨-, hrunning, -⟩ := guard_iff.mp hguard
    exact h.update hitem (by simp [hrunning])
      (FailWrite.keeps_set s.now r cause w it).kind
      (fun _ => .inl (by simp)) rfl rfl
  | operated hitem hop hs' =>
    refine h.update hitem ?_ hop.keeps.kind (fun _ => .inl ?_) (hs' ▸ rfl) (by rw [hs'])
    · intro hdone
      cases hop <;>
        simp_all [Item.requeueable, Item.resolvable, Item.holdable]
    cases hop <;> simp

/-! ## Whole runs -/

theorem latest_run {epoch : Epoch} {as : List Action}
    (hmeets : Meets (step cfg) (HandsOutCommitted cfg) (init epoch) as)
    (hrun : run (step cfg) (init epoch) as = some s) : Issued cfg s ∧ Latest s :=
  run_invariant (P := fun s => Issued cfg s ∧ Latest s)
    (fun _ _ _ h hok hstep => ⟨issued_step h.1 hstep, latest_step h.1 h.2 hok hstep⟩)
    ⟨issued_init epoch, latest_init epoch⟩ hmeets hrun

theorem completedOnce_run {epoch : Epoch} {as : List Action}
    (hrun : run (step cfg) (init epoch) as = some s) : CompletedOnce s :=
  (run_invariant_of_step (P := fun s => Issued cfg s ∧ CompletedOnce s)
    (fun _ _ _ h hstep => ⟨issued_step h.1 hstep, completedOnce_step h.1 h.2 hstep⟩)
    ⟨issued_init epoch, fun _ => .inl rfl⟩ hrun).2

/-- A `Run` that passes the guard holds the latest claim. -/
theorem Latest.fenced (h : Latest s) (hrun : s.runs[k]? = some rs)
    (hexec : (s.exec rs.run id []).isSome) : Fenced s k := by
  obtain ⟨t, ht⟩ := isSome_iff_exists.mp hexec
  obtain ⟨it, hitem, hguard, -⟩ := exec_eq_some.mp ht
  obtain ⟨-, hrunning, hepoch, hclaim, hcurrent⟩ := guard_iff.mp hguard
  have hlatest := (h.of_run hrun hitem).2 hepoch.symm
  exact ⟨rs, it, hrun, hitem, hrunning, hlatest, by rw [hclaim, hcurrent]⟩

theorem Latest.fenced_of_committedBy (h : Latest s) (hby : committedBy s a = some k) :
    Fenced s k := by
  cases a with
  | write j w result =>
    simp only [committedBy] at hby
    split at hby
    next rs hrun =>
      split at hby
      next hok =>
        obtain rfl : j = k := by simpa using hby
        exact h.fenced hrun hok.2.2
      simp at hby
    simp at hby
  | settle j result =>
    simp only [committedBy] at hby
    split at hby
    next r cause w hrun =>
      split at hby
      next hok =>
        obtain rfl : j = k := by simpa using hby
        exact h.fenced hrun hok.2
      simp at hby
    simp at hby
  | _ => simp [committedBy] at hby

/-- **Fencing.**  As long as no failed claim handed out its `Run`, every guarded update that
commits is the latest claim's, on a running item, under the database epoch of the claim;
and whatever happened, a queue or cron item completed at most once. -/
theorem fenced_and_completed_once (cfg : Config) (epoch : Epoch) (as : List Action) (s : State)
    (hrun : run (step cfg) (init epoch) as = some s) :
    (Meets (step cfg) (HandsOutCommitted cfg) (init epoch) as →
      ∀ a k, committedBy s a = some k → Fenced s k) ∧
    ∀ id it, s.items id = some it → it.kind ≠ .singleton → s.log.count (.complete id) ≤ 1 := by
  refine ⟨fun hmeets a k hby => (latest_run hmeets hrun).2.fenced_of_committedBy hby, ?_⟩
  intro id it hitem hkind
  rcases completedOnce_run hrun id with hzero | ⟨row, hrow, hsingle | ⟨-, hone⟩⟩
  · omega
  · obtain rfl : row = it := by rw [hitem] at hrow; simpa using hrow.symm
    exact absurd hsingle hkind
  omega

def mailConfig : Config :=
  { jobs := fun name =>
      if name = "mail" then
        some { name := "mail", kind := .queue, effect := .localOnly, maxAttempts := 3,
               maxWait := 0, interval := 0 }
      else none
    lease := 30000000 }

/-- The lease runs out, and another worker takes the item over. -/
theorem fenced_and_completed_once_mail :
    ∃ s, run (step mailConfig) (init ⟨1, 1⟩) [.enqueue "x" "mail" "" 0,
        .claim "a" "x" .committed, .tick 30000001, .claim "b" "x" .committed] = some s ∧
      committedBy s (.write 0 (.complete "") .committed) = none ∧
      committedBy s (.write 1 (.complete "") .committed) = some 1 ∧ Fenced s 1 := by
  refine ⟨_, rfl, by decide, by decide, ?_⟩
  refine (fenced_and_completed_once mailConfig ⟨1, 1⟩ [.enqueue "x" "mail" "" 0,
    .claim "a" "x" .committed, .tick 30000001, .claim "b" "x" .committed] _ rfl).1 ?_
    (.write 1 (.complete "") .committed) 1 (by decide)
  iterate 4 refine .cons trivial rfl ?_
  trivial

/-- The first claim's transaction fails and its `Run` is worked on all the same; the second
claim takes the same epoch, and the first `Run` completes the item under it. -/
theorem not_fenced_of_failed_claim :
    ∃ s, run (step mailConfig) (init ⟨1, 1⟩)
        [.enqueue "x" "mail" "" 0, .claim "a" "x" .failed, .claim "b" "x" .committed] = some s ∧
      committedBy s (.write 0 (.complete "") .committed) = some 0 ∧ ¬ Fenced s 0 := by
  refine ⟨_, rfl, by decide, ?_⟩
  rintro ⟨rs, it, hrs, -, -, hlatest, -⟩
  obtain rfl := some.inj hrs
  exact absurd hlatest (by decide)

end BeSdk.Work

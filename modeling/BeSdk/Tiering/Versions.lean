import BeSdk.Tiering.Moves

/-!
# Generations and versions

What the publish rule gives in every run, however the processes interleave.  A claim raises the
unit's generation, and a publish needs it: of the processes that hold a claim, the one with the
unit's generation is the only one that can publish (`VersionsOk.unique`), and the unit is still at
the version it claimed (`WorkOk.base`).  So versions are published one after the other, each once,
and the unit's version is that of its last manifest.

`VersionsOk` says nothing of what the copies hold.
-/

namespace BeSdk.Tiering.Copies

open Runs Function Tables List Option

variable {T D : Type} {cl : Class T D} {s s' : System T D} {w : Nat}

def Phase.work : Phase T D → Option (Job × Claim D)
  | .claimed job c | .fetching (.rewrite job c) _ | .copying job c _ _ _ | .verifying job c _ _ _
  | .publishing job c _ => some (job, c)
  | _ => none

/-- What holds of a process's claim: while its generation is the unit's, nothing was published. -/
structure WorkOk (current version : Nat) (job : Job) (c : Claim D) : Prop where
  generation : c.generation ≤ current
  base : c.generation = current → c.base = version
  behind : c.base ≤ version
  claims : job.claims c.state = true
  state : c.state = .sealed ∨ 1 ≤ c.base
  digest : c.state = .sealed → c.digest = c.was

structure VersionsOk (s : System T D) : Prop where
  manifests : ∀ v, (s.manifests v).isSome ↔ 1 ≤ v ∧ v ≤ s.manifestVersion
  state : s.state = .sealed ∧ s.manifestVersion = 0 ∨
    (s.state = .published ∨ s.state = .released) ∧ 1 ≤ s.manifestVersion
  online : s.manifestVersion = 0 → s.route = .online
  current : ∀ m, s.manifests s.manifestVersion = some m → m.route = s.route ∧ m.digest = s.digest
  increasing : s.published.Pairwise (· > ·)
  last : ∀ v ∈ s.published, v ≤ s.manifestVersion
  works : ∀ w job c, (s.procs w).work = some (job, c) → WorkOk s.generation s.manifestVersion job c
  generations : ∀ v m, s.manifests v = some m → m.generation ≤ s.generation ∧
    ∀ w job c, (s.procs w).work = some (job, c) → c.generation ≠ m.generation
  unique : ∀ w w' job job' c c', (s.procs w).work = some (job, c) →
    (s.procs w').work = some (job', c') → c.generation = c'.generation → w = w'
  olds : ∀ w olds, s.procs w = .releasing olds → ∀ o ∈ olds, o.version < s.manifestVersion ∧
    ∃ m, s.manifests o.version = some m ∧ m.route = o.route ∧ m.generation = o.generation

section
variable (h : VersionsOk s)
include h

theorem VersionsOk.sealed_iff : s.state = .sealed ↔ s.manifestVersion = 0 := by
  rcases h.state with ⟨hstate, hversion⟩ | ⟨hstate | hstate, hversion⟩
  · exact ⟨fun _ => hversion, fun _ => hstate⟩
  · rw [hstate]
    exact ⟨by simp, fun hzero => by omega⟩
  rw [hstate]
  exact ⟨by simp, fun hzero => by omega⟩

theorem VersionsOk.exists_manifest {v : Nat} (hpos : 1 ≤ v)
    (hle : v ≤ s.manifestVersion) : ∃ m, s.manifests v = some m :=
  isSome_iff_exists.1 ((h.manifests v).2 ⟨hpos, hle⟩)

theorem VersionsOk.goTo (w : Nat) (phase : Phase T D) (hwork : ∀ job c, phase.work = some (job, c) →
      WorkOk s.generation s.manifestVersion job c ∧
      (∀ w' job' c', (s.procs w').work = some (job', c') → c'.generation = c.generation → w' = w) ∧
      ∀ v m, s.manifests v = some m → c.generation ≠ m.generation)
    (holds : ∀ olds, phase = .releasing olds → ∀ o ∈ olds, o.version < s.manifestVersion ∧
      ∃ m, s.manifests o.version = some m ∧ m.route = o.route ∧ m.generation = o.generation) :
    VersionsOk (s.goTo w phase) := by
  have hcases := update_cases s.procs w phase
  refine { h with works := ?_, generations := ?_, unique := ?_, olds := ?_ }
  · intro w₁ job c hw₁
    rcases hcases w₁ with ⟨-, hself⟩ | ⟨-, hother⟩
    · exact (hwork job c (hself ▸ hw₁)).1
    exact h.works w₁ job c (hother ▸ hw₁)
  · intro v m hm
    refine ⟨(h.generations v m hm).1, fun w₁ job c hw₁ => ?_⟩
    rcases hcases w₁ with ⟨-, hself⟩ | ⟨-, hother⟩
    · exact (hwork job c (hself ▸ hw₁)).2.2 v m hm
    exact (h.generations v m hm).2 w₁ job c (hother ▸ hw₁)
  · intro w₁ w₂ job₁ job₂ c₁ c₂ hw₁ hw₂ hsame
    rcases hcases w₁ with ⟨rfl, hself₁⟩ | ⟨-, hother₁⟩ <;>
      rcases hcases w₂ with ⟨rfl, hself₂⟩ | ⟨-, hother₂⟩
    · rfl
    · exact ((hwork job₁ c₁ (hself₁ ▸ hw₁)).2.1 w₂ job₂ c₂ (hother₂ ▸ hw₂) hsame.symm).symm
    · exact (hwork job₂ c₂ (hself₂ ▸ hw₂)).2.1 w₁ job₁ c₁ (hother₁ ▸ hw₁) hsame
    exact h.unique w₁ w₂ job₁ job₂ c₁ c₂ (hother₁ ▸ hw₁) (hother₂ ▸ hw₂) hsame
  intro w₁ olds hw₁
  rcases hcases w₁ with ⟨-, hself⟩ | ⟨-, hother⟩
  · exact holds olds (hself ▸ hw₁)
  exact h.olds w₁ olds (hother ▸ hw₁)

theorem VersionsOk.leave (w : Nat) (phase : Phase T D) (hnone : phase.work = none)
    (holds : ∀ olds, phase ≠ .releasing olds) : VersionsOk (s.goTo w phase) := by
  refine h.goTo w phase ?_ fun olds hphase => absurd hphase (holds olds)
  intro job c hwork
  rw [hnone] at hwork
  cases hwork

end

variable {job : Job} {c : Claim D}

/-- A process goes on under its claim, whose digest is now that of the content it writes. -/
theorem VersionsOk.goOn (h : VersionsOk s) (w : Nat) (phase : Phase T D)
    (digest : D) (hwork : (s.procs w).work = some (job, c))
    (hphase : phase.work = some (job, { c with digest := digest }))
    (hdigest : c.state = .sealed → digest = c.digest) (holds : ∀ olds, phase ≠ .releasing olds) :
    VersionsOk (s.goTo w phase) := by
  refine h.goTo w phase ?_ fun olds hreleasing => absurd hreleasing (holds olds)
  intro job' c' hwork'
  cases hphase.symm.trans hwork'
  have hok := h.works w job c hwork
  refine ⟨{ hok with digest := fun hsealed => ?_ }, fun w₁ job₁ c₁ hw₁ hsame => ?_, ?_⟩
  · exact (hdigest hsealed).trans (hok.digest hsealed)
  · exact h.unique w₁ w job₁ job c₁ c hw₁ hwork hsame
  exact fun v m hm => (h.generations v m hm).2 w job c hwork

/-- A claim raises the generation, so every other claim is out of date. -/
theorem VersionsOk.claimed (h : VersionsOk s) (w : Nat)
    (hjob : job.claims s.state = true) : VersionsOk (s.claimed w job) := by
  have hraised : VersionsOk
    { s with generation := s.generation + 1, claimEpoch := some s.epoch } := by
    refine { h with works := fun w' job' c' hwork => ?_, generations := fun v m hm => ?_ }
    · have hok := h.works w' job' c' hwork
      refine { hok with generation := Nat.le_succ_of_le hok.generation, base := fun hsame => ?_ }
      have := hok.generation
      simp only at hsame
      omega
    obtain ⟨hle, hne⟩ := h.generations v m hm
    exact ⟨Nat.le_succ_of_le hle, hne⟩
  refine hraised.goTo w _ ?_ nofun
  rintro _ _ ⟨⟩
  have hstate : s.state = .sealed ∨ 1 ≤ s.manifestVersion := h.state.imp And.left And.right
  refine ⟨⟨Nat.le_refl _, fun _ => rfl, Nat.le_refl _, hjob, hstate, fun _ => rfl⟩, ?_, ?_⟩
  · intro w' job' c' hwork hsame
    have := (h.works w' job' c' hwork).generation
    simp only at hsame
    omega
  intro v m hm hsame
  have := (h.generations v m hm).1
  simp only at hsame
  omega

/-- **A publish**, by the one process with the unit's generation. -/
theorem VersionsOk.publishVersion (h : VersionsOk s) (c : Claim D) (route : Route)
    (hnone : ∀ w job c', (s.procs w).work = some (job, c') → c'.generation ≠ s.generation)
    (hcurrent : s.generation = c.generation) (hbase : c.base = s.manifestVersion)
    (hdigest : s.state = .sealed → s.digest = c.digest) :
    VersionsOk (s.publishVersion c route) := by
  have hversion : c.version = s.manifestVersion + 1 := by rw [Claim.version, hbase]
  have hcases := update_cases s.manifests c.version
    (some { route := route, generation := c.generation, digest := c.digest })
  constructor
  case manifests =>
    intro v
    show (update s.manifests c.version _ v).isSome ↔ 1 ≤ v ∧ v ≤ c.version
    rcases hcases v with ⟨rfl, hself⟩ | ⟨hne, hother⟩
    · rw [hself, hversion]
      simp
    rw [hother, h.manifests v]
    omega
  case state =>
    refine .inr ⟨?_, by show 1 ≤ c.version; omega⟩
    show (if s.state = .sealed then UnitState.published else s.state) = .published ∨
      (if s.state = .sealed then UnitState.published else s.state) = .released
    rcases h.state with ⟨hstate, -⟩ | ⟨hstate | hstate, -⟩ <;> simp [hstate]
  case online =>
    intro hzero
    have hzero : c.version = 0 := hzero
    omega
  case current =>
    intro m hm
    rcases hcases c.version with ⟨-, hself⟩ | ⟨hne, -⟩
    · cases hself.symm.trans hm
      refine ⟨rfl, ?_⟩
      show c.digest = if s.state = .sealed then s.digest else c.digest
      split
      · next hsealed => exact (hdigest hsealed).symm
      rfl
    exact absurd rfl hne
  case increasing =>
    refine pairwise_cons.2 ⟨fun v hv => ?_, h.increasing⟩
    have := h.last v hv
    omega
  case last =>
    intro v hv
    show v ≤ c.version
    rcases mem_cons.1 hv with rfl | hv
    · exact Nat.le_refl _
    have := h.last v hv
    omega
  case works =>
    intro w job c' hwork
    have hok := h.works w job c' hwork
    refine { hok with base := fun hsame => absurd hsame (hnone w job c' hwork), behind := ?_ }
    exact hok.behind.trans (by show _ ≤ c.version; omega)
  case generations =>
    intro v m hm
    rcases update_eq_some hm with ⟨-, rfl⟩ | ⟨-, hm⟩
    · exact ⟨hcurrent.ge, fun w job c' hwork hsame => hnone w job c' hwork
        (hsame.trans hcurrent.symm)⟩
    exact h.generations v m hm
  case unique => exact h.unique
  case olds =>
    intro w olds hphase o ho
    obtain ⟨hlt, m, hm, hroute⟩ := h.olds w olds hphase o ho
    refine ⟨by show o.version < c.version; omega, m, ?_, hroute⟩
    rcases hcases o.version with ⟨heq, -⟩ | ⟨-, hother⟩
    · omega
    exact hother.trans hm

/-- The versions a release lists are replaced ones. -/
theorem mem_olds {o : Old} : o ∈ s.olds ↔ o.version < s.manifestVersion ∧
    ∃ m, s.manifests o.version = some m ∧ m.superseded = false ∧ m.route = o.route ∧
      m.generation = o.generation := by
  simp only [System.olds, mem_filterMap, mem_range]
  constructor
  · rintro ⟨v, hv, hsome⟩
    cases hm : s.manifests v with
    | none => simp [hm] at hsome
    | some m =>
      simp only [hm, ite_none_left_eq_some, Option.some.injEq] at hsome
      obtain ⟨hsuperseded, rfl⟩ := hsome
      exact ⟨hv, m, hm, by simpa using hsuperseded, rfl, rfl⟩
  rintro ⟨hlt, m, hm, hsuperseded, hroute, hgeneration⟩
  refine ⟨o.version, hlt, ?_⟩
  simp [hm, hsuperseded, hroute, hgeneration]

theorem VersionsOk.releaseNext (h : VersionsOk s) (w : Nat) (olds : List Old)
    (holds : ∀ o ∈ olds, o.version < s.manifestVersion ∧
      ∃ m, s.manifests o.version = some m ∧ m.route = o.route ∧ m.generation = o.generation) :
    VersionsOk (s.releaseNext w olds) := by
  refine h.goTo w _ ?_ ?_
  · intro job c hwork
    split at hwork <;> cases hwork
  intro olds' hphase
  split at hphase <;> cases hphase
  exact holds

/-- A manifest that is superseded stays in every other respect. -/
theorem releaseRows_manifests (s : System T D) (o : Old) (v : Nat) : (s.releaseRows o).manifests v =
      (s.manifests v).map fun m => if v = o.version then { m with superseded := true } else m := by
  show update s.manifests o.version _ v = _
  by_cases hv : v = o.version
  · subst hv
    simp
  rw [update_of_ne hv]
  simp [hv]

theorem releaseRows_eq_some {o : Old} {v : Nat} {m' : Manifest D}
    (hm' : (s.releaseRows o).manifests v = some m') : ∃ m, s.manifests v = some m ∧
      m'.route = m.route ∧ m'.generation = m.generation ∧ m'.digest = m.digest := by
  rw [releaseRows_manifests, map_eq_some_iff] at hm'
  obtain ⟨m, hm, rfl⟩ := hm'
  refine ⟨m, hm, ?_⟩
  split <;> exact ⟨rfl, rfl, rfl⟩

theorem VersionsOk.releaseRows (h : VersionsOk s) (o : Old) : VersionsOk (s.releaseRows o) := by
  refine { h with manifests := ?_, current := ?_, generations := ?_, olds := ?_ }
  · intro v
    rw [releaseRows_manifests, isSome_map]
    exact h.manifests v
  · intro m' hm'
    obtain ⟨m, hm, hroute, -, hdigest⟩ := releaseRows_eq_some hm'
    rw [hroute, hdigest]
    exact h.current m hm
  · intro v m' hm'
    obtain ⟨m, hm, -, hgeneration, -⟩ := releaseRows_eq_some hm'
    rw [hgeneration]
    exact h.generations v m hm
  intro w olds hphase o' ho'
  obtain ⟨hlt, m, hm, hroute, hgeneration⟩ := h.olds w olds hphase o' ho'
  refine ⟨hlt, _, by rw [releaseRows_manifests, hm]; rfl, ?_⟩
  split <;> exact ⟨hroute, hgeneration⟩

/-- What a publish that is not refused has found. -/
theorem unchanged_iff [DecidableEq D] : s.unchanged c = true ↔ s.state = c.state ∧
    s.manifestVersion = c.base ∧ s.generation = c.generation ∧ s.claimEpoch = some c.epoch ∧
    s.epoch = c.epoch ∧ s.digest = c.was := by
  simp [System.unchanged]

/-- With the publishing process out of the way no claim has the unit's generation. -/
theorem VersionsOk.alone (h : VersionsOk s)
    (hwork : (s.procs w).work = some (job, c)) (hcurrent : s.generation = c.generation) :
    ∀ w' job' c', ((s.goTo w .idle).procs w').work = some (job', c') →
      c'.generation ≠ s.generation := by
  intro w' job' c' hwork' hsame
  rcases update_cases s.procs w .idle w' with ⟨-, hself⟩ | ⟨hne, hother⟩
  · rw [show (s.goTo w .idle).procs w' = .idle from hself] at hwork'
    cases hwork'
  exact hne (h.unique w' w job' job c' c (hother ▸ hwork') hwork (hsame.trans hcurrent))

theorem versionsOk_init (content : Content T) : VersionsOk (.init cl content) where
  manifests := fun v => by simp [System.init]; omega
  state := .inl ⟨rfl, rfl⟩
  online := fun _ => rfl
  current := nofun
  increasing := List.Pairwise.nil
  last := nofun
  works := nofun
  generations := nofun
  unique := nofun
  olds := nofun

variable [DecidableEq T]

/-- A process moves, and neither claims nor releases. -/
theorem VersionsOk.moves (h : VersionsOk s) {phase : Phase T D}
    (hmove : Moves cl s (s.procs w) phase) (hclaimed : ∀ job c, phase ≠ .claimed job c)
    (hreleasing : ∀ olds, phase ≠ .releasing olds) : VersionsOk (s.goTo w phase) := by
  -- under the same claim
  have hon : ∀ job c, (s.procs w).work = some (job, c) → phase.work = some (job, c) →
      VersionsOk (s.goTo w phase) :=
    fun job c hwork hsame => h.goOn w phase c.digest hwork hsame (fun _ => rfl) hreleasing
  -- with the digest of what was read: the unit is not sealed, as the job needs a copy
  have hread : ∀ job c digest, (s.procs w).work = some (job, c) →
      phase.work = some (job, { c with digest := digest }) →
      job.claims .sealed = false → VersionsOk (s.goTo w phase) := by
    intro job c digest hwork hphase hjob
    refine h.goOn w phase digest hwork hphase (fun hsealed => ?_) hreleasing
    have hclaims := (h.works w job c hwork).claims
    rw [hsealed, hjob] at hclaims
    cases hclaims
  generalize hfrom : s.procs w = before at hmove hon hread
  cases hmove with
  | claim job c => exact absurd rfl (hclaimed job c)
  | release phase olds => exact absurd rfl (hreleasing olds)
  | more use f f' =>
    cases use with
    | rewrite job c => exact hon job c rfl rfl
    | _ => exact h.leave w _ rfl hreleasing
  | erase root c f content => exact hread (.erase root) c _ rfl rfl rfl
  | reroute route c f content => exact hread (.reroute route) c _ rfl rfl rfl
  | load route c => exact hon _ c rfl rfl
  | find job c | copy job c | check job c | verify job c | accept job c => exact hon job c rfl rfl
  | _ => exact h.leave w _ rfl hreleasing

variable [DecidableEq D] {route : Route}

omit [DecidableEq T] in
theorem VersionsOk.publish (h : VersionsOk s) (hphase : s.procs w = .publishing job c route)
    (hunchanged : s.unchanged c = true) : VersionsOk ((s.publishVersion c route).goTo w .idle) := by
  have hwork := congrArg Phase.work hphase
  obtain ⟨hstate, hversion, hgeneration, -, -, hwas⟩ := unchanged_iff.1 hunchanged
  have hidle : VersionsOk (s.goTo w .idle) := h.leave w _ rfl nofun
  refine hidle.publishVersion c route (h.alone hwork hgeneration) hgeneration hversion.symm ?_
  intro hsealed
  have hsealed : c.state = .sealed := hstate.symm.trans hsealed
  exact hwas.trans ((h.works w job c hwork).digest hsealed).symm

theorem step_versionsOk {a : Action T} (h : VersionsOk s) (hstep : step cl s a = some s') :
    VersionsOk s' := by
  cases step_does hstep with
  | goTo hmove hclaimed hreleasing => exact h.moves hmove hclaimed hreleasing
  | claim w job hidle hjob => exact h.claimed w hjob
  | copyRows w job c content t todo hphase =>
    exact { h.goOn w (.copying job c .postgres content todo) c.digest (hphase ▸ rfl) rfl
      (fun _ => rfl) nofun with }
  | put w job c content t todo hphase =>
    exact { h.goOn w (.copying job c .object content todo) c.digest (hphase ▸ rfl) rfl
      (fun _ => rfl) nofun with }
  | publish w job c route hphase hunchanged => exact h.publish hphase hunchanged
  | erase w root c route hphase hunchanged => exact { h.publish hphase hunchanged with }
  | eraseSealed root hsealed =>
    refine { h with current := fun m hm => ?_ }
    have hm : s.manifests s.manifestVersion = some m := hm
    have hpos := (h.manifests s.manifestVersion).1 (hm ▸ rfl)
    have := h.sealed_iff.1 hsealed
    omega
  | thawWrite w | cleanRows w => exact { h.leave w .idle rfl nofun with }
  | released =>
    refine { h with state := ?_ }
    rcases h.state with ⟨hstate, hversion⟩ | ⟨hstate | hstate, hversion⟩
    · exact .inl ⟨by simp [hstate], hversion⟩
    · exact .inr ⟨by simp [hstate], hversion⟩
    exact .inr ⟨by simp [hstate], hversion⟩
  | releaseOld w =>
    refine h.releaseNext w _ fun o ho => ?_
    split at ho
    · obtain ⟨hlt, m, hm, -, hroute, hgeneration⟩ := mem_olds.1 ho
      exact ⟨hlt, m, hm, hroute, hgeneration⟩
    cases ho
  | releaseRows w o olds hphase =>
    have hreleased := h.releaseRows o
    exact hreleased.releaseNext w olds fun o' ho' =>
      hreleased.olds w _ hphase o' (mem_cons_of_mem _ ho')
  | _ => exact { h with }

end BeSdk.Tiering.Copies

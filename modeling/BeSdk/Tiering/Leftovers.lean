import BeSdk.Tiering.Erasures

/-!
# What interrupted copies leave

A transfer, a route change or an erasure that stops leaves the rows and objects it has copied.
ReleaseOld deletes the rows and objects of the versions below the unit's; CleanOrphans deletes the
objects no manifest names, by generation and version, and the warm rows of versions no manifest
names, except for the next version, which a process may be writing.  Warm rows are by version only:
what a copy to the warm route leaves under a number that is then published on the object route
belongs to a named version, and is never deleted; nor are the rows of the next version of a sealed
unit.

So an erasure is complete, after both clean-ups, if it commits while no other attempt's rows are
left under the number of the next version (`NothingLeft`), and warm rows are copied only under the
current claim (`nothing_is_left`).  `LeftOk` says where the rows and objects of a unit can be: no
rows ahead of the next version, none left of a superseded one, and an object of a named copy only
on the object route.
-/

namespace BeSdk.Tiering.Copies

open Runs Function Tables List Option

variable {T D : Type} {cl : Class T D} {keyed : String → Prop} {s s' : System T D} {w : Nat}
  {a : Action T}

/-- An erasure commits while the next version has no rows: none at all in a sealed unit, none from
another attempt where the erasure's own copy is not on the warm route. -/
def NothingLeft (s : System T D) : Action T → Prop
  | .eraseSealed _ => ∀ t, s.warm (s.manifestVersion + 1) t = []
  | .publish w => ∀ root c route, s.procs w = .publishing (.erase root) c route →
      route ≠ .postgres → ∀ t, s.warm c.version t = []
  | _ => True

def Phase.toObjects : Phase T D → Bool
  | .copying _ _ route _ _ | .verifying _ _ route _ _ | .publishing _ _ route => route = .object
  | _ => false

structure LeftOk (s : System T D) : Prop where
  ahead : ∀ v t, v = 0 ∨ s.manifestVersion + 1 < v → s.warm v t = []
  superseded : ∀ v m, s.manifests v = some m → m.superseded = true → v < s.manifestVersion ∧
    (∀ t, s.warm v t = []) ∧ ∀ t, s.objects ⟨m.generation, v, t⟩ = none
  routes : ∀ key m, s.objects key ≠ none → s.manifests key.version = some m →
    m.generation = key.generation → m.route = .object
  own : ∀ w job c, (s.procs w).work = some (job, c) → (s.procs w).toObjects = false →
    ∀ key, key.generation = c.generation → s.objects key = none
  known : ∀ key, s.objects key ≠ none → key.generation ≤ s.generation
  unthawed : s.manifestVersion = 0 → ∀ t, s.thawRows t = []
  thawing : ∀ w version content, s.procs w = .thawing version content → 1 ≤ s.manifestVersion

variable [DecidableEq T]

/-- A process that does not copy to the object route did not before, or has just claimed. -/
theorem Moves.own {old new : Phase T D} (hmove : Moves cl s old new) {job : Job} {c : Claim D}
    (hwork : new.work = some (job, c)) (hroute : new.toObjects = false) :
    c.generation = s.generation + 1 ∨ old.toObjects = false ∧
      ∃ job₀ c₀, old.work = some (job₀, c₀) ∧ c₀.generation = c.generation := by
  cases hmove with
  | claim job c hgeneration =>
    cases hwork
    exact .inl hgeneration
  | more use f f' hfetch => exact .inr ⟨rfl, job, c, by cases use <;> exact hwork, rfl⟩
  | load | find | erase | reroute => cases hwork; exact .inr ⟨rfl, _, _, rfl, rfl⟩
  | copy | check | verify | accept => cases hwork; exact .inr ⟨hroute, _, _, rfl, rfl⟩
  | _ => cases hwork

variable [DecidableEq D]

/-- A superseded manifest was so before, or its rows and objects have just gone. -/
theorem LeftOk.superseded_step (h : LeftOk s) (hversions : VersionsOk s)
    (hstep : step cl s a = some s') {v : Nat} {m' : Manifest D} (hm' : s'.manifests v = some m')
    (hsuperseded : m'.superseded = true) :
    ∃ m, s.manifests v = some m ∧ m'.generation = m.generation ∧ v < s.manifestVersion ∧
      ((∀ t, s.warm v t = []) ∨ ∀ t, s'.warm v t = []) ∧
      ∀ t, s.objects ⟨m.generation, v, t⟩ = none := by
  have hbefore : s.manifests v = some m' → ∃ m, s.manifests v = some m ∧
      m'.generation = m.generation ∧ v < s.manifestVersion ∧
      ((∀ t, s.warm v t = []) ∨ ∀ t, s'.warm v t = []) ∧
      ∀ t, s.objects ⟨m.generation, v, t⟩ = none := by
    intro hm
    obtain ⟨hlt, hwarm, hobjects⟩ := h.superseded v m' hm hsuperseded
    exact ⟨m', hm, rfl, hlt, .inl hwarm, hobjects⟩
  cases step_does hstep with
  | publish w job c route hphase hunchanged | erase w root c route hphase hunchanged =>
    rcases update_eq_some hm' with ⟨-, rfl⟩ | ⟨-, hm⟩
    · cases hsuperseded
    exact hbefore hm
  | releaseRows w o olds hphase hgone =>
    have hm' : (s.releaseRows o).manifests v = some m' := hm'
    rw [releaseRows_manifests, map_eq_some_iff] at hm'
    obtain ⟨m, hm, rfl⟩ := hm'
    by_cases hv : v = o.version
    · subst hv
      obtain ⟨hlt, m₀, hm₀, hroute, hgeneration⟩ := hversions.olds w _ hphase o (mem_cons_self ..)
      cases hm₀.symm.trans hm
      refine ⟨m, hm, by rw [if_pos rfl], hlt, .inr fun t => ?_, fun t => ?_⟩
      · exact congrFun (update_self o.version (fun _ => []) s.warm) t
      by_contra hthere
      have hobject : m.route = .object := h.routes _ m hthere hm rfl
      rw [hgeneration] at hthere
      exact hthere (hgone (hroute ▸ hobject) t)
    rw [if_neg hv] at hsuperseded hbefore ⊢
    exact hbefore hm
  | _ => exact hbefore hm'

section
variable (h : LeftOk s) (hversions : VersionsOk s) (hstep : step cl s a = some s')
  {key : ObjectKey T}
include h hversions hstep

theorem LeftOk.routes_step {m' : Manifest D} (hthere : s'.objects key ≠ none)
    (hm' : s'.manifests key.version = some m') (hsame : m'.generation = key.generation) :
    m'.route = .object := by
  rcases step_version hstep with ⟨-, hmanifests⟩ |
    ⟨w, job, c, route, hphase, hunchanged, -, hmanifests, -, hobjects, -⟩
  · obtain ⟨m, hm, hroute, hgeneration, -⟩ := hmanifests _ m' hm'
    rw [hroute]
    rcases step_objects hversions hstep key with
      hkept | ⟨hnone, -⟩ | ⟨w, job, c, content, todo, rfl, hphase, hput, -⟩
    · exact h.routes key m (hkept ▸ hthere) hm (hgeneration.symm.trans hsame)
    · exact absurd hnone hthere
    refine absurd ?_ ((hversions.generations _ m hm).2 w job c (hphase ▸ rfl))
    rw [← hput, ← hsame, hgeneration]
  rw [hobjects] at hthere
  rw [hmanifests] at hm'
  rcases update_eq_some hm' with ⟨-, rfl⟩ | ⟨-, hm⟩
  · by_contra hroute
    refine hthere (h.own w job c (hphase ▸ rfl) ?_ key hsame.symm)
    rw [hphase]
    simpa [Phase.toObjects] using hroute
  exact h.routes key m' hthere hm hsame

omit hstep [DecidableEq T] [DecidableEq D] in
theorem LeftOk.own_free {job : Job} {c : Claim D} (hwork : (s.procs w).work = some (job, c))
    (hroute : (s.procs w).toObjects = false) (hkey : key.generation = c.generation) :
    s.objects key = none ∧ ∀ w₂ job₂ c₂ content todo,
      s.procs w₂ = .copying job₂ c₂ .object content (key.table :: todo) →
      key.generation ≠ c₂.generation := by
  refine ⟨h.own w job c hwork hroute key hkey, fun w₂ job₂ c₂ content todo hphase hput => ?_⟩
  obtain rfl : w₂ = w :=
    hversions.unique w₂ w job₂ job c₂ c (hphase ▸ rfl) hwork (hput.symm.trans hkey)
  rw [hphase] at hroute
  cases hroute

theorem LeftOk.own_step {job : Job} {c : Claim D} (hwork' : (s'.procs w).work = some (job, c))
    (hroute' : (s'.procs w).toObjects = false) (hkey : key.generation = c.generation) :
    s'.objects key = none := by
  -- the generation has no objects before the step, and nobody puts one in it
  have hnone : s.objects key = none ∧ ∀ w₂ job₂ c₂ content todo,
      s.procs w₂ = .copying job₂ c₂ .object content (key.table :: todo) →
      key.generation ≠ c₂.generation := by
    rcases step_moves hstep w with hsame | hmove
    · exact h.own_free hversions (hsame ▸ hwork') (hsame ▸ hroute') hkey
    rcases hmove.own hwork' hroute' with hnew | ⟨hroute, job₀, c₀, hwork, hsame⟩
    · refine ⟨by_contra fun hthere => ?_, fun w₂ job₂ c₂ content todo hphase hput => ?_⟩
      · have := h.known key hthere
        omega
      have := (hversions.works w₂ job₂ c₂ (hphase ▸ rfl)).generation
      omega
    exact h.own_free hversions hwork hroute (hkey.trans hsame.symm)
  rcases step_objects hversions hstep key with
    hkept | ⟨hgone, -⟩ | ⟨w₂, job₂, c₂, content, todo, rfl, hphase, hput, -⟩
  · exact hkept.trans hnone.1
  · exact hgone
  exact absurd hput (hnone.2 w₂ job₂ c₂ content todo hphase)

end

theorem step_leftOk (hversions : VersionsOk s) (herased : ErasedOk cl keyed s)
    (hcurrent : CurrentCopies s a) (h : LeftOk s) (hstep : step cl s a = some s') : LeftOk s' := by
  have hle := step_version_le hstep
  have hgeneration := step_generation hstep
  constructor
  case ahead =>
    intro v t hv
    rcases step_warm hversions hstep v t with
      hsame | ⟨hempty, -⟩ | ⟨w, job, c, content, todo, rfl, hphase, hversion, -⟩
    · rw [hsame]
      exact h.ahead v t (by omega)
    · exact hempty
    have := hversions.copied_version hcurrent hphase
    omega
  case superseded =>
    intro v m' hm' hsuperseded
    obtain ⟨m, hm, hsame, hlt, hwarm, hobjects⟩ := h.superseded_step hversions hstep hm' hsuperseded
    refine ⟨by omega, fun t => ?_, fun t => ?_⟩
    · rcases hwarm with hwarm | hwarm
      · rcases step_warm hversions hstep v t with
          hkept | ⟨hempty, -⟩ | ⟨w, job, c, content, todo, rfl, hphase, hversion, -⟩
        · exact hkept.trans (hwarm t)
        · exact hempty
        have := hversions.copied_version hcurrent hphase
        omega
      exact hwarm t
    rw [hsame]
    rcases step_objects hversions hstep ⟨m.generation, v, t⟩ with
      hkept | ⟨hnone, -⟩ | ⟨w, job, c, content, todo, rfl, hphase, hput, -⟩
    · exact hkept.trans (hobjects t)
    · exact hnone
    exact absurd hput.symm ((hversions.generations v m hm).2 w job c (hphase ▸ rfl))
  case routes => exact fun key m' => h.routes_step hversions hstep
  case own =>
    exact fun w job c hwork hroute key => h.own_step hversions hstep hwork hroute
  case known =>
    intro key hthere
    rcases step_objects hversions hstep key with
      hkept | ⟨hnone, -⟩ | ⟨w, job, c, content, todo, rfl, hphase, hput, -⟩
    · exact (h.known key (hkept ▸ hthere)).trans hgeneration
    · exact absurd hnone hthere
    have := (hversions.works w job c (hphase ▸ rfl)).generation
    omega
  case unthawed =>
    intro hzero t
    have hempty : s.thawRows t = [] := h.unthawed (by omega) t
    cases step_does hstep with
    | erase => rfl
    | thawWrite w version content hphase =>
      have := h.thawing w version content hphase
      omega
    | cleanRows w named hphase =>
      show (if s.thaw = .expired then fun _ => [] else s.thawRows) t = []
      split
      · rfl
      exact hempty
    | _ => exact hempty
  case thawing =>
    intro w version content hphase'
    rcases step_from hstep hphase' with hphase | ⟨old, hold, hmove⟩
    · exact (h.thawing w version content hphase).trans hle
    · cases hmove with
      | thawed f content hfetch =>
        obtain ⟨m, hm, -⟩ := herased.route w .thaw f hold
        have := (hversions.manifests f.version).1 (hm ▸ rfl)
        omega

/-! ## The clean-ups after an erasure -/

/-- What holds from the erasure on, while nothing else works on the unit: the rows of the unit's
version and above are a published warm copy, and there is no thawed copy. -/
structure Unworked (s : System T D) : Prop where
  rest : ∀ v t, s.manifestVersion ≤ v → s.warm v t = [] ∨
    ∃ m, s.manifests v = some m ∧ m.route = .postgres
  thawRows : ∀ t, s.thawRows t = []

variable {root : String}

theorem LeftOk.erased (h : LeftOk s) (hversions : VersionsOk s) (hleft : NothingLeft s a)
    (hstep : step cl s a = some s') {n : Nat}
    (herased : s'.erased = (root, n) :: s.erased) : Unworked s' ∧ CurrentCopies s a := by
  have hgrown : s'.erased ≠ s.erased := by
    rw [herased]
    exact cons_ne_self _ _
  cases step_does hstep with
  | erase w root c route hphase hunchanged =>
    cases herased
    refine ⟨⟨fun v t hv => ?_, fun t => rfl⟩, trivial⟩
    have hbase : s.manifestVersion = c.base := (unchanged_iff.1 hunchanged).2.1
    have hv : c.version ≤ v := hv
    rcases eq_or_lt_of_le hv with rfl | hlt
    · by_cases hroute : route = .postgres
      · exact .inr ⟨_, update_self c.version _ s.manifests, hroute⟩
      exact .inl (hleft root c route hphase hroute t)
    rw [Claim.version] at hlt
    exact .inl (h.ahead v t (.inr (by omega)))
  | eraseSealed root hsealed =>
    cases herased
    have hzero : s.manifestVersion = 0 := hversions.sealed_iff.1 hsealed
    refine ⟨⟨fun v t _ => .inl ?_, h.unthawed hzero⟩, trivial⟩
    show s.warm v t = []
    by_cases hnext : v = s.manifestVersion + 1
    · rw [hnext]
      exact hleft t
    exact h.ahead v t (by omega)
  | _ => exact absurd rfl hgrown

def Action.cleans : Action T → Bool
  | .releaseOld _ | .releaseObjects _ _ | .releaseRows _ | .cleanOrphans _ | .cleanObjects _ _
  | .cleanRows _ => true
  | _ => false

theorem step_cleans (hversions : VersionsOk s) (hcleans : a.cleans = true)
    (hstep : step cl s a = some s') : s'.manifestVersion = s.manifestVersion ∧
      (∀ t, s.thawRows t = [] → s'.thawRows t = []) ∧
      ∀ v t, s.warm v t = [] → s'.warm v t = [] := by
  have hwarm : ∀ v t, s.warm v t = [] → s'.warm v t = [] := by
    intro v t hempty
    rcases step_warm hversions hstep v t with hsame | ⟨hgone, -⟩ |
      ⟨w, job, c, content, todo, rfl, -⟩
    · rw [hsame, hempty]
    · exact hgone
    cases hcleans
  cases step_does hstep with
  | goTo | releaseOld | releaseObjects | releaseRows | cleanObjects =>
    exact ⟨rfl, fun t ht => ht, hwarm⟩
  | cleanRows w named hphase =>
    refine ⟨rfl, fun t ht => ?_, hwarm⟩
    show (if s.thaw = .expired then fun _ => [] else s.thawRows) t = []
    split
    · rfl
    exact ht
  | _ => cases hcleans

theorem Unworked.step (h : Unworked s) (hversions : VersionsOk s) (hcleans : a.cleans = true)
    (hstep : step cl s a = some s') : Unworked s' := by
  obtain ⟨hversion, hthaw, hwarm⟩ := step_cleans hversions hcleans hstep
  refine ⟨fun v t hv => ?_, fun t => hthaw t (h.thawRows t)⟩
  rcases h.rest v t (hversion ▸ hv) with hempty | ⟨m, hm, hroute⟩
  · exact .inl (hwarm v t hempty)
  obtain ⟨m', hm', hsame, -⟩ := step_manifest hversions hstep hm
  exact .inr ⟨m', hm', hsame.trans hroute⟩

structure Cleaning (cl : Class T D) (keyed : String → Prop) (root : String) (n : Nat)
    (s : System T D) : Prop where
  versions : VersionsOk s
  erased : ErasedOk cl keyed s
  left : LeftOk s
  unworked : Unworked s
  since : (root, n) ∈ s.erased

theorem Cleaning.step {n : Nat} (hfree : cl.CollisionFree) (h : Cleaning cl keyed root n s)
    (hcleans : a.cleans = true) (hstep : step cl s a = some s') : Cleaning cl keyed root n s' := by
  have hcurrent : CurrentCopies s a := by
    cases a with
    | copy w => cases hcleans
    | _ => trivial
  exact ⟨step_versionsOk h.versions hstep,
    step_erasedOk hfree h.versions hcurrent h.erased hstep,
    step_leftOk h.versions h.erased hcurrent h.left hstep,
    h.unworked.step h.versions hcleans hstep, step_erased_mono hstep h.since⟩

omit [DecidableEq T] [DecidableEq D] in
/-- Where every replaced version is superseded and every object is a named copy's, all that is
stored is the current version. -/
theorem Cleaning.clean {n : Nat} (h : Cleaning cl keyed root n s)
    (hsuperseded : ∀ v m, s.manifests v = some m → v < s.manifestVersion → m.superseded = true)
    (hnamed : ∀ key, s.objects key ≠ none →
      ∃ m, s.manifests key.version = some m ∧ m.generation = key.generation) :
    (∀ v t, Wiped cl keyed root (s.warm v t)) ∧ (∀ t, Wiped cl keyed root (s.thawRows t)) ∧
      ∀ key rows, s.objects key = some rows → Wiped cl keyed root rows := by
  have hn : n ≤ s.manifestVersion := h.erased.versions root n h.since
  refine ⟨fun v t => ?_, fun t => ?_, fun key rows hrows => ?_⟩
  · by_cases hlt : v < s.manifestVersion
    · have hempty : s.warm v t = [] := by
        rcases Nat.eq_zero_or_pos v with hzero | hpos
        · exact h.left.ahead v t (.inl hzero)
        obtain ⟨m, hm⟩ := h.versions.exists_manifest hpos hlt.le
        exact (h.left.superseded v m hm (hsuperseded v m hm hlt)).2.1 t
      rw [hempty]
      exact wiped_nil
    rcases h.unworked.rest v t (by omega) with hempty | ⟨m, hm, hroute⟩
    · rw [hempty]
      exact wiped_nil
    refine h.erased.copies root n v m h.since (by omega) hm t _ ?_
    rw [hroute]
    rfl
  · rw [h.unworked.thawRows t]
    exact wiped_nil
  have hthere : s.objects key ≠ none := by
    rw [hrows]
    exact some_ne_none rows
  obtain ⟨m, hm, hgeneration⟩ := hnamed key hthere
  obtain ⟨generation, v, t⟩ := key
  obtain rfl : m.generation = generation := hgeneration
  by_cases hlt : v < s.manifestVersion
  · exact absurd ((h.left.superseded v m hm (hsuperseded v m hm hlt)).2.2 t) hthere
  refine h.erased.copies root n v m h.since (by omega) hm t rows ?_
  rw [h.left.routes _ m hthere hm rfl]
  exact hrows

/-- The replaced versions that ReleaseOld still has before it. -/
def Awaited (s : System T D) (w : Nat) : Prop :=
  ∀ v m, s.manifests v = some m → v < s.manifestVersion → m.superseded = false →
    ∃ olds o, s.procs w = .releasing olds ∧ o ∈ olds ∧ o.version = v

omit [DecidableEq T] [DecidableEq D] in
theorem releaseNext_procs (s : System T D) (w : Nat) {olds : List Old} (hne : olds ≠ []) :
    (s.releaseNext w olds).procs w = .releasing olds := by
  unfold System.releaseNext
  rw [if_neg hne]
  exact update_self w _ s.procs

/-- One step of ReleaseOld after its decision. -/
def Action.releases (w : Nat) (a : Action T) : Prop :=
  a = .releaseRows w ∨ ∃ which, a = .releaseObjects w which

theorem Awaited.step (h : Awaited s w) (hreleases : a.releases w)
    (hstep : step cl s a = some s') : Awaited s' w := by
  rcases hreleases with rfl | ⟨which, rfl⟩
  · simp only [Copies.step] at hstep
    split at hstep
    next o olds hphase =>
      obtain ⟨-, ⟨⟩⟩ := ite_none_left_eq_some.1 hstep
      intro v m' hm' hlt hsuperseded
      have hm' : (s.releaseRows o).manifests v = some m' := hm'
      rw [releaseRows_manifests, map_eq_some_iff] at hm'
      obtain ⟨m, hm, rfl⟩ := hm'
      -- the version just released is superseded, so it is one of those behind it
      by_cases hv : v = o.version
      · rw [if_pos hv] at hsuperseded
        cases hsuperseded
      rw [if_neg hv] at hsuperseded
      obtain ⟨olds₀, o', hphase₀, hmem, rfl⟩ := h v m hm hlt hsuperseded
      cases hphase.symm.trans hphase₀
      rcases mem_cons.1 hmem with rfl | hrest
      · exact absurd rfl hv
      exact ⟨olds, o', releaseNext_procs _ w (ne_nil_of_mem hrest), hrest, rfl⟩
    cases hstep
  simp only [Copies.step] at hstep
  split at hstep
  · split at hstep <;> cases hstep
    exact h
  cases hstep

omit [DecidableEq T] [DecidableEq D] in
/-- After ReleaseOld every replaced version is superseded. -/
theorem Awaited.superseded (h : Awaited s w) (hidle : s.procs w = .idle) {v : Nat} {m : Manifest D}
    (hm : s.manifests v = some m) (hlt : v < s.manifestVersion) : m.superseded = true := by
  by_contra hsuperseded
  obtain ⟨olds, o, hphase, -⟩ := h v m hm hlt (by simpa using hsuperseded)
  cases hphase.symm.trans hidle

end BeSdk.Tiering.Copies

import BeSdk.Tiering.Effects

/-!
# The current version's content

A publish makes a copy the unit's authority after Verify has read it back: its content has the
digest the manifest and the unit record.  It stays so only if nobody changes the copy after it was
verified. The publish rule keeps a process that lost its claim from publishing, not from copying:
warm rows are by version, so a delayed copy of an earlier claim replaces the rows of a version
another process has verified or published under the same number.  And the cleanup deletes objects
by their age, while their process may still publish them or has since.

Where warm rows are copied only under the current claim (`CurrentCopies`) and the cleanup spares the
objects of the current claim and of the manifests (`SparesLive`), the current version's content has
its digest in every state (`current_version_matches`).  The invariant follows a copy from its first
table read back (`ContentsOk`); the order of the versions needs neither condition.
-/

namespace BeSdk.Tiering.Copies

open Runs Function Tables

variable {T D : Type} [DecidableEq T] [DecidableEq D] {cl : Class T D} {s s' : System T D} {w : Nat}
  {a : Action T}

/-- The cleanup deletes no object of the current claim's generation and none of a manifest. -/
def SparesLive (s : System T D) : Action T → Prop
  | .cleanObjects w old => ∀ named key, s.procs w = .cleaning named →
      (key.generation, key.version) ∉ named → old key = true → s.objects key ≠ none →
      key.generation ≠ s.generation ∧
        ∀ m, s.manifests key.version = some m → m.generation ≠ key.generation
  | _ => True

/-- What Verify has read back is there until the publish, and what was published stays. -/
structure ContentsOk (cl : Class T D) (s : System T D) : Prop where
  verifying : ∀ w job c route todo seen, s.procs w = .verifying job c route todo seen →
    c.generation = s.generation → ∀ t, t ∉ todo →
    Stored s route c.generation c.version t (seen t)
  publishing : ∀ w job c route, s.procs w = .publishing job c route →
    c.generation = s.generation → ∃ content, cl.digest content = c.digest ∧
      ∀ t, Stored s route c.generation c.version t (content t)
  current : ∀ m, s.manifests s.manifestVersion = some m → ∃ content,
    cl.digest content = m.digest ∧
      ∀ t, Stored s m.route m.generation s.manifestVersion t (content t)

section
variable (h : VersionsOk s) (hcurrent : CurrentCopies s a) (hspares : SparesLive s a)
  (hstep : step cl s a = some s')
include h hcurrent hspares hstep

/-- A step leaves the copy of the process that holds the current claim, once it has left copying. -/
theorem Stored.claimed {job : Job} {c : Claim D} {route : Route} {t : T} {rows : List Row}
    (hcopied : HasCopied s w job c) (hstored : Stored s route c.generation c.version t rows) :
    Stored s' route c.generation c.version t rows := by
  cases route with
  | postgres => exact (h.warm_claimed hcurrent hstep hcopied t).trans hstored
  | object =>
    rcases step_objects h hstep ⟨c.generation, c.version, t⟩ with
      hsame | ⟨-, hlt | ⟨w₂, old, named, rfl, hphase, hunnamed, hold⟩⟩ |
      ⟨w₂, job₂, c₂, content, todo, rfl, hphase, -, -, hnone, -⟩
    · exact hsame.trans hstored
    · have : c.version < s.manifestVersion := hlt
      have := (h.works w job c hcopied.work).base hcopied.claim
      rw [Claim.version] at *
      omega
    · have hthere : s.objects ⟨c.generation, c.version, t⟩ ≠ none := by
        rw [show s.objects _ = some rows from hstored]
        simp
      exact absurd hcopied.claim (hspares named _ hphase hunnamed hold hthere).1
    cases hnone.symm.trans hstored
  | online => exact hstored.elim

theorem Stored.current {m : Manifest D} (hm : s.manifests s.manifestVersion = some m)
    {route : Route} {t : T} {rows : List Row}
    (hstored : Stored s route m.generation s.manifestVersion t rows) :
    Stored s' route m.generation s.manifestVersion t rows := by
  cases route with
  | postgres =>
    rcases step_warm h hstep s.manifestVersion t with
      hsame | ⟨-, -, hlt | hnone⟩ | ⟨w₂, job₂, c₂, content, todo, rfl, hphase, hversion, -⟩
    · exact hsame.trans hstored
    · omega
    · cases hnone.symm.trans hm
    have := h.copied_version hcurrent hphase
    omega
  | object =>
    rcases step_objects h hstep ⟨m.generation, s.manifestVersion, t⟩ with
      hsame | ⟨-, hlt | ⟨w₂, old, named, rfl, hphase, hunnamed, hold⟩⟩ |
      ⟨w₂, job₂, c₂, content, todo, rfl, hphase, -, -, hnone, -⟩
    · exact hsame.trans hstored
    · exact absurd hlt (Nat.lt_irrefl _)
    · have hthere : s.objects ⟨m.generation, s.manifestVersion, t⟩ ≠ none := by
        rw [show s.objects _ = some rows from hstored]
        simp
      exact absurd rfl ((hspares named _ hphase hunnamed hold hthere).2 m hm)
    cases hnone.symm.trans hstored
  | online => exact hstored.elim

end

theorem step_contentsOk (hversions : VersionsOk s) (hcurrent : CurrentCopies s a)
    (hspares : SparesLive s a) (h : ContentsOk cl s) (hstep : step cl s a = some s') :
    ContentsOk cl s' := by
  constructor
  case verifying =>
    intro w job c route todo seen hphase' hclaim' t ht
    rcases step_from hstep hphase' with hphase | ⟨old, hold, hmove⟩
    · have hcopied := HasCopied.before hversions hstep hphase rfl nofun hclaim'
      exact (h.verifying w job c route todo seen hphase hcopied.claim t ht).claimed hversions
        hcurrent hspares hstep hcopied
    · cases hmove with
      | check job c route content => exact absurd (cl.complete t) ht
      | verify job c route t₀ todo seen rows hrows =>
        have hcopied := HasCopied.before hversions hstep hold rfl nofun hclaim'
        have hread : Stored s route c.generation c.version t (update seen t₀ rows t) := by
          rcases update_cases seen t₀ rows t with ⟨rfl, hself⟩ | ⟨hne, hother⟩
          · rwa [hself]
          rw [hother]
          exact h.verifying w job c route _ seen hold hcopied.claim t (by simp [hne, ht])
        exact hread.claimed hversions hcurrent hspares hstep hcopied
  case publishing =>
    intro w job c route hphase' hclaim'
    rcases step_from hstep hphase' with hphase | ⟨old, hold, hmove⟩
    · have hcopied := HasCopied.before hversions hstep hphase rfl nofun hclaim'
      obtain ⟨content, hdigest, hstored⟩ := h.publishing w job c route hphase hcopied.claim
      exact ⟨content, hdigest, fun t =>
        (hstored t).claimed hversions hcurrent hspares hstep hcopied⟩
    · cases hmove with
      | accept job c route seen hdigest =>
        have hcopied := HasCopied.before hversions hstep hold rfl nofun hclaim'
        refine ⟨seen, hdigest, fun t => ?_⟩
        exact (h.verifying w job c route _ seen hold hcopied.claim t List.not_mem_nil).claimed
          hversions hcurrent hspares hstep hcopied
  case current =>
    intro m' hm'
    rcases step_version hstep with ⟨hversion, hmanifests⟩ |
      ⟨w, job, c, route, hphase, hunchanged, hversion, hmanifests, hwarm, hobjects, -⟩
    · rw [hversion] at hm' ⊢
      obtain ⟨m, hm, hroute, hgeneration, hdigest⟩ := hmanifests _ m' hm'
      obtain ⟨content, hcontent, hstored⟩ := h.current m hm
      refine ⟨content, hcontent.trans hdigest.symm, fun t => ?_⟩
      rw [hroute, hgeneration]
      exact (hstored t).current hversions hcurrent hspares hstep hm
    -- the copy that was read back is now the current one
    have hclaim := (unchanged_iff.1 hunchanged).2.2.1
    rw [hversion, hmanifests, update_self] at hm'
    cases hm'
    rw [hversion]
    obtain ⟨content, hdigest, hstored⟩ := h.publishing w job c route hphase hclaim.symm
    refine ⟨content, hdigest, fun t => ?_⟩
    have := hstored t
    unfold Stored at this ⊢
    rwa [hwarm, hobjects]

omit [DecidableEq T] [DecidableEq D] in
theorem contentsOk_init (content : Content T) : ContentsOk cl (.init cl content) where
  verifying := nofun
  publishing := nofun
  current := nofun

/-- **The current version.** In every run versions are published one after the other, each once.
Where warm rows are copied only under the current claim and the cleanup spares the objects of the
current claim and of the manifests, the content of the unit's version on its route has the digest
of the version's manifest, which is the digest the unit records. -/
theorem current_version_matches (cl : Class T D) (sealed : Content T) (acts : List (Action T))
    (s : System T D) (hrun : run (step cl) (.init cl sealed) acts = some s) :
    s.published.Pairwise (· > ·) ∧
      (Meets (step cl) (fun s a => CurrentCopies s a ∧ SparesLive s a) (.init cl sealed) acts →
        1 ≤ s.manifestVersion → ∃ m content, s.manifests s.manifestVersion = some m ∧
          m.route = s.route ∧
          (∀ t, Stored s m.route m.generation s.manifestVersion t (content t)) ∧
          cl.digest content = m.digest ∧ m.digest = s.digest) := by
  have hversions : VersionsOk s := run_invariant_of_step (fun _ _ _ => step_versionsOk)
    (versionsOk_init sealed) hrun
  refine ⟨hversions.increasing, fun hmeets hpublished => ?_⟩
  have hboth : VersionsOk s ∧ ContentsOk cl s := by
    refine run_invariant (P := fun s => VersionsOk s ∧ ContentsOk cl s) ?_
      ⟨versionsOk_init sealed, contentsOk_init sealed⟩ hmeets hrun
    rintro s a s' ⟨hversions, hcontents⟩ ⟨hcurrent, hspares⟩ hstep
    exact ⟨step_versionsOk hversions hstep,
      step_contentsOk hversions hcurrent hspares hcontents hstep⟩
  obtain ⟨m, hm⟩ := hversions.exists_manifest hpublished (Nat.le_refl _)
  obtain ⟨hroute, hdigest⟩ := hversions.current m hm
  obtain ⟨content, hcontent, hstored⟩ := hboth.2.current m hm
  exact ⟨m, content, hm, hroute, hstored, hcontent, hdigest⟩

/-- A route change has read the unit when an erasure writes and publishes the next version; then the
route change copies what it has read under the same version. -/
theorem stale_copy_replaces_the_rows :
    ∃ s m, run (step people) (.init people fun _ => [nameRow])
      (runJob 1 (.transfer .postgres) ++ [.claim 2 (.reroute .postgres), .find 2, .fetch 2] ++
        runJob 3 (.erase "a") ++ [.copy 2]) = some s ∧
      s.manifestVersion = 2 ∧ s.manifests 2 = some m ∧ m.route = .postgres ∧ s.warm 2 () =
        [nameRow] ∧
      people.digest (s.warm 2) ≠ m.digest :=
  ⟨_, _, rfl, rfl, rfl, rfl, rfl, by decide⟩

/-- A transfer to the object route, and a cleanup that deletes what a route change left that has
lost its claim. -/
theorem cleaned_unit_matches :
    ∃ s m, run (step people) (.init people fun _ => [nameRow])
      (runJob 1 (.transfer .object) ++ [.claim 2 (.reroute .object), .find 2, .fetch 2, .fetch 2,
        .copy 2, .claim 3 (.erase "a"), .cleanOrphans 4,
        .cleanObjects 4 fun key => key.generation = 2]) = some s ∧
      s.objects ⟨2, 2, ()⟩ = none ∧ s.manifests 1 = some m ∧ s.manifestVersion = 1 ∧
      ∃ content, (∀ t, Stored s m.route m.generation 1 t (content t)) ∧
        people.digest content = m.digest := by
  refine ⟨?s, ?m, ?hrun, ?hgone, ?hm, ?hversion,
    (have h := (current_version_matches people _ _ ?s ?hrun).2 ?hmeets ?hpos; ?hcontent)⟩
  case hrun | hgone | hm | hversion => rfl
  case hpos => decide
  case hcontent =>
    obtain ⟨m, content, ⟨⟩, -, hstored, hdigest, -⟩ := h
    exact ⟨content, hstored, hdigest⟩
  iterate 2 refine .cons ⟨trivial, trivial⟩ rfl ?_
  refine .cons ⟨?_, trivial⟩ rfl (.cons ⟨?_, trivial⟩ rfl ?_)
  · nofun
  · nofun
  iterate 7 refine .cons ⟨trivial, trivial⟩ rfl ?_
  refine .cons ⟨?_, trivial⟩ rfl ?_
  · nofun
  iterate 2 refine .cons ⟨trivial, trivial⟩ rfl ?_
  refine .cons ⟨trivial, ?_⟩ rfl trivial
  -- the objects of generation 2: neither the current claim's nor a manifest's
  rintro named key - - hold -
  have hgeneration : key.generation = 2 := of_decide_eq_true hold
  refine ⟨by rw [hgeneration]; decide, fun m hm => ?_⟩
  rcases update_eq_some hm with ⟨-, rfl⟩ | ⟨-, hm⟩
  · rw [hgeneration]
    decide
  cases hm

end BeSdk.Tiering.Copies

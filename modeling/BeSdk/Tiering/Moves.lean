import BeSdk.Tiering.Copies

/-!
# What a step can do

Each step moves one process at most, from one phase to another (`Moves`), and some steps do more
than that (`Does`).  `step_does` goes through the steps once; the invariants of the runs are derived
from it, so that no later argument unfolds a step again.
-/

namespace BeSdk.Tiering.Copies

open Function Tables Option

variable {T D : Type} [DecidableEq T] {cl : Class T D} {s s' : System T D} {w : Nat}
  {a : Action T}

/-- The route has these rows of the table, in the copy with the generation and the version. -/
def Stored (s : System T D) (route : Route) (generation version : Nat) (t : T) (rows : List Row) :
    Prop :=
  match route with
  | .postgres => s.warm version t = rows
  | .object => s.objects ⟨generation, version, t⟩ = some rows
  | .online => False

variable {route : Route}

omit [DecidableEq T] in
theorem Stored.unique {generation version : Nat} {t : T} {rows rows' : List Row}
    (h : Stored s route generation version t rows)
    (h' : Stored s route generation version t rows') : rows = rows' := by
  cases route with
  | postgres => exact h.symm.trans h'
  | object => exact Option.some.inj (h.symm.trans h')
  | online => exact h.elim

/-- How a process moves from one phase to the next. -/
inductive Moves (cl : Class T D) (s : System T D) : Phase T D → Phase T D → Prop where
  | stop (phase : Phase T D) : Moves cl s phase .stopped
  | claim (job : Job) (c : Claim D) (hgeneration : c.generation = s.generation + 1)
      (hbase : c.base = s.manifestVersion) (hjob : job.claims s.state = true)
      (hstate : c.state = s.state) : Moves cl s .idle (.claimed job c)
  | load (route : Route) (c : Claim D) :
      Moves cl s (.claimed (.transfer route) c)
        (.copying (.transfer route) c route s.online cl.tables)
  | find (job : Job) (c : Claim D) (hjob : ∀ route, job ≠ .transfer route) :
      Moves cl s (.claimed job c) (.fetching (.rewrite job c) (s.routeOf cl false))
  | thaw (hroute : s.route ≠ .online) :
      Moves cl s .idle (.fetching .thaw (s.routeOf cl false))
  | get (hroute : s.route ≠ .online) :
      Moves cl s .idle
        (.fetching (.read (s.erased.map (·.1))) (s.routeOf cl (s.thaw = .live)))
  | query : Moves cl s .idle (.read s.online (s.erased.map (·.1)))
  | more (use : Use D) (f f' : Fetch T) (hfetch : s.fetchStep cl f = .more f') :
      Moves cl s (.fetching use f) (.fetching use f')
  | erase (root : String) (c : Claim D) (f : Fetch T) (content : Content T)
      (hfetch : s.fetchStep cl f = .all content) :
      Moves cl s (.fetching (.rewrite (.erase root) c) f)
        (.copying (.erase root) { c with digest := cl.digest (cl.eraseAgain root content) } f.route
          (cl.eraseAgain root content) cl.tables)
  | reroute (route : Route) (c : Claim D) (f : Fetch T) (content : Content T)
      (hfetch : s.fetchStep cl f = .all content) :
      Moves cl s (.fetching (.rewrite (.reroute route) c) f)
        (.copying (.reroute route) { c with digest := cl.digest content } route content cl.tables)
  | thawed (f : Fetch T) (content : Content T) (hfetch : s.fetchStep cl f = .all content) :
      Moves cl s (.fetching .thaw f) (.thawing f.version content)
  | read (since : List String) (f : Fetch T) (content : Content T)
      (hfetch : s.fetchStep cl f = .all content) :
      Moves cl s (.fetching (.read since) f) (.read content since)
  | copy (job : Job) (c : Claim D) (route : Route) (content : Content T) (t : T) (todo : List T) :
      Moves cl s (.copying job c route content (t :: todo)) (.copying job c route content todo)
  | check (job : Job) (c : Claim D) (route : Route) (content : Content T) :
      Moves cl s (.copying job c route content []) (.verifying job c route cl.tables fun _ => [])
  | verify (job : Job) (c : Claim D) (route : Route) (t : T) (todo : List T) (seen : Content T)
      (rows : List Row) (hstored : Stored s route c.generation c.version t rows) :
      Moves cl s (.verifying job c route (t :: todo) seen)
        (.verifying job c route todo (update seen t rows))
  | accept (job : Job) (c : Claim D) (route : Route) (seen : Content T)
      (hdigest : cl.digest seen = c.digest) :
      Moves cl s (.verifying job c route [] seen) (.publishing job c route)
  | finish (phase : Phase T D) : Moves cl s phase .idle
  | release (phase : Phase T D) (olds : List Old) : Moves cl s phase (.releasing olds)
  | clean (phase : Phase T D) : Moves cl s phase (.cleaning s.named)

/-- What one step does: most of them only move a process, and then neither claim nor release. -/
inductive Does [DecidableEq D] (cl : Class T D) (s : System T D) :
    Action T → System T D → Prop where
  | goTo {a : Action T} {w : Nat} {phase : Phase T D} (hmove : Moves cl s (s.procs w) phase)
      (hclaimed : ∀ job c, phase ≠ .claimed job c) (hreleasing : ∀ olds, phase ≠ .releasing olds) :
      Does cl s a (s.goTo w phase)
  | failover : Does cl s .failover { s with epoch := s.epoch + 1 }
  | claim (w : Nat) (job : Job) (hidle : s.procs w = .idle) (hjob : job.claims s.state = true) :
      Does cl s (.claim w job) (s.claimed w job)
  | copyRows (w : Nat) (job : Job) (c : Claim D) (content : Content T) (t : T) (todo : List T)
      (hphase : s.procs w = .copying job c .postgres content (t :: todo)) :
      Does cl s (.copy w) ((s.copyRows c.version t (content t)).goTo w
        (.copying job c .postgres content todo))
  | put (w : Nat) (job : Job) (c : Claim D) (content : Content T) (t : T) (todo : List T)
      (hphase : s.procs w = .copying job c .object content (t :: todo))
      (hnone : s.objects ⟨c.generation, c.version, t⟩ = none) :
      Does cl s (.copy w) ((s.put ⟨c.generation, c.version, t⟩ (content t)).goTo w
        (.copying job c .object content todo))
  | publish (w : Nat) (job : Job) (c : Claim D) (route : Route)
      (hphase : s.procs w = .publishing job c route) (hunchanged : s.unchanged c = true)
      (hjob : ∀ root, job ≠ .erase root) :
      Does cl s (.publish w) ((s.publishVersion c route).goTo w .idle)
  | erase (w : Nat) (root : String) (c : Claim D) (route : Route)
      (hphase : s.procs w = .publishing (.erase root) c route)
      (hunchanged : s.unchanged c = true) :
      Does cl s (.publish w) (((s.publishVersion c route).eraseAlso cl c root).goTo w .idle)
  | eraseSealed (root : String) (hsealed : s.state = .sealed) :
      Does cl s (.eraseSealed root) (s.eraseSealed cl root)
  | thawWrite (w version : Nat) (content : Content T)
      (hphase : s.procs w = .thawing version content) :
      Does cl s (.thawWrite w) ({ s with thaw := .live, thawRows := content }.goTo w .idle)
  | thawExpires (hlive : s.thaw = .live) : Does cl s .thawExpires { s with thaw := .expired }
  | release (hpublished : s.state = .published) : Does cl s .release { s with releasing := true }
  | deleteOnline (t : T) (keep : Row → Bool) (hreleasing : s.releasing = true) :
      Does cl s (.deleteOnline t keep)
        { s with online := update s.online t ((s.online t).filter keep) }
  | released (hempty : cl.tables.all (fun t => (s.online t).isEmpty) = true) :
      Does cl s .released { s with state := if s.state = .published then .released else s.state }
  | releaseOld (w : Nat) : Does cl s (.releaseOld w)
      (s.releaseNext w (if s.state = .published ∨ s.state = .released then s.olds else []))
  | releaseObjects (w : Nat) (which : T → Bool) (o : Old) (olds : List Old)
      (hphase : s.procs w = .releasing (o :: olds)) :
      Does cl s (.releaseObjects w which) { s with
        objects := fun key =>
          if key.generation = o.generation ∧ key.version = o.version ∧ which key.table then none
          else s.objects key }
  | releaseRows (w : Nat) (o : Old) (olds : List Old) (hphase : s.procs w = .releasing (o :: olds))
      (hgone : o.route = .object → ∀ t, s.objects ⟨o.generation, o.version, t⟩ = none) :
      Does cl s (.releaseRows w) ((s.releaseRows o).releaseNext w olds)
  | cleanObjects (w : Nat) (old : ObjectKey T → Bool) (named : List (Nat × Nat))
      (hphase : s.procs w = .cleaning named) :
      Does cl s (.cleanObjects w old) { s with
        objects := fun key =>
          if (key.generation, key.version) ∉ named ∧ old key then none else s.objects key }
  | cleanRows (w : Nat) (named : List (Nat × Nat)) (hphase : s.procs w = .cleaning named) :
      Does cl s (.cleanRows w) (s.cleanRows.goTo w .idle)

theorem moves_update {phase : Phase T D} (hmove : Moves cl s (s.procs w) phase) (w₁ : Nat) :
    update s.procs w phase w₁ = s.procs w₁ ∨
      Moves cl s (s.procs w₁) (update s.procs w phase w₁) := by
  rcases update_cases s.procs w phase w₁ with ⟨rfl, hself⟩ | ⟨-, hother⟩
  · rw [hself]
    exact .inr hmove
  exact .inl hother

theorem releaseNext_moves (phase : Phase T D) (olds : List Old) :
    Moves cl s phase (if olds = [] then .idle else .releasing olds) := by
  split
  · exact .finish _
  exact .release _ _

variable [DecidableEq D]

theorem Does.stop : Does cl s a (s.goTo w .stopped) := .goTo (.stop _) nofun nofun

theorem fetch_does {use : Use D} {f : Fetch T} (hphase : s.procs w = .fetching use f) :
    Does cl s (.fetch w) (s.fetch cl w use f) := by
  unfold System.fetch
  split
  · exact .stop
  · next f' hmore => exact .goTo (hphase ▸ .more use f f' hmore) nofun nofun
  rename_i content hall
  unfold System.fetched
  split
  · exact .goTo (hphase ▸ .erase _ _ f content hall) nofun nofun
  · exact .goTo (hphase ▸ .reroute _ _ f content hall) nofun nofun
  · exact .stop
  · exact .goTo (hphase ▸ .thawed f content hall) nofun nofun
  exact .goTo (hphase ▸ .read _ f content hall) nofun nofun

variable {job : Job} {c : Claim D} {todo : List T}

theorem copy_does {content : Content T} (hphase : s.procs w = .copying job c route content todo) :
    Does cl s (.copy w) (s.copy cl w job c route content todo) := by
  cases todo with
  | nil => exact .goTo (hphase ▸ .check job c route content) nofun nofun
  | cons t todo =>
    cases route with
    | postgres => exact .copyRows w job c content t todo hphase
    | object =>
      simp only [System.copy]
      split
      · next hnone => exact .put w job c content t todo hphase hnone
      exact .stop
    | online => exact .stop

theorem verify_does {seen : Content T} (hphase : s.procs w = .verifying job c route todo seen) :
    Does cl s (.verify w) (s.verify cl w job c route seen todo) := by
  cases todo with
  | nil =>
    simp only [System.verify]
    split
    · next hdigest => exact .goTo (hphase ▸ .accept job c route seen hdigest) nofun nofun
    exact .stop
  | cons t todo =>
    cases route with
    | postgres => exact .goTo (hphase ▸ .verify job c .postgres t todo seen _ rfl) nofun nofun
    | object =>
      simp only [System.verify]
      split
      next rows hrows =>
        exact .goTo (hphase ▸ .verify job c .object t todo seen rows hrows) nofun nofun
      exact .stop
    | online => exact .stop

theorem publish_does (hphase : s.procs w = .publishing job c route) :
    Does cl s (.publish w) (s.publish cl w job c route) := by
  unfold System.publish
  split
  next hunchanged =>
    cases job with
    | erase root => exact .erase w root c route hphase hunchanged
    | transfer first | reroute other => exact .publish w _ c route hphase hunchanged nofun
  exact .stop

section
variable (hstep : step cl s a = some s')
include hstep

/-- **The steps**, each with what it has found. -/
theorem step_does : Does cl s a s' := by
  cases a with simp only [step] at hstep
  | failover =>
    cases hstep
    exact .failover
  | claim w job =>
    split at hstep
    next hidle =>
      obtain ⟨hjob, ⟨⟩⟩ := ite_none_right_eq_some.1 hstep
      exact .claim w job hidle hjob
    cases hstep
  | load w =>
    split at hstep <;> cases hstep
    rename_i route c hphase
    exact .goTo (hphase ▸ .load route c) nofun nofun
  | find w =>
    split at hstep
    next route c hphase =>
      cases hstep
      exact .goTo (hphase ▸ .find (.reroute route) c nofun) nofun nofun
    next root c hphase =>
      cases hstep
      exact .goTo (hphase ▸ .find (.erase root) c nofun) nofun nofun
    cases hstep
  | fetch w =>
    split at hstep <;> cases hstep
    rename_i use f hphase
    exact fetch_does hphase
  | copy w =>
    split at hstep <;> cases hstep
    rename_i job c route content todo hphase
    exact copy_does hphase
  | verify w =>
    split at hstep <;> cases hstep
    rename_i job c route todo seen hphase
    exact verify_does hphase
  | publish w =>
    split at hstep <;> cases hstep
    rename_i job c route hphase
    exact publish_does hphase
  | eraseSealed root =>
    obtain ⟨hsealed, ⟨⟩⟩ := ite_none_right_eq_some.1 hstep
    exact .eraseSealed root hsealed
  | thaw w =>
    split at hstep
    next hphase =>
      obtain ⟨hroute, ⟨⟩⟩ := ite_none_left_eq_some.1 hstep
      exact .goTo (hphase ▸ .thaw hroute) nofun nofun
    cases hstep
  | thawWrite w =>
    split at hstep <;> cases hstep
    rename_i version content hphase
    exact .thawWrite w version content hphase
  | thawExpires =>
    obtain ⟨hlive, ⟨⟩⟩ := ite_none_right_eq_some.1 hstep
    exact .thawExpires hlive
  | get w =>
    split at hstep
    next hphase =>
      obtain ⟨hroute, ⟨⟩⟩ := ite_none_left_eq_some.1 hstep
      exact .goTo (hphase ▸ .get hroute) nofun nofun
    cases hstep
  | query w =>
    split at hstep <;> cases hstep
    rename_i hphase
    exact .goTo (hphase ▸ .query) nofun nofun
  | release =>
    obtain ⟨hpublished, ⟨⟩⟩ := ite_none_right_eq_some.1 hstep
    exact .release hpublished
  | deleteOnline t keep =>
    obtain ⟨hreleasing, ⟨⟩⟩ := ite_none_right_eq_some.1 hstep
    exact .deleteOnline t keep hreleasing
  | released =>
    obtain ⟨⟨-, hempty⟩, ⟨⟩⟩ := ite_none_right_eq_some.1 hstep
    exact .released hempty
  | releaseOld w =>
    split at hstep <;> cases hstep
    exact .releaseOld w
  | releaseObjects w which =>
    split at hstep
    next o olds hphase =>
      obtain ⟨-, ⟨⟩⟩ := ite_none_right_eq_some.1 hstep
      exact .releaseObjects w which o olds hphase
    cases hstep
  | releaseRows w =>
    split at hstep
    next o olds hphase =>
      obtain ⟨hgone, ⟨⟩⟩ := ite_none_left_eq_some.1 hstep
      refine .releaseRows w o olds hphase fun hobject t => ?_
      simp only [hobject, true_and, Bool.not_eq_true', Bool.not_eq_false] at hgone
      exact isNone_iff_eq_none.1 (List.all_eq_true.1 hgone t (cl.complete t))
    cases hstep
  | cleanOrphans w =>
    split at hstep <;> cases hstep
    exact .goTo (.clean _) nofun nofun
  | cleanObjects w old =>
    split at hstep <;> cases hstep
    rename_i named hphase
    exact .cleanObjects w old named hphase
  | cleanRows w =>
    split at hstep <;> cases hstep
    rename_i named hphase
    exact .cleanRows w named hphase
  | crash w =>
    cases hstep
    exact .stop

/-- **Phases.** A step leaves a process where it is, or moves it. -/
theorem step_moves (w₁ : Nat) :
    s'.procs w₁ = s.procs w₁ ∨ Moves cl s (s.procs w₁) (s'.procs w₁) := by
  cases step_does hstep with
  | goTo hmove => exact moves_update hmove w₁
  | claim w job hidle hjob => exact moves_update (s := s) (hidle ▸ .claim job _ rfl rfl hjob rfl) w₁
  | copyRows w job c content t todo hphase | put w job c content t todo hphase =>
    exact moves_update (s := s) (hphase ▸ .copy job c _ content t todo) w₁
  | publish | erase | thawWrite | cleanRows => exact moves_update (s := s) (.finish _) w₁
  | releaseOld | releaseRows => exact moves_update (s := s) (releaseNext_moves _ _) w₁
  | _ => exact .inl rfl

/-- Where a process was that is in a phase after a step. -/
theorem step_from {new : Phase T D} (hphase' : s'.procs w = new) :
    s.procs w = new ∨ ∃ old, s.procs w = old ∧ Moves cl s old new := by
  rw [← hphase']
  rcases step_moves hstep w with hsame | hmove
  · exact .inl hsame.symm
  exact .inr ⟨_, rfl, hmove⟩

end
end BeSdk.Tiering.Copies

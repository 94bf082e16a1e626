import BeSdk.Tiering.Versions

/-!
# What a step changes

A step changes the rows and objects of the copies in one of three ways: a process that copies writes
its next table, under its claim's version; a release deletes what belongs to a replaced version; the
cleanup deletes what no manifest names.  What holds of the copies in every run is derived from these
statements.
-/

namespace BeSdk.Tiering.Copies

open Function Tables List

variable {T D : Type} [DecidableEq T] [DecidableEq D] {cl : Class T D} {s s' : System T D}
  {w : Nat} {a : Action T} {route : Route} {job : Job} {c : Claim D} {todo : List T}

section
variable (h : VersionsOk s) (hstep : step cl s a = some s')
include h hstep

/-- **Warm rows.** A version's rows go together and come table by table. -/
theorem step_rows (v : Nat) : s'.warm v = s.warm v ∨
      (s'.warm v = (fun _ => []) ∧ v ≠ s.manifestVersion + 1 ∧
        (v < s.manifestVersion ∨ s.manifests v = none)) ∨ ∃ w job c content t todo, a = .copy w ∧
        s.procs w = .copying job c .postgres content (t :: todo) ∧ v = c.version ∧
        s'.warm v = update (s.warm v) t (content t) := by
  cases step_does hstep with
  | copyRows w job c content t todo hphase =>
    rcases update_cases s.warm c.version (update (s.warm c.version) t (content t)) v with
      ⟨rfl, hself⟩ | ⟨-, hother⟩
    · exact .inr (.inr ⟨w, job, c, content, t, todo, rfl, hphase, rfl, hself⟩)
    exact .inl hother
  | releaseRows w o olds hphase =>
    have hlt := (h.olds w _ hphase o (mem_cons_self ..)).1
    rcases update_cases s.warm o.version (fun _ => []) v with ⟨rfl, hself⟩ | ⟨-, hother⟩
    · exact .inr (.inl ⟨hself, by omega, .inl hlt⟩)
    exact .inl hother
  | cleanRows =>
    by_cases hkept : v = s.manifestVersion + 1 ∨ (s.manifests v).isSome = true
    · exact .inl (if_pos hkept)
    obtain ⟨hne, hnone⟩ := not_or.1 hkept
    exact .inr (.inl ⟨if_neg hkept, hne, .inr (by simpa using hnone)⟩)
  | _ => exact .inl rfl

theorem step_warm (v : Nat) (t : T) : s'.warm v t = s.warm v t ∨
      (s'.warm v t = [] ∧ v ≠ s.manifestVersion + 1 ∧
        (v < s.manifestVersion ∨ s.manifests v = none)) ∨ ∃ w job c content todo, a = .copy w ∧
        s.procs w = .copying job c .postgres content (t :: todo) ∧ v = c.version ∧
        s'.warm v t = content t := by
  rcases step_rows h hstep v with hsame | ⟨hempty, hv⟩ |
    ⟨w, job, c, content, t', todo, rfl, hphase, hversion, hcopied⟩
  · exact .inl (congrFun hsame t)
  · exact .inr (.inl ⟨congrFun hempty t, hv⟩)
  rcases update_cases (s.warm v) t' (content t') t with ⟨rfl, hself⟩ | ⟨-, hother⟩
  · exact .inr (.inr ⟨w, job, c, content, todo, rfl, hphase, hversion,
      (congrFun hcopied t).trans hself⟩)
  exact .inl ((congrFun hcopied t).trans hother)

theorem step_objects (key : ObjectKey T) : s'.objects key = s.objects key ∨
      (s'.objects key = none ∧ (key.version < s.manifestVersion ∨
        ∃ w old named, a = .cleanObjects w old ∧ s.procs w = .cleaning named ∧
          (key.generation, key.version) ∉ named ∧ old key = true)) ∨
      ∃ w job c content todo, a = .copy w ∧
        s.procs w = .copying job c .object content (key.table :: todo) ∧
        key.generation = c.generation ∧ key.version = c.version ∧ s.objects key = none ∧
        s'.objects key = some (content key.table) := by
  cases step_does hstep with
  | put w job c content t todo hphase hnone =>
    rcases update_cases s.objects ⟨c.generation, c.version, t⟩ (some (content t)) key with
      ⟨rfl, hself⟩ | ⟨-, hother⟩
    · exact .inr (.inr ⟨w, job, c, content, todo, rfl, hphase, rfl, rfl, hnone, hself⟩)
    exact .inl hother
  | releaseObjects w which o olds hphase =>
    have hlt := (h.olds w _ hphase o (mem_cons_self ..)).1
    by_cases hgone : key.generation = o.generation ∧ key.version = o.version ∧
        which key.table = true
    · exact .inr (.inl ⟨if_pos hgone, .inl (by omega)⟩)
    exact .inl (if_neg hgone)
  | cleanObjects w old named hphase =>
    by_cases hgone : (key.generation, key.version) ∉ named ∧ old key = true
    · exact .inr (.inl ⟨if_pos hgone, .inr ⟨w, old, named, rfl, hphase, hgone⟩⟩)
    exact .inl (if_neg hgone)
  | _ => exact .inl rfl

end

section
variable (hstep : step cl s a = some s')
include hstep

theorem step_generation : s.generation ≤ s'.generation := by
  cases step_does hstep with
  | claim => exact Nat.le_succ _
  | _ => exact Nat.le_refl _

/-- **Versions.** The unit's version and its manifests stay, up to their being superseded, or a
process that holds the current claim publishes. -/
theorem step_version : (s'.manifestVersion = s.manifestVersion ∧ ∀ v m', s'.manifests v = some m' →
      ∃ m, s.manifests v = some m ∧ m'.route = m.route ∧ m'.generation = m.generation ∧
        m'.digest = m.digest) ∨
    ∃ w job c route, s.procs w = .publishing job c route ∧ s.unchanged c = true ∧
      s'.manifestVersion = c.version ∧ s'.manifests = update s.manifests c.version
        (some { route := route, generation := c.generation, digest := c.digest }) ∧
      s'.warm = s.warm ∧ s'.objects = s.objects ∧
      ∀ x n, (x, n) ∈ s'.erased → (x, n) ∈ s.erased ∨ job = .erase x := by
  cases step_does hstep with
  | publish w job c route hphase hunchanged =>
    exact .inr ⟨w, job, c, route, hphase, hunchanged, rfl, rfl, rfl, rfl, fun _ _ => .inl⟩
  | erase w root c route hphase hunchanged =>
    refine .inr ⟨w, _, c, route, hphase, hunchanged, rfl, rfl, rfl, rfl, fun x n hx => ?_⟩
    rcases mem_cons.1 hx with hnew | hold
    · cases hnew
      exact .inr rfl
    exact .inl hold
  | releaseRows w o olds => exact .inl ⟨rfl, fun v m' hm' => releaseRows_eq_some hm'⟩
  | _ => exact .inl ⟨rfl, fun v m' hm' => ⟨m', hm', rfl, rfl, rfl⟩⟩

end

/-- A claim that is current after a step was so before. -/
theorem current_before (h : VersionsOk s) (hstep : step cl s a = some s')
    (hwork : (s.procs w).work = some (job, c)) (hclaim : c.generation = s'.generation) :
    c.generation = s.generation := by
  have hle := (h.works w job c hwork).generation
  have hmono := step_generation hstep
  omega

/-- A manifest stays, up to its being superseded. -/
theorem step_manifest (h : VersionsOk s) (hstep : step cl s a = some s') {v : Nat} {m : Manifest D}
    (hm : s.manifests v = some m) : ∃ m', s'.manifests v = some m' ∧ m'.route = m.route ∧
      m'.generation = m.generation := by
  have hle : v ≤ s.manifestVersion := ((h.manifests v).1 (hm ▸ rfl)).2
  -- a publish writes the next version's
  have hother : ∀ c : Claim D, s.unchanged c = true → v ≠ c.version := by
    intro c hunchanged
    have := (unchanged_iff.1 hunchanged).2.1
    rw [Claim.version]
    omega
  cases step_does hstep with
  | publish w job c route hphase hunchanged | erase w root c route hphase hunchanged =>
    exact ⟨m, (update_of_ne (hother c hunchanged) ..).trans hm, rfl, rfl⟩
  | releaseRows w o olds hphase =>
    refine ⟨_, (releaseRows_manifests s o v).trans (by rw [hm]; rfl), ?_⟩
    split <;> exact ⟨rfl, rfl⟩
  | _ => exact ⟨m, hm, rfl, rfl⟩

/-- Warm rows are copied only under the unit's current claim. -/
def CurrentCopies (s : System T D) : Action T → Prop
  | .copy w => ∀ job c content t todo, s.procs w = .copying job c .postgres content (t :: todo) →
      c.generation = s.generation
  | _ => True

/-- The process `w` has left copying, under the unit's current claim. -/
structure HasCopied (s : System T D) (w : Nat) (job : Job) (c : Claim D) : Prop where
  work : (s.procs w).work = some (job, c)
  claim : c.generation = s.generation
  left : ∀ job c route content t todo, s.procs w ≠ .copying job c route content (t :: todo)

theorem HasCopied.before (h : VersionsOk s) (hstep : step cl s a = some s') {phase : Phase T D}
    (hphase : s.procs w = phase) (hwork : phase.work = some (job, c))
    (hleft : ∀ job c route content t todo, phase ≠ .copying job c route content (t :: todo))
    (hclaim' : c.generation = s'.generation) : HasCopied s w job c := by
  subst hphase
  exact ⟨hwork, current_before h hstep hwork hclaim', hleft⟩

section
omit [DecidableEq T] [DecidableEq D]
variable {content : Content T} {t : T}

theorem VersionsOk.copied_version (h : VersionsOk s) (hcurrent : CurrentCopies s (.copy w))
    (hphase : s.procs w = .copying job c .postgres content (t :: todo)) :
    c.version = s.manifestVersion + 1 := by
  have hbase := (h.works w job c (hphase ▸ rfl)).base (hcurrent job c content t todo hphase)
  rw [Claim.version, hbase]

/-- Such a process has the claim alone: nobody copies under it. -/
theorem VersionsOk.not_copied (h : VersionsOk s) {w₁ w₂ : Nat} {job₁ job₂ : Job} {c₁ c₂ : Claim D}
    (hcopied : HasCopied s w₁ job₁ c₁)
    (hphase : s.procs w₂ = .copying job₂ c₂ route content (t :: todo)) :
    c₂.generation ≠ c₁.generation := by
  intro hsame
  have hwork₂ := congrArg Phase.work hphase
  obtain rfl : w₂ = w₁ := h.unique w₂ w₁ job₂ job₁ c₂ c₁ hwork₂ hcopied.work hsame
  exact hcopied.left _ _ _ _ _ _ hphase

end

/-- Nor does anything else write the warm rows of its version. -/
theorem VersionsOk.warm_claimed (h : VersionsOk s) (hcurrent : CurrentCopies s a)
    (hstep : step cl s a = some s') (hcopied : HasCopied s w job c)
    (t : T) : s'.warm c.version t = s.warm c.version t := by
  rcases step_warm h hstep c.version t with
    hsame | ⟨-, hne, -⟩ | ⟨w₂, job₂, c₂, content, todo, rfl, hphase, -⟩
  · exact hsame
  · exact absurd (congrArg (· + 1) ((h.works w job c hcopied.work).base hcopied.claim)) hne
  have hgeneration : c₂.generation = s.generation := hcurrent job₂ c₂ content _ _ hphase
  exact absurd (hgeneration.trans hcopied.claim.symm) (h.not_copied hcopied hphase)

end BeSdk.Tiering.Copies

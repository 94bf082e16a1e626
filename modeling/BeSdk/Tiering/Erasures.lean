import BeSdk.Tiering.Effects

/-!
# What an erasure takes out stays out of the versions

An erasure of an aggregate commits in one of two ways: a sealed unit's online rows are erased and
its digest computed again, or a published or released unit is written again as a new version
without the aggregate's erasable columns.  From then on every version that is published is without
them.

Two arguments meet here.  A transfer may have read the online rows before a sealed unit's erasure;
it does not publish them, since the unit's digest is by then another one, and a digest tells
canonical rows apart up to their order (`Class.CollisionFree`).  A rewrite holds a claim, and as
long as the claim is current nothing else is published: what it reads is the current version, which
is clean, and what it writes has the digest of what it read.  Both go through Verify, which has
read back the rows that are then published, if nobody replaces them (`CurrentCopies`).

`ErasedOk` is the invariant.  An erased aggregate is kept with the version from which on it is
erased; versions published before may still hold it until they are released.  Copies have their
rows' canonical keys, which is what `eraseAgain` compares with the root it was given: it finds the
rows of a root whose key is its canonical text, and of no other (`Class.Keyed`).
-/

namespace BeSdk.Tiering.Copies

open Function Tables List

/-- No row of the aggregate has a value in an erasable column. -/
def Clean {T D : Type} (cl : Class T D) (root : String) (rows : List Row) : Prop :=
  ∀ r ∈ rows, r.root = root → ∀ cell ∈ r.cells, cell.1 ∉ cl.erasable

section Wiped
variable {T D : Type}

def Class.canonicalRow (cl : Class T D) (r : Row) : Row := { r with root := cl.canonical r.root }

/-- Contents with one digest have the same canonical rows, in any order. -/
def Class.CollisionFree (cl : Class T D) : Prop :=
  ∀ content content', cl.digest content = cl.digest content' → ∀ t,
    ((content t).map cl.canonicalRow).Perm ((content' t).map cl.canonicalRow)

/-- A root's key is its canonical text, and that of no other root in a content. -/
def Class.Keyed (cl : Class T D) (content : Content T) (root : String) : Prop :=
  cl.canonical root = root ∧ ∀ t, ∀ r ∈ content t, cl.canonical r.root = root → r.root = root

/-- No row with the canonical key has a value in an erasable column, if the root is one of those
that are `keyed`. -/
def Wiped (cl : Class T D) (keyed : String → Prop) (root : String) (rows : List Row) : Prop :=
  keyed root → ∀ r ∈ rows, cl.canonical r.root = root → ∀ cell ∈ r.cells, cell.1 ∉ cl.erasable

variable {cl : Class T D} {keyed : String → Prop} {root : String} {rows rows' : List Row}

theorem Wiped.clean (h : Wiped cl keyed root rows) (hkeyed : keyed root)
    (hroot : cl.canonical root = root) : Clean cl root rows :=
  fun r hr heq => h hkeyed r hr (heq ▸ hroot)

theorem wiped_nil : Wiped cl keyed root [] := fun _ => nofun

theorem Wiped.of_subset (h : Wiped cl keyed root rows) (hsubset : ∀ r ∈ rows', r ∈ rows) :
    Wiped cl keyed root rows' :=
  fun hkeyed r hr => h hkeyed r (hsubset r hr)

theorem Wiped.perm (h : Wiped cl keyed root rows)
    (hperm : (rows'.map cl.canonicalRow).Perm (rows.map cl.canonicalRow)) :
    Wiped cl keyed root rows' := by
  intro hkeyed r hr hroot cell hcell
  obtain ⟨r₀, hr₀, hsame⟩ := mem_map.1 (hperm.mem_iff.1 (mem_map_of_mem hr))
  obtain ⟨hkey, hcells⟩ := Row.mk.inj hsame
  exact h hkeyed r₀ hr₀ (hkey.trans hroot) cell (hcells ▸ hcell)

variable {t : T} {content content' : Content T} {which : String → Prop} [DecidablePred which]

theorem wiped_nulls
    (h : keyed root → ∀ r ∈ content t, cl.canonical r.root = root → which r.root) :
    Wiped cl keyed root (cl.nulls which content t) := by
  intro hkeyed r hr hroot cell hcell
  obtain ⟨r₀, hr₀, rfl⟩ := mem_map.1 hr
  split at hroot
  next hwhich =>
    rw [if_pos hwhich] at hcell
    simpa using (mem_filter.1 hcell).2
  next hother => exact absurd (h hkeyed r₀ hr₀ hroot) hother

theorem Wiped.nulls (h : Wiped cl keyed root (content t)) :
    Wiped cl keyed root (cl.nulls which content t) := by
  intro hkeyed r hr hroot cell hcell
  obtain ⟨r₀, hr₀, rfl⟩ := mem_map.1 hr
  split at hroot
  next hwhich =>
    rw [if_pos hwhich] at hcell
    exact h hkeyed r₀ hr₀ hroot cell (mem_filter.1 hcell).1
  rename_i hother
  rw [if_neg hother] at hcell
  exact h hkeyed r₀ hr₀ hroot cell hcell

theorem Class.Keyed.of_roots (h : cl.Keyed content root)
    (hroots : ∀ t, ∀ r' ∈ content' t, ∃ r ∈ content t, r.root = r'.root) :
    cl.Keyed content' root := by
  refine ⟨h.1, fun t r' hr' hkey => ?_⟩
  obtain ⟨r, hr, hsame⟩ := hroots t r' hr'
  exact hsame ▸ h.2 t r hr (hsame ▸ hkey)

theorem nulls_root {r' : Row} (hr' : r' ∈ cl.nulls which content t) :
    ∃ r ∈ content t, r.root = r'.root := by
  obtain ⟨r, hr, rfl⟩ := mem_map.1 hr'
  refine ⟨r, hr, ?_⟩
  split <;> rfl

end Wiped

variable {T D : Type} {cl : Class T D} {keyed : String → Prop} {s s' : System T D} {w : Nat}
  {a : Action T}

/-- The claim of a process that has its content. -/
def Phase.writes : Phase T D → Option (Job × Claim D)
  | .copying job c _ _ _ | .verifying job c _ _ _ | .publishing job c _ => some (job, c)
  | _ => none

variable {job : Job} {c : Claim D}

theorem Phase.work_of_writes {phase : Phase T D}
    (h : phase.writes = some (job, c)) : phase.work = some (job, c) := by
  cases phase <;> first | exact h | cases h

structure ErasedOk (cl : Class T D) (keyed : String → Prop) (s : System T D) : Prop where
  versions : ∀ x n, (x, n) ∈ s.erased → n ≤ s.manifestVersion
  keys : ∀ x, keyed x → cl.Keyed s.online x
  online : ∀ x n, (x, n) ∈ s.erased → ∀ t, Wiped cl keyed x (s.online t)
  digest : s.state = .sealed → s.digest = cl.digest s.online
  gone : s.state = .released → ∀ t, s.online t = []
  releasing : s.releasing = true → s.state ≠ .sealed
  copies : ∀ x n v m, (x, n) ∈ s.erased → n ≤ v → s.manifests v = some m → ∀ t rows,
    Stored s m.route m.generation v t rows → Wiped cl keyed x rows
  -- what was read of a version so far
  route : ∀ w use f, s.procs w = .fetching use f →
    ∃ m, s.manifests f.version = some m ∧ m.route = f.route
  fetching : ∀ w use f, s.procs w = .fetching use f → ∀ x n, (x, n) ∈ s.erased →
    n ≤ f.version → ∀ t, Wiped cl keyed x (f.got t)
  -- a rewrite under the current claim reads and writes the current version's content
  rewriting : ∀ w job c f, s.procs w = .fetching (.rewrite job c) f → f.thawed = false ∧
    (c.generation = s.generation → f.version = s.manifestVersion)
  content : ∀ w job c, (s.procs w).writes = some (job, c) → c.generation = s.generation →
    c.state ≠ .sealed → ∃ content, cl.digest content = c.digest ∧
      (∀ x n, (x, n) ∈ s.erased → ∀ t, Wiped cl keyed x (content t)) ∧
      ∀ root, job = .erase root → ∀ t, Wiped cl keyed root (content t)
  -- what Verify has read back is all that can be published
  verifying : ∀ w job c route todo seen, s.procs w = .verifying job c route todo seen →
    c.generation = s.generation → ∀ t, t ∉ todo → ∀ rows,
    Stored s route c.generation c.version t rows → rows = seen t
  publishing : ∀ w job c route, s.procs w = .publishing job c route →
    c.generation = s.generation → ∃ content, cl.digest content = c.digest ∧
      ∀ t rows, Stored s route c.generation c.version t rows → rows = content t

theorem WorkOk.claims_ne_sealed {current version : Nat} (h : WorkOk current version job c)
    (hjob : ∀ route, job ≠ .transfer route) : c.state ≠ .sealed := by
  intro hsealed
  have hclaims := h.claims
  cases job with
  | transfer route => exact hjob route rfl
  | reroute route | erase root => simp [Job.claims, hsealed] at hclaims

variable [DecidableEq T] {x : String} {n : Nat} {use : Use D} {f : Fetch T} {route : Route}
  {rows : List Row}

/-- The content of a version that was read whole. -/
theorem ErasedOk.fetch_all (h : ErasedOk cl keyed s) {content : Content T}
    (hphase : s.procs w = .fetching use f) (hplain : f.thawed = false)
    (hfetch : s.fetchStep cl f = .all content) (hx : (x, n) ∈ s.erased) (hn : n ≤ f.version)
    (t : T) : Wiped cl keyed x (content t) := by
  obtain ⟨m, hm, hroute⟩ := h.route w use f hphase
  unfold System.fetchStep at hfetch
  rw [hm, hplain] at hfetch
  dsimp only at hfetch
  rw [if_neg (by decide)] at hfetch
  split at hfetch
  next hpostgres =>
    unfold System.whole at hfetch
    split at hfetch <;> cases hfetch
    refine h.copies x n f.version m hx hn hm t _ ?_
    rw [hroute, hpostgres]
    rfl
  · cases hfetch
    exact h.fetching w use f hphase x n hx hn t
  · split at hfetch <;> cases hfetch
  cases hfetch

theorem ErasedOk.fetch_more (h : ErasedOk cl keyed s) {f' : Fetch T}
    (hphase : s.procs w = .fetching use f) (hfetch : s.fetchStep cl f = .more f') :
    f'.version = f.version ∧ f'.route = f.route ∧ f'.thawed = f.thawed ∧
      ∀ x n, (x, n) ∈ s.erased → n ≤ f.version → ∀ t, Wiped cl keyed x (f'.got t) := by
  obtain ⟨m, hm, hroute⟩ := h.route w use f hphase
  unfold System.fetchStep at hfetch
  rw [hm] at hfetch
  dsimp only at hfetch
  have hwhole : ∀ rows : Content T, System.whole cl rows ≠ .more f' := by
    intro rows hmore
    unfold System.whole at hmore
    split at hmore <;> cases hmore
  split at hfetch
  · exact absurd hfetch (hwhole _)
  split at hfetch
  · exact absurd hfetch (hwhole _)
  · cases hfetch
  next t₀ todo hobject htodo =>
    split at hfetch <;> cases hfetch
    rename_i rows hrows
    refine ⟨rfl, rfl, rfl, fun x n hx hn t => ?_⟩
    rcases update_cases f.got t₀ rows t with ⟨rfl, hself⟩ | ⟨-, hother⟩
    · show Wiped cl keyed x (update f.got t rows t)
      rw [hself]
      refine h.copies x n f.version m hx hn hm t rows ?_
      rw [hroute, hobject]
      exact hrows
    show Wiped cl keyed x (update f.got t₀ rows t)
    rw [hother]
    exact h.fetching w use f hphase x n hx hn t
  cases hfetch

variable [DecidableEq D]

section
variable (h : VersionsOk s) (hcurrent : CurrentCopies s a) (hstep : step cl s a = some s')
include h hcurrent hstep

/-- What can be read of a published version after a step could be read before it. -/
theorem Stored.before {v : Nat} {m : Manifest D} (hm : s.manifests v = some m) {t : T}
    (hstored : Stored s' route m.generation v t rows) :
    Stored s route m.generation v t rows ∨ rows = [] := by
  have hle : v ≤ s.manifestVersion := ((h.manifests v).1 (hm ▸ rfl)).2
  cases route with
  | postgres =>
    rcases step_warm h hstep v t with
      hsame | ⟨hempty, -⟩ | ⟨w₂, job₂, c₂, content, todo, rfl, hphase, hversion, -⟩
    · exact .inl (hsame.symm.trans hstored)
    · exact .inr (hstored.symm.trans hempty)
    have := h.copied_version hcurrent hphase
    omega
  | object =>
    rcases step_objects h hstep ⟨m.generation, v, t⟩ with
      hsame | ⟨hnone, -⟩ | ⟨w₂, job₂, c₂, content, todo, rfl, hphase, hgeneration, -⟩
    · exact .inl (hsame.symm.trans hstored)
    · cases hnone.symm.trans hstored
    have hwork := congrArg Phase.work hphase
    exact absurd hgeneration.symm ((h.generations v m hm).2 w₂ job₂ c₂ hwork)
  | online => exact hstored.elim

/-- What can be read of the copy of a process that has left copying, under the current claim. -/
theorem Stored.before_claimed (hcopied : HasCopied s w job c)
    (hstored : Stored s' route c.generation c.version t rows) :
    Stored s route c.generation c.version t rows := by
  cases route with
  | postgres => exact (h.warm_claimed hcurrent hstep hcopied t).symm.trans hstored
  | object =>
    rcases step_objects h hstep ⟨c.generation, c.version, t⟩ with
      hsame | ⟨hnone, -⟩ | ⟨w₂, job₂, c₂, content, todo, rfl, hphase, hgeneration, -⟩
    · exact hsame.symm.trans hstored
    · cases hnone.symm.trans hstored
    exact absurd hgeneration.symm (h.not_copied hcopied hphase)
  | online => exact hstored.elim

end

theorem step_erased_mono (hstep : step cl s a = some s')
    (hx : (x, n) ∈ s.erased) : (x, n) ∈ s'.erased := by
  cases step_does hstep with
  | erase | eraseSealed => exact mem_cons_of_mem _ hx
  | _ => exact hx

/-- **Erased aggregates.** One that is new was erased in a sealed unit, or by the version that is
published. -/
theorem step_erased (hstep : step cl s a = some s') (hx : (x, n) ∈ s'.erased) :
    (x, n) ∈ s.erased ∨ (s.state = .sealed ∧ n = s.manifestVersion) ∨
      ∃ w c route, s.procs w = .publishing (.erase x) c route ∧ s.unchanged c = true ∧
        n = c.version ∧ s'.manifestVersion = c.version ∧ s'.procs w = .idle := by
  cases step_does hstep with
  | erase w root c route hphase hunchanged =>
    rcases mem_cons.1 hx with hnew | hold
    · cases hnew
      exact .inr (.inr ⟨w, c, route, hphase, hunchanged, rfl, rfl, update_self ..⟩)
    exact .inl hold
  | eraseSealed root hsealed =>
    rcases mem_cons.1 hx with hnew | hold
    · cases hnew
      exact .inr (.inl ⟨hsealed, rfl⟩)
    exact .inl hold
  | _ => exact .inl hx

/-- For a version that was there, only the aggregates erased before count. -/
theorem erased_before (h : VersionsOk s) (hstep : step cl s a = some s') {v : Nat}
    (hx : (x, n) ∈ s'.erased) (hn : n ≤ v) (hpos : 1 ≤ v) (hle : v ≤ s.manifestVersion) :
    (x, n) ∈ s.erased := by
  rcases step_erased hstep hx with hold | ⟨hsealed, -⟩ | ⟨w, c, route, -, hunchanged, rfl, -⟩
  · exact hold
  · have := h.sealed_iff.1 hsealed
    omega
  have := (unchanged_iff.1 hunchanged).2.1
  rw [Claim.version] at hn
  omega

/-- For a rewrite that still holds the current claim, too. -/
theorem erased_before_claimed (h : VersionsOk s) (hstep : step cl s a = some s')
    (hwork : (s.procs w).work = some (job, c)) (hclaim : c.generation = s.generation)
    (hstate : c.state ≠ .sealed) (hbusy : s'.procs w ≠ .idle)
    (hx : (x, n) ∈ s'.erased) : (x, n) ∈ s.erased := by
  have hok := h.works w job c hwork
  rcases step_erased hstep hx with
    hold | ⟨hsealed, -⟩ | ⟨w', c', route, hphase, hunchanged, -, -, hidle⟩
  · exact hold
  · have := h.sealed_iff.1 hsealed
    have := hok.base hclaim
    have := hok.state.resolve_left hstate
    omega
  have hwork' := congrArg Phase.work hphase
  have hsame : c'.generation = c.generation :=
    (unchanged_iff.1 hunchanged).2.2.1.symm.trans hclaim.symm
  obtain rfl : w' = w := h.unique w' w _ job c' c hwork' hwork hsame
  exact absurd hidle hbusy

theorem step_version_le (hstep : step cl s a = some s') :
    s.manifestVersion ≤ s'.manifestVersion := by
  rcases step_version hstep with ⟨hsame, -⟩ | ⟨w, job, c, route, -, hunchanged, hversion, -⟩
  · exact hsame.ge
  have := (unchanged_iff.1 hunchanged).2.1
  rw [hversion, Claim.version]
  omega

/-- Online rows are deleted and erased, and none is added. -/
theorem step_online (hstep : step cl s a = some s') (t : T) :
    ∀ r' ∈ s'.online t, ∃ r ∈ s.online t, r.root = r'.root := by
  intro r' hr'
  cases step_does hstep with
  | erase w root c route =>
    have hr' : r' ∈ (if c.state = .published then cl.erase root s.online else s.online) t := hr'
    split at hr'
    · exact nulls_root hr'
    exact ⟨r', hr', rfl⟩
  | eraseSealed root =>
    have hr' : r' ∈ cl.erase root s.online t := hr'
    exact nulls_root hr'
  | deleteOnline t₀ keep =>
    rcases update_cases s.online t₀ ((s.online t₀).filter keep) t with ⟨rfl, hself⟩ | ⟨-, hother⟩
    · have hr' : r' ∈ update s.online t ((s.online t).filter keep) t := hr'
      rw [hself] at hr'
      exact ⟨r', (mem_filter.1 hr').1, rfl⟩
    exact ⟨r', hother ▸ hr', rfl⟩
  | _ => exact ⟨r', hr', rfl⟩

/-- **The unit.** Online rows, state and digest after a step. -/
theorem ErasedOk.unit (h : ErasedOk cl keyed s) (hversions : VersionsOk s)
    (hstep : step cl s a = some s') :
    (∀ x n, (x, n) ∈ s'.erased → ∀ t, Wiped cl keyed x (s'.online t)) ∧
      (s'.state = .sealed → s'.digest = cl.digest s'.online) ∧
      (s'.state = .released → ∀ t, s'.online t = []) ∧
      (s'.releasing = true → s'.state ≠ .sealed) := by
  -- a publish leaves no sealed unit
  have hpublished : ∀ state : UnitState,
      (if state = .sealed then UnitState.published else state) ≠ .sealed := by
    intro state
    split
    · decide
    next hstate => exact hstate
  have hreleased : ∀ state : UnitState,
      (if state = .sealed then UnitState.published else state) = .released → state = .released := by
    intro state
    split
    · nofun
    exact id
  cases step_does hstep with
  | publish w job c route hphase hunchanged =>
    refine ⟨h.online, fun hsealed => absurd hsealed (hpublished _), fun hstate => ?_, ?_⟩
    · exact h.gone (hreleased _ hstate)
    exact fun _ => hpublished _
  | erase w root c route hphase hunchanged =>
    have hstate : s.state = c.state := (unchanged_iff.1 hunchanged).1
    have hclaims := (hversions.works w (.erase root) c (hphase ▸ rfl)).claims
    have hnow : c.state = .published ∨ c.state = .released := by simpa [Job.claims] using hclaims
    refine ⟨fun x n hx t => ?_, fun hsealed => absurd hsealed (hpublished _), fun hgone => ?_, ?_⟩
    · show Wiped cl keyed x ((if c.state = .published then cl.erase root s.online else s.online) t)
      rcases hnow with hnow | hnow
      · rw [if_pos hnow]
        rcases mem_cons.1 hx with hnew | hold
        · cases hnew
          exact wiped_nulls fun hkeyed r hr => (h.keys root hkeyed).2 t r hr
        exact (h.online x n hold t).nulls
      rw [if_neg (by rw [hnow]; decide), h.gone (hstate.trans hnow) t]
      exact wiped_nil
    · have hgone : s.state = .released := hreleased _ hgone
      show ∀ t, (if c.state = .published then cl.erase root s.online else s.online) t = []
      rw [if_neg (by rw [← hstate, hgone]; decide)]
      exact h.gone hgone
    exact fun _ => hpublished _
  | eraseSealed root hsealed =>
    refine ⟨fun x n hx t => ?_, fun _ => rfl, fun hgone => ?_, h.releasing⟩
    · show Wiped cl keyed x (cl.nulls (· = root) s.online t)
      rcases mem_cons.1 hx with hnew | hold
      · cases hnew
        exact wiped_nulls fun hkeyed r hr => (h.keys root hkeyed).2 t r hr
      exact (h.online x n hold t).nulls
    cases hsealed.symm.trans hgone
  | release hpublished =>
    exact ⟨h.online, h.digest, h.gone, fun _ hsealed => by cases hpublished.symm.trans hsealed⟩
  | deleteOnline t keep hreleasing =>
    refine ⟨fun x n hx t' => (h.online x n hx t').of_subset fun r hr => ?_,
      fun hsealed => absurd hsealed (h.releasing hreleasing), fun hgone t' => ?_, h.releasing⟩
    · rcases update_cases s.online t ((s.online t).filter keep) t' with ⟨rfl, hself⟩ | ⟨-, hother⟩
      · rw [show ({ s with online := _ } : System T D).online t' = _ from hself] at hr
        exact (mem_filter.1 hr).1
      exact hother ▸ hr
    rcases update_cases s.online t ((s.online t).filter keep) t' with ⟨rfl, hself⟩ | ⟨-, hother⟩
    · refine hself.trans ?_
      rw [h.gone hgone, filter_nil]
    exact hother.trans (h.gone hgone t')
  | released hempty =>
    refine ⟨h.online, fun hsealed => ?_, fun _ t => ?_, fun hreleasing hsealed => ?_⟩
    · refine h.digest ?_
      by_contra hstate
      have hsealed : (if s.state = .published then UnitState.released else s.state) = .sealed :=
        hsealed
      split at hsealed
      · cases hsealed
      exact hstate hsealed
    · exact isEmpty_iff.1 (all_eq_true.1 hempty t (cl.complete t))
    have hsealed : (if s.state = .published then UnitState.released else s.state) = .sealed :=
      hsealed
    split at hsealed
    · cases hsealed
    exact h.releasing hreleasing hsealed
  | _ => exact ⟨h.online, h.digest, h.gone, h.releasing⟩

theorem ErasedOk.copies_step (hfree : cl.CollisionFree) (h : ErasedOk cl keyed s)
    (hversions : VersionsOk s) (hcurrent : CurrentCopies s a) (hstep : step cl s a = some s')
    {v : Nat} {m' : Manifest D} (hx : (x, n) ∈ s'.erased) (hn : n ≤ v)
    (hm' : s'.manifests v = some m')
    (hstored : Stored s' m'.route m'.generation v t rows) : Wiped cl keyed x rows := by
  -- a version that was there, and nobody has written
  have hthere : ∀ m, s.manifests v = some m → m'.route = m.route → m'.generation = m.generation →
      Wiped cl keyed x rows := by
    intro m hm hroute hgeneration
    obtain ⟨hpos, hle⟩ := (hversions.manifests v).1 (hm ▸ rfl)
    have hx : (x, n) ∈ s.erased := erased_before hversions hstep hx hn hpos hle
    rw [hroute, hgeneration] at hstored
    rcases hstored.before hversions hcurrent hstep hm with hbefore | rfl
    · exact h.copies x n v m hx hn hm t rows hbefore
    exact wiped_nil
  rcases step_version hstep with ⟨-, hmanifests⟩ |
    ⟨w, job, c, route, hphase, hunchanged, hversion, hmanifests, hwarm, hobjects, hnew⟩
  · obtain ⟨m, hm, hroute, hgeneration, -⟩ := hmanifests v m' hm'
    exact hthere m hm hroute hgeneration
  rw [hmanifests] at hm'
  rcases update_eq_some hm' with ⟨rfl, rfl⟩ | ⟨-, hm⟩
  · -- the version that is published now has the content Verify read back
    obtain ⟨hstate, -, hgeneration, -, -, hwas⟩ := unchanged_iff.1 hunchanged
    have hwork := congrArg Phase.work hphase
    have hok := hversions.works w job c hwork
    obtain ⟨content, hdigest, hread⟩ := h.publishing w job c route hphase hgeneration.symm
    have hrows : rows = content t := by
      refine hread t rows ?_
      unfold Stored at hstored ⊢
      rwa [hwarm, hobjects] at hstored
    rw [hrows]
    by_cases hsealed : c.state = .sealed
    · have honline : cl.digest content = cl.digest s.online := by
        rw [hdigest, hok.digest hsealed, ← hwas, h.digest (hstate.trans hsealed)]
      rcases hnew x n hx with hold | rfl
      · exact (h.online x n hold t).perm (hfree _ _ honline t)
      have hclaims := hok.claims
      simp [Job.claims, hsealed] at hclaims
    obtain ⟨clean, hcontent, hold, hnow⟩ := h.content w job c (hphase ▸ rfl)
      hgeneration.symm hsealed
    have hperm := hfree _ _ (hdigest.trans hcontent.symm) t
    rcases hnew x n hx with hx | hjob
    · exact (hold x n hx t).perm hperm
    exact (hnow x hjob t).perm hperm
  exact hthere m' hm rfl rfl

section
variable (h : ErasedOk cl keyed s) (hversions : VersionsOk s) (hstep : step cl s a = some s')
include h hversions hstep

/-- A version that is read is still published. -/
theorem ErasedOk.route_step (hphase' : s'.procs w = .fetching use f) :
    ∃ m, s'.manifests f.version = some m ∧ m.route = f.route := by
  -- the manifest of a version that is being read
  have hroute : ∀ w use f, s.procs w = .fetching use f →
      ∃ m, s'.manifests f.version = some m ∧ m.route = f.route := by
    intro w use f hphase
    obtain ⟨m, hm, hroute⟩ := h.route w use f hphase
    obtain ⟨m', hm', hroute', -⟩ := step_manifest hversions hstep hm
    exact ⟨m', hm', hroute'.trans hroute⟩
  -- a read that begins, of the current version
  have hbegins : 1 ≤ s.manifestVersion →
      ∃ m, s'.manifests s.manifestVersion = some m ∧ m.route = s.route := by
    intro hpos
    obtain ⟨m, hm⟩ := hversions.exists_manifest hpos (Nat.le_refl _)
    obtain ⟨m', hm', hroute', -⟩ := step_manifest hversions hstep hm
    exact ⟨m', hm', hroute'.trans (hversions.current m hm).1⟩
  have hrouted : s.route ≠ .online → 1 ≤ s.manifestVersion := by
    intro honline
    by_contra hzero
    exact honline (hversions.online (by omega))
  rcases step_from hstep hphase' with hphase | ⟨old, hold, hmove⟩
  · exact hroute w use f hphase
  · cases hmove with
    | find job c hjob =>
      have hok := hversions.works w job c (hold ▸ rfl)
      have hstate : c.state ≠ .sealed := hok.claims_ne_sealed hjob
      have := hok.state.resolve_left hstate
      exact hbegins (this.trans hok.behind)
    | thaw honline | get honline => exact hbegins (hrouted honline)
    | more use f f' hfetch =>
      obtain ⟨hversion, hsame, -⟩ := h.fetch_more hold hfetch
      rw [hversion, hsame]
      exact hroute w use f hold

theorem ErasedOk.fetching_step (hphase' : s'.procs w = .fetching use f) (hx : (x, n) ∈ s'.erased)
    (hn : n ≤ f.version) (t : T) : Wiped cl keyed x (f.got t) := by
  have hbounds : ∀ w use f, s.procs w = .fetching use f →
      1 ≤ f.version ∧ f.version ≤ s.manifestVersion := by
    intro w use f hphase
    obtain ⟨m, hm, -⟩ := h.route w use f hphase
    exact (hversions.manifests f.version).1 (hm ▸ rfl)
  rcases step_from hstep hphase' with hphase | ⟨old, hold, hmove⟩
  · obtain ⟨hpos, hle⟩ := hbounds w use f hphase
    exact h.fetching w use f hphase x n (erased_before hversions hstep hx hn hpos hle) hn t
  · cases hmove with
    | more use f f' hfetch =>
      obtain ⟨hversion, -, -, hclean⟩ := h.fetch_more hold hfetch
      obtain ⟨hpos, hle⟩ := hbounds w use f hold
      rw [hversion] at hn
      exact hclean x n (erased_before hversions hstep hx hn hpos hle) hn t
    | _ => exact wiped_nil

theorem ErasedOk.rewriting_step (hphase' : s'.procs w = .fetching (.rewrite job c) f) :
    f.thawed = false ∧ (c.generation = s'.generation → f.version = s'.manifestVersion) := by
  have hversions' : VersionsOk s' := step_versionsOk hversions hstep
  have hwork' := congrArg Phase.work hphase'
  -- while the claim is current the version is its base
  have hbase : (s.procs w).work = some (job, c) → c.generation = s'.generation →
      s.manifestVersion = s'.manifestVersion := by
    intro hwork hclaim'
    have hclaim := current_before hversions hstep hwork hclaim'
    exact ((hversions.works w job c hwork).base hclaim).symm.trans
      ((hversions'.works w job c hwork').base hclaim')
  rcases step_from hstep hphase' with hphase | ⟨old, hold, hmove⟩
  · have hwork := congrArg Phase.work hphase
    obtain ⟨hplain, hversion⟩ := h.rewriting w job c f hphase
    refine ⟨hplain, fun hclaim' => ?_⟩
    rw [hversion (current_before hversions hstep hwork hclaim'), hbase hwork hclaim']
  · cases hmove with
    | find job c hjob => exact ⟨rfl, hbase (hold ▸ rfl)⟩
    | more use f f' hfetch =>
      have hwork := congrArg Phase.work hold
      obtain ⟨hversion, -, hthawed, -⟩ := h.fetch_more hold hfetch
      obtain ⟨hplain, hcurrent'⟩ := h.rewriting w job c f hold
      refine ⟨hthawed.trans hplain, fun hclaim' => ?_⟩
      rw [hversion, hcurrent' (current_before hversions hstep hwork hclaim'), hbase hwork hclaim']

/-- The content under the current claim has nothing of what was erased. -/
theorem ErasedOk.content_step (hwrites' : (s'.procs w).writes = some (job, c))
    (hclaim' : c.generation = s'.generation) (hstate : c.state ≠ .sealed) :
    ∃ content, cl.digest content = c.digest ∧
      (∀ x n, (x, n) ∈ s'.erased → ∀ t, Wiped cl keyed x (content t)) ∧
      ∀ root, job = .erase root → ∀ t, Wiped cl keyed root (content t) := by
  have hbusy : s'.procs w ≠ .idle := by
    intro hidle
    rw [hidle] at hwrites'
    cases hwrites'
  -- a process that has its content keeps it
  have hkeep : (s.procs w).writes = some (job, c) → ∃ content, cl.digest content = c.digest ∧
      (∀ x n, (x, n) ∈ s'.erased → ∀ t, Wiped cl keyed x (content t)) ∧
      ∀ root, job = .erase root → ∀ t, Wiped cl keyed root (content t) := by
    intro hwrites
    have hwork := Phase.work_of_writes hwrites
    have hclaim := current_before hversions hstep hwork hclaim'
    obtain ⟨content, hdigest, hclean, hroot⟩ := h.content w job c hwrites hclaim hstate
    refine ⟨content, hdigest, fun x n hx => ?_, hroot⟩
    exact hclean x n (erased_before_claimed hversions hstep hwork hclaim hstate hbusy hx)
  -- what a rewrite has read is the current version
  have hread : ∀ job c f content, s.procs w = .fetching (.rewrite job c) f →
      c.generation = s'.generation → c.state ≠ .sealed → s.fetchStep cl f = .all content →
      ∀ x n, (x, n) ∈ s'.erased → ∀ t, Wiped cl keyed x (content t) := by
    intro job c f content hphase hclaim' hstate hfetch x n hx t
    have hwork := congrArg Phase.work hphase
    have hclaim := current_before hversions hstep hwork hclaim'
    have hx := erased_before_claimed hversions hstep hwork hclaim hstate hbusy hx
    obtain ⟨hplain, hversion⟩ := h.rewriting w job c f hphase
    exact h.fetch_all hphase hplain hfetch hx (by rw [hversion hclaim]; exact h.versions x n hx) t
  rcases step_moves hstep w with hsame | hmove
  · exact hkeep (hsame ▸ hwrites')
  generalize hold : s.procs w = old at hmove
  generalize s'.procs w = new at hmove hwrites'
  cases hmove with
  | load route c =>
    cases hwrites'
    have hclaims := (hversions.works w _ c (by rw [hold]; rfl)).claims
    exact absurd (by simpa [Job.claims] using hclaims) hstate
  | erase root c f content hfetch =>
    cases hwrites'
    refine ⟨cl.eraseAgain root content, rfl, fun x n hx t => ?_, ?_⟩
    · exact (hread _ c f content hold hclaim' hstate hfetch x n hx t).nulls
    rintro _ ⟨⟩ t
    exact wiped_nulls fun _ _ _ hroot => hroot
  | reroute route c f content hfetch =>
    cases hwrites'
    refine ⟨content, rfl, hread _ c f content hold hclaim' hstate hfetch, ?_⟩
    rintro _ ⟨⟩
  | copy | check | verify | accept => exact hkeep (by rw [hold]; exact hwrites')
  | _ => cases hwrites'

variable (hcurrent : CurrentCopies s a)
include hcurrent

theorem ErasedOk.verifying_step {todo : List T} {seen : Content T}
    (hphase' : s'.procs w = .verifying job c route todo seen)
    (hclaim' : c.generation = s'.generation) (ht : t ∉ todo)
    (hstored : Stored s' route c.generation c.version t rows) : rows = seen t := by
  rcases step_from hstep hphase' with hphase | ⟨old, hold, hmove⟩
  · have hcopied := HasCopied.before hversions hstep hphase rfl nofun hclaim'
    exact h.verifying w job c route todo seen hphase hcopied.claim t ht rows
      (hstored.before_claimed hversions hcurrent hstep hcopied)
  · cases hmove with
    | check job c route content => exact absurd (cl.complete t) ht
    | verify job c route t₀ todo seen rows₀ hrows₀ =>
      have hcopied := HasCopied.before hversions hstep hold rfl nofun hclaim'
      have hbefore := hstored.before_claimed hversions hcurrent hstep hcopied
      rcases update_cases seen t₀ rows₀ t with ⟨rfl, hself⟩ | ⟨hne, hother⟩
      · rw [hself]
        exact hbefore.unique hrows₀
      rw [hother]
      exact h.verifying w job c route _ seen hold hcopied.claim t (by simp [hne, ht]) rows hbefore

theorem ErasedOk.publishing_step (hphase' : s'.procs w = .publishing job c route)
    (hclaim' : c.generation = s'.generation) : ∃ content, cl.digest content = c.digest ∧
      ∀ t rows, Stored s' route c.generation c.version t rows → rows = content t := by
  rcases step_from hstep hphase' with hphase | ⟨old, hold, hmove⟩
  · have hcopied := HasCopied.before hversions hstep hphase rfl nofun hclaim'
    obtain ⟨content, hdigest, hread⟩ := h.publishing w job c route hphase hcopied.claim
    exact ⟨content, hdigest, fun t rows hstored => hread t rows
      (hstored.before_claimed hversions hcurrent hstep hcopied)⟩
  · cases hmove with
    | accept job c route seen hdigest =>
      have hcopied := HasCopied.before hversions hstep hold rfl nofun hclaim'
      refine ⟨seen, hdigest, fun t rows hstored => ?_⟩
      exact h.verifying w job c route _ seen hold hcopied.claim t not_mem_nil rows
        (hstored.before_claimed hversions hcurrent hstep hcopied)

end

theorem step_erasedOk (hfree : cl.CollisionFree) (hversions : VersionsOk s)
    (hcurrent : CurrentCopies s a) (h : ErasedOk cl keyed s) (hstep : step cl s a = some s') :
    ErasedOk cl keyed s' := by
  obtain ⟨honline, hdigest, hgone, hreleasing⟩ := h.unit hversions hstep
  constructor
  case keys => exact fun x hx => (h.keys x hx).of_roots (step_online hstep)
  case online => exact honline
  case digest => exact hdigest
  case gone => exact hgone
  case releasing => exact hreleasing
  case versions =>
    intro x n hx
    rcases step_erased hstep hx with hold | ⟨-, rfl⟩ | ⟨w, c, route, -, -, rfl, hversion, -⟩
    · exact (h.versions x n hold).trans (step_version_le hstep)
    · exact step_version_le hstep
    exact hversion.ge
  case copies =>
    intro x n v m hx hn hm t rows hstored
    exact h.copies_step hfree hversions hcurrent hstep hx hn hm hstored
  case route => exact fun w use f => h.route_step hversions hstep
  case fetching => exact fun w use f hphase x n => h.fetching_step hversions hstep hphase
  case rewriting => exact fun w job c f => h.rewriting_step hversions hstep
  case content => exact fun w job c => h.content_step hversions hstep
  case verifying =>
    intro w job c route todo seen hphase hclaim t ht rows
    exact h.verifying_step hversions hstep hcurrent hphase hclaim ht
  case publishing => exact fun w job c route => h.publishing_step hversions hstep hcurrent

end BeSdk.Tiering.Copies

import BeSdk.Projection.Refetch

/-!
# What a completed alignment leaves

The invariant of the whole system of `Alignment.lean`, over the one of its current run
(`Refetch.Inv`), and what it gives when that run completes. The writes of every other run are
refused, so a step only has to be checked against the current one: `AlignState.Inv.write` says this
once for the transactions of runs, and inputs, changes at the source and everything that touches
neither rows nor sources follow with one lemma each.

Two interleavings break the invariant, and the condition `Orderly` names them: an `Apply` whose
write finds another row or another adopted identity than it read, and rows received under a run's
generation before the run has learned its source, where it learns another one.
-/

namespace BeSdk.Projection

open Runs Option Function List AList AlignState

/-! ## One step -/

section Invariant
variable {J : Type}

structure AlignState.Inv (s : AlignState J) : Prop where
  runs : ∀ p f, s.runs p = some f → f.run.Current s.src → f.Inv s
  gens : ∀ p f, s.runs p = some f → f.run.gen ≤ s.src.alignGen
  distinct : ∀ p q f g, s.runs p = some f → s.runs q = some g → f.run.gen = g.run.gen → p = q
  marks : ∀ id (r : Stored J) g, s.rows.lookup id = some r → r.alignedGen = some g →
    g ≤ s.src.alignGen
  wellFormed : ∀ id (r : Stored J), s.rows.lookup id = some r → r.WellFormed
  -- No record of the source is older than at P0.
  moved : ∀ p f, s.runs p = some f → ∀ site id (fact : Fact J), (f.p0 site).lookup id = some fact →
    ∃ now, (s.sources site).lookup id = some now ∧ fact.version ≤ now.version
  applies : ∀ id t, s.applies id = some t → t.src.Accepts t.input ∧ t.input.recordID = id

variable {s : AlignState J}

theorem AlignState.Inv.drop (h : s.Inv) (p : Nat) : (s.setRun p none).Inv := by
  have hruns {q : Nat} {g : Refetch J} (hg : (s.setRun p none).runs q = some g) :
      s.runs q = some g := by
    by_cases hq : q = p
    · subst hq
      simp [AlignState.setRun] at hg
    simpa [AlignState.setRun, update_of_ne hq] using hg
  constructor
  · intro q g hg hcurrent
    exact (h.runs q g (hruns hg) hcurrent).transfer rfl rfl rfl rfl rfl
  · exact fun q g hg => h.gens q g (hruns hg)
  · exact fun q q' g g' hg hg' => h.distinct q q' g g' (hruns hg) (hruns hg')
  · exact h.marks
  · exact h.wellFormed
  · exact fun q g hg => h.moved q g (hruns hg)
  exact h.applies

variable {p : Nat} {f : Refetch J}

/-- The run goes on to another phase and nothing else changes. -/
theorem AlignState.Inv.proceed {f' : Refetch J} (h : s.Inv) (hf : s.runs p = some f)
    (hgen : f'.run.gen = f.run.gen) (hp0 : f'.p0 = f.p0 ∨ f'.p0 = s.sources)
    (hinv : f.Inv s → f'.Inv s) : (s.setRun p (some f')).Inv := by
  have hruns {q : Nat} {g : Refetch J} (hg : (s.setRun p (some f')).runs q = some g) :
      q = p ∧ g = f' ∨ q ≠ p ∧ s.runs q = some g := by
    by_cases hq : q = p
    · subst hq
      refine .inl ⟨rfl, ?_⟩
      simpa [AlignState.setRun] using hg.symm
    exact .inr ⟨hq, by simpa [AlignState.setRun, update_of_ne hq] using hg⟩
  constructor
  · intro q g hg hcurrent
    rcases hruns hg with ⟨_, rfl⟩ | ⟨_, hg⟩
    · have hbefore : f.run.Current s.src := Eq.trans hcurrent hgen
      exact (hinv (h.runs p f hf hbefore)).transfer rfl rfl rfl rfl rfl
    exact (h.runs q g hg hcurrent).transfer rfl rfl rfl rfl rfl
  · intro q g hg
    rcases hruns hg with ⟨_, rfl⟩ | ⟨_, hg⟩
    · exact hgen ▸ h.gens p f hf
    exact h.gens q g hg
  · intro q q' g g' hg hg' hsame
    rcases hruns hg with ⟨rfl, rfl⟩ | ⟨_, hold⟩ <;> rcases hruns hg' with ⟨rfl, rfl⟩ | ⟨_, hold'⟩
    · rfl
    · exact h.distinct _ _ f g' hf hold' (hgen ▸ hsame)
    · exact h.distinct _ _ g f hold hf (hgen ▸ hsame)
    exact h.distinct _ _ g g' hold hold' hsame
  · exact h.marks
  · exact h.wellFormed
  · intro q g hg
    rcases hruns hg with ⟨_, rfl⟩ | ⟨_, hg⟩
    · rcases hp0 with hp0 | hp0 <;> rw [hp0]
      · exact h.moved p f hf
      exact fun _ _ fact hfact => ⟨fact, hfact, le_refl _⟩
    exact h.moved q g hg
  exact h.applies

/-- At most one run is of the current generation. -/
theorem AlignState.Inv.only_current {q : Nat} {g : Refetch J} (h : s.Inv)
    (hf : s.runs p = some f) (hcurrent : f.run.Current s.src) (hg : s.runs q = some g)
    (hcurrent' : g.run.Current s.src) : q = p :=
  h.distinct q p g f hg hf (Eq.trans (Eq.symm hcurrent') hcurrent)

/-- A transaction of the current run, which nobody else's invariant speaks of: it suffices that its
own next state is right. -/
theorem AlignState.Inv.write
    {f' : Option (Refetch J)} (h : s.Inv) (s₁ : AlignState J) (hf : s.runs p = some f)
      (hcurrent : f.run.Current s.src)
    (hruns : s₁.runs = s.runs) (hgen : s₁.src.alignGen = s.src.alignGen)
    (hsources : s₁.sources = s.sources) (happlies : s₁.applies = s.applies)
    (hmarks : ∀ id (r : Stored J) g, s₁.rows.lookup id = some r → r.alignedGen = some g →
      g ≤ s.src.alignGen) (hwf : ∀ id (r : Stored J), s₁.rows.lookup id = some r → r.WellFormed)
    (hnext : ∀ g, f' = some g → g.run.gen = f.run.gen ∧ g.p0 = f.p0 ∧ g.Inv s₁) :
    (s₁.setRun p f').Inv := by
  have hcases {q : Nat} {g : Refetch J} (hg : (s₁.setRun p f').runs q = some g) :
      q = p ∧ f' = some g ∨ q ≠ p ∧ s.runs q = some g := by
    by_cases hq : q = p
    · subst hq
      exact .inl ⟨rfl, by simpa [AlignState.setRun] using hg⟩
    refine .inr ⟨hq, ?_⟩
    rw [← hruns]
    simpa [AlignState.setRun, update_of_ne hq] using hg
  constructor
  · intro q g hg hcurrent'
    rcases hcases hg with ⟨_, hg⟩ | ⟨hq, hg⟩
    · exact (hnext g hg).2.2.transfer rfl rfl rfl rfl rfl
    exact absurd (h.only_current hf hcurrent hg (hgen.symm.trans hcurrent')) hq
  · intro q g hg
    refine le_of_le_of_eq ?_ hgen.symm
    rcases hcases hg with ⟨_, hg⟩ | ⟨_, hg⟩
    · exact (hnext g hg).1.trans_le (h.gens p f hf)
    exact h.gens q g hg
  · intro q q' g g' hg hg' hsame
    rcases hcases hg with ⟨rfl, hnew⟩ | ⟨_, hold⟩ <;> rcases hcases hg' with ⟨rfl, hnew'⟩ |
      ⟨_, hold'⟩
    · rfl
    · exact h.distinct _ _ f g' hf hold' ((hnext g hnew).1.symm.trans hsame)
    · exact h.distinct _ _ g f hold hf (hsame.trans (hnext g' hnew').1)
    exact h.distinct _ _ g g' hold hold' hsame
  · exact fun id r g hr hmark => (hmarks id r g hr hmark).trans_eq hgen.symm
  · exact hwf
  · intro q g hg
    have hmoved : ∀ site id (fact : Fact J), (g.p0 site).lookup id = some fact →
        ∃ now, (s.sources site).lookup id = some now ∧ fact.version ≤ now.version := by
      rcases hcases hg with ⟨_, hg⟩ | ⟨_, hg⟩
      · rw [(hnext g hg).2.1]
        exact h.moved p f hf
      exact h.moved q g hg
    rwa [← hsources] at hmoved
  intro id t ht
  exact h.applies id t (happlies ▸ ht)

theorem Run.afterPut_gen {r run : Run J} (hafter : r.afterPut = some run) : run.gen = r.gen := by
  unfold Run.afterPut at hafter
  split at hafter
  · cases hafter
    rfl
  · obtain ⟨_, ⟨⟩⟩ := ite_none_right_eq_some.mp hafter
    rfl
  cases hafter

section
variable (h : s.Inv)
include h

/-- The current run writes a page or the reads of a round. -/
theorem AlignState.Inv.put (hf : s.runs p = some f)
    (hphase : (∃ cursor page, f.run.phase = .putting cursor page) ∨
      ∃ ids results, f.run.phase = .answered ids results)
    (hcurrent : f.run.Current s.src) : (s.putPending p f).Inv := by
  have hmarks := putAll_rows (r := f.run)
    (P := fun _ row => ∀ g, row.alignedGen = some g → g ≤ s.src.alignGen) s.rows
    (f.run.pending f.purgedAt) (fun id row hrow g => h.marks id row g hrow)
    (fun a _ g hg => by cases hg; exact h.gens p f hf)
  have hwf := putAll_rows (r := f.run) (P := fun _ row => row.WellFormed) s.rows
    (f.run.pending f.purgedAt) h.wellFormed fun a ha hstate => absurd hstate (Run.pending_state ha)
  refine h.write { s with rows := f.run.putAll s.rows (f.run.pending f.purgedAt) } hf
    hcurrent rfl rfl rfl rfl (fun id row g hrow => hmarks id row hrow g) hwf fun g hg => ?_
  obtain ⟨run, hafter, rfl⟩ := map_eq_some_iff.mp hg
  exact ⟨Run.afterPut_gen hafter, rfl, (h.runs p f hf hcurrent).put hphase hafter⟩

/-- A run that learned its source writes it. What it has touched so far are inputs of the stream,
and they are of this source. -/
theorem AlignState.Inv.learn {page : Page J}
    (hf : s.runs p = some f) (hphase : f.run.phase = .learning page)
    (hcurrent : f.run.Current s.src)
    (hsite : ∀ id r, s.rows.lookup id = some r → r.alignedGen = some f.run.gen →
      r.impl = f.run.want.impl ∧ r.epoch = f.run.want.epoch) :
    ({ s with src := f.run.adopt s.src }.setRun p
      (some { f with run := { f.run with phase := .putting "" page } })).Inv := by
  have hinv := h.runs p f hf hcurrent
  have hlearn := hinv.learn_eq_false (by simp [hphase]) (by simp [hphase])
  have hanswers : f.answers = [] := hinv.unnamed fun hnamed => hnamed.2 page hphase
  refine h.write { s with src := f.run.adopt s.src } hf hcurrent rfl rfl rfl rfl h.marks
    h.wellFormed fun g hg => ?_
  cases hg
  refine ⟨rfl, rfl, ⟨?_, ?_⟩, fun _ => ⟨hinv.learning page hphase, rfl, rfl⟩, fun _ => hanswers,
    fun hnot => absurd (hnot.symm.trans hlearn) (by simp), by simp, ?_, by simp⟩
  · intro id r hr htouched
    have hgood := hinv.tracks.good id r hr htouched
    have hmark : r.alignedGen = some f.run.gen := by
      rcases htouched with hmark | ⟨a, ha, _⟩
      · exact hmark
      rw [hanswers] at ha
      cases ha
    exact ⟨fun _ => hsite id r hr hmark, hgood.newest, hgood.holds⟩
  · exact hinv.tracks.present
  have hcovers := hinv.covers
  rw [Refetch.Covers, hphase] at hcovers
  exact ⟨Refetch.behind_empty _ _, hcovers⟩

/-- A new run starts a generation that no row and no other run has. -/
theorem AlignState.Inv.begin {want : Identity} {status : Status}
    (hwant : want.impl = "" ↔ want.epoch = "") : ({ s with src := s.src.begin want status }.setRun p
      (some ⟨Run.ofBegin s.src want, s.sources, fun _ => none, []⟩)).Inv := by
  have hcases {q : Nat} {g : Refetch J} (hg : update s.runs p
      (some ⟨Run.ofBegin s.src want, s.sources, fun _ => none, []⟩) q = some g) :
      q = p ∧ g = ⟨Run.ofBegin s.src want, s.sources, fun _ => none, []⟩ ∨
        s.runs q = some g ∧ g.run.gen ≤ s.src.alignGen := by
    by_cases hq : q = p
    · subst hq
      exact .inl ⟨rfl, by simpa using hg.symm⟩
    rw [update_of_ne hq] at hg
    exact .inr ⟨hg, h.gens q g hg⟩
  constructor
  · intro q g hg hcurrent
    rcases hcases hg with ⟨_, rfl⟩ | ⟨_, hle⟩
    · refine ⟨⟨?_, by simp⟩, ?_, fun _ => rfl, fun _ => .inl rfl, by simp [Run.ofBegin], trivial,
        by simp [Run.ofBegin]⟩
      · intro id r hr htouched
        rcases htouched with hmark | ⟨a, ha, _⟩
        · exact absurd (h.marks id r _ hr hmark) (Nat.not_succ_le_self _)
        cases ha
      rintro ⟨hlearn, _⟩
      have himpl : want.impl ≠ "" := by simpa [Run.ofBegin] using hlearn
      have hepoch : want.epoch ≠ "" := fun hempty => himpl (hwant.mpr hempty)
      simp [AlignState.setRun, SourceRow.begin, Run.ofBegin, himpl, hepoch]
    have hgen : s.src.alignGen + 1 = g.run.gen := hcurrent
    omega
  · intro q g hg
    rcases hcases hg with ⟨_, rfl⟩ | ⟨_, hle⟩
    · exact le_refl _
    exact hle.trans (Nat.le_succ _)
  · intro q q' g g' hg hg' hsame
    rcases hcases hg with ⟨rfl, rfl⟩ | ⟨hold, hle⟩ <;> rcases hcases hg' with ⟨rfl, rfl⟩ |
      ⟨hold', hle'⟩
    · rfl
    · simp only [Run.ofBegin] at hsame
      omega
    · simp only [Run.ofBegin] at hsame
      omega
    exact h.distinct _ _ g g' hold hold' hsame
  · exact fun id r g hr hmark => (h.marks id r g hr hmark).trans (Nat.le_succ _)
  · exact h.wellFormed
  · intro q g hg
    rcases hcases hg with ⟨_, rfl⟩ | ⟨hold, _⟩
    · exact fun _ _ fact hfact => ⟨fact, hfact, le_refl _⟩
    exact h.moved q g hold
  exact h.applies

/-- Neither the status nor the inputs in progress matter to the runs. -/
theorem AlignState.Inv.transfer {s' : AlignState J} (hruns : s'.runs = s.runs)
    (hgen : s'.src.alignGen = s.src.alignGen) (himpl : s'.src.impl = s.src.impl)
    (hepoch : s'.src.epoch = s.src.epoch) (hrows : s'.rows = s.rows)
    (hsources : s'.sources = s.sources) (hreceived : s'.received = s.received)
    (happlies : ∀ id t, s'.applies id = some t →
      t.src.Accepts t.input ∧ t.input.recordID = id) : s'.Inv := by
  constructor
  · intro p f hf hcurrent
    rw [hruns] at hf
    exact (h.runs p f hf (hgen.symm.trans hcurrent)).transfer himpl hepoch hrows hsources hreceived
  · rw [hruns, hgen]
    exact h.gens
  · rw [hruns]
    exact h.distinct
  · rw [hrows, hgen]
    exact h.marks
  · rw [hrows]
    exact h.wellFormed
  · rw [hruns, hsources]
    exact h.moved
  exact happlies

/-- An `Apply` has read what it needs, or is over. -/
theorem AlignState.Inv.applies_update (id : String) (next : Option (Applying J))
    (hnext : ∀ t, next = some t → t.src.Accepts t.input ∧ t.input.recordID = id) :
    ∀ id' t, update s.applies id next id' = some t →
      t.src.Accepts t.input ∧ t.input.recordID = id' := by
  intro id' t ht
  by_cases hid : id' = id
  · subst hid
    rw [update_self] at ht
    exact hnext t ht
  rw [update_of_ne hid] at ht
  exact h.applies id' t ht

/-- A record that stands after the source moved has stood before: nothing moves back to what it was
at P0. -/
theorem AlignState.Inv.stands [DecidableEq J]
    {site : Site} {id : String} {fact : Fact J} (hf : s.runs p = some f)
    (hmoves : ∀ old, (s.sources site).lookup id = some old → old.moves fact = true) {id' : String}
    (hstands : f.Stands (update s.sources site ((s.sources site).insert id fact)) id') :
    f.Stands s.sources id' := by
  obtain ⟨hid, version, data, hp0, hnow⟩ := hstands
  refine ⟨hid, version, data, hp0, ?_⟩
  by_cases hsite : f.run.want.site = site
  · rw [hsite] at hp0 hnow ⊢
    rw [update_self] at hnow
    by_cases hsame : id' = id
    · subst hsame
      rw [lookup_insert] at hnow
      cases hnow
      obtain ⟨old, hold, hle⟩ := h.moved p f hf site id' _ hp0
      rcases of_decide_eq_true (hmoves old hold) with hlt | ⟨_, _, hpurged⟩
      · exact absurd hle (not_le.mpr hlt)
      cases hpurged
    rwa [lookup_insert_ne hsame] at hnow
  rwa [update_of_ne hsite] at hnow

theorem AlignState.Inv.change [DecidableEq J] {site : Site} {id : String} {fact : Fact J}
    (hmoves : ∀ old, (s.sources site).lookup id = some old → old.moves fact = true) :
    ({ s with sources := update s.sources site ((s.sources site).insert id fact) } :
      AlignState J).Inv := by
  refine { h with
    runs := fun p f hf hcurrent => ?_, moved := fun p f hf site' id' old hold => ?_ }
  · have hinv := h.runs p f hf hcurrent
    exact { hinv with
      covers := hinv.covers.mono (fun _ hid => hid) fun _ => h.stands hf hmoves }
  obtain ⟨now, hnow, hle⟩ := h.moved p f hf site' id' old hold
  by_cases hsite : site' = site
  · subst hsite
    simp only [update_self]
    by_cases hid : id' = id
    · subst hid
      refine ⟨fact, lookup_insert _, hle.trans ?_⟩
      rcases of_decide_eq_true (hmoves now hnow) with hlt | ⟨heq, _⟩
      · exact hlt.le
      exact heq.le
    exact ⟨now, by rwa [lookup_insert_ne hid], hle⟩
  exact ⟨now, by simpa only [update_of_ne hsite] using hnow, hle⟩

end

section Store
variable [EmptyCollection J] [Append J]

/-- An input of the adopted instance and epoch is stored over the row it was compared with. -/
theorem AlignState.Inv.store {s : AlignState J} {i : Input J} (h : s.Inv)
    (haccepts : s.src.Accepts i) : (s.store (s.rows.lookup i.recordID) i).Inv := by
  have hwf : ∀ r, s.rows.lookup i.recordID = some r → r.WellFormed := h.wellFormed i.recordID
  unfold AlignState.store
  cases hreceive : receive s.src.mark (s.rows.lookup i.recordID) i with
  | none => exact h
  | some r =>
    obtain ⟨hholds, hmark, hwf', hnewer⟩ := receive_some haccepts.1 hwf hreceive
    have hlookup {P : String → Stored J → Prop}
        (hold : ∀ id row, s.rows.lookup id = some row → P id row) (hnew : P i.recordID r) :
        ∀ id row, (s.rows.insert i.recordID r).lookup id = some row → P id row := by
      intro id row hrow
      by_cases hid : id = i.recordID
      · subst hid
        rw [lookup_insert] at hrow
        cases hrow
        exact hnew
      rw [lookup_insert_ne hid] at hrow
      exact hold id row hrow
    constructor
    · intro p f hf hcurrent
      have hinv := h.runs p f hf hcurrent
      have hsite (hnamed : f.run.Named) :
          i.impl = f.run.want.impl ∧ i.epoch = f.run.want.epoch := by
        obtain ⟨hsome, himpl, hepoch⟩ := hinv.named hnamed
        rw [← himpl, ← hepoch]
        exact haccepts.2 hsome
      have hgood := hinv.tracks.stored_good hsite hinv.unnamed hholds hnewer
      refine ⟨hinv.tracks.insert hgood, hinv.named, hinv.unnamed, hinv.learns, hinv.learning,
        hinv.covers.mono ?_ fun _ hid => hid, fun hphase => ?_⟩
      · intro id hid
        by_cases hrecord : id = i.recordID
        · rw [hrecord, lookup_insert]
          rfl
        rwa [lookup_insert_ne hrecord]
      exact hlookup (fun id row hrow => (hinv.settled hphase id row hrow).mono i) hgood
    · exact h.gens
    · exact h.distinct
    · have hmarks := hlookup (P := fun _ row => ∀ g, row.alignedGen = some g →
        g ≤ s.src.alignGen) (fun id row hrow g => h.marks id row g hrow) fun g hg => by
          rw [hmark, SourceRow.mark, ite_none_right_eq_some] at hg
          cases hg.2
          exact le_refl _
      exact fun id row g hrow => hmarks id row hrow g
    · exact hlookup h.wellFormed hwf'
    · exact h.moved
    exact h.applies

end Store
end Invariant

/-! ## Runs of the system -/

section Completed
variable {J : Type} [DecidableEq J] [EmptyCollection J] [Append J]

/-- The two interleavings that are left out: an `Apply` whose write does not find the adopted
identity and the record's row as it read them, and a run that learns another source than the one
whose inputs were received under its generation. -/
def AlignState.Orderly (s : AlignState J) : AlignAction J → Prop
  | .applyWrite id => ∀ t, s.applies id = some t →
      s.src.impl = t.src.impl ∧ s.src.epoch = t.src.epoch ∧ s.rows.lookup id = t.stored
  | .learn p => ∀ f, s.runs p = some f → ∀ id r, s.rows.lookup id = some r →
      r.alignedGen = some f.run.gen → r.impl = f.run.want.impl ∧ r.epoch = f.run.want.epoch
  | _ => True

theorem AlignState.inv_step {s s' : AlignState J} {a : AlignAction J} (h : s.Inv)
    (horderly : s.Orderly a) (hstep : s.step a = some s') : s'.Inv := by
  cases step_moves hstep with
  | begin hwant => exact h.begin hwant
  | point hf hphase => exact h.proceed hf rfl (.inr rfl) fun hinv => hinv.point hphase _
  | first hf hphase hlimit hsource hlearn =>
    exact h.proceed hf rfl (.inl rfl) fun hinv => hinv.first hphase hlimit hsource hlearn
  | page hf hphase hlimit hlearn hsource =>
    refine h.proceed hf rfl (.inl rfl) fun hinv => ?_
    have hcovers := hinv.covers
    rw [Refetch.Covers, hphase] at hcovers
    exact hinv.rephase rfl rfl rfl ⟨hlearn, by simp [hphase]⟩ ⟨hlearn, by simp⟩
      ⟨hcovers, Refetch.onPage_snapshot hlimit hsource⟩ (by simp)
  | learn hf hphase hcurrent => exact h.learn hf hphase hcurrent (horderly _ hf)
  | put hf hphase hcurrent => exact h.put hf hphase hcurrent
  | @select p f run hf hphase hselect =>
    have hgen : run.gen = f.run.gen := by
      simp only [Run.select, hphase] at hselect
      split at hselect
      · cases hselect
        rfl
      obtain ⟨_, ⟨⟩⟩ := ite_none_left_eq_some.mp hselect
      rfl
    exact h.proceed hf hgen (.inl rfl) fun hinv => hinv.select hphase hselect
  | read hf hphase =>
    refine h.proceed hf rfl (.inl rfl) fun hinv => ?_
    have hlearn := hinv.learn_eq_false (by simp [hphase]) (by simp [hphase])
    have hcovers := hinv.covers
    rw [Refetch.Covers, hphase] at hcovers
    exact hinv.rephase rfl rfl rfl ⟨hlearn, by simp [hphase]⟩ ⟨hlearn, by simp⟩ hcovers (by simp)
  | @complete p status f hf hphase hcurrent =>
    have hstatus : ({ s with src := { s.src with status := status } } : AlignState J).Inv :=
      h.transfer rfl rfl rfl rfl rfl rfl rfl h.applies
    exact hstatus.drop p
  | drop => exact h.drop _
  | handle haccepts => exact h.store haccepts
  | applyRead haccepts =>
    exact h.transfer rfl rfl rfl rfl rfl rfl rfl
      (h.applies_update _ _ fun t ht => by cases ht; exact ⟨haccepts, rfl⟩)
  | @applyWrite id t ht =>
    obtain ⟨himpl, hepoch, hrow⟩ := horderly t ht
    obtain ⟨haccepts, hid⟩ := h.applies id t ht
    have hstored : (s.store t.stored t.input).Inv := by
      rw [← hrow, ← hid]
      refine h.store ⟨haccepts.1, fun hsome => ?_⟩
      rw [himpl, hepoch]
      exact haccepts.2 (himpl ▸ hsome)
    exact hstored.transfer rfl rfl rfl rfl rfl rfl rfl (h.applies_update id none (by simp))
  | applyRollback =>
    exact h.transfer rfl rfl rfl rfl rfl rfl rfl (h.applies_update _ none (by simp))
  | turn => exact h.transfer rfl rfl rfl rfl rfl rfl rfl h.applies
  | change hmoves => exact h.change hmoves

omit [DecidableEq J] [EmptyCollection J] [Append J] in
theorem AlignState.inv_init (sources : Site → Facts J) : (AlignState.init sources).Inv := by
  constructor <;> simp [AlignState.init]

theorem AlignState.inv_run {sources : Site → Facts J} {acts : List (AlignAction J)}
    {s : AlignState J}
    (horderly : Meets AlignState.step AlignState.Orderly (AlignState.init sources) acts)
    (hrun : run AlignState.step (AlignState.init sources) acts = some s) : s.Inv :=
  run_invariant (fun _ _ _ h horderly hstep => inv_step h horderly hstep)
    (inv_init sources) horderly hrun

/-- What is promised of the rows when a run completes, `newer` being what a row of the stream has to
be against the run's last answer for its record. -/
structure Refetch.Completed (newer : Int → Int → Prop) (f : Refetch J) (s : AlignState J) :
    Prop where
  site : ∀ id r, s.rows.lookup id = some r → r.impl = s.src.impl ∧ r.epoch = s.src.epoch
  holds : ∀ id r, s.rows.lookup id = some r →
    (∃ a ∈ f.answers, a.id = id ∧ r = a.stored f.run.gen s.src.impl s.src.epoch) ∨
      (∃ i ∈ s.received, i.recordID = id ∧ r.Holds i) ∧
        ∀ a, f.latest id = some a → newer a.version r.version
  present : ∀ id, f.Stands s.sources id → (s.rows.lookup id).isSome

/-- **Alignment.** In every orderly run, when a run of `alignTo` completes, every row belongs to the
adopted instance and epoch and holds an answer of the run, or an input of the stream that is no
older than the run's last answer for the record; no record that stands as at P0 is missing. And a
run whose generation is no longer the current one changes neither the rows nor the source row. -/
theorem alignment_completed (sources : Site → Facts J) (acts : List (AlignAction J))
    (s : AlignState J)
    (horderly : Meets AlignState.step AlignState.Orderly (AlignState.init sources) acts)
    (hrun : run AlignState.step (AlignState.init sources) acts = some s) (p : Nat) (f : Refetch J)
    (hf : s.runs p = some f) :
    (f.run.Current s.src → ∀ status s', s.step (.complete p status) = some s' →
      f.Completed (· ≤ ·) s') ∧
    (¬ f.run.Current s.src → ∀ status, ∀ a ∈ [.learn p, .put p, .complete p status], ∀ s',
      s.step a = some s' → s'.rows = s.rows ∧ s'.src = s.src) := by
  refine ⟨fun hcurrent status s' hstep => ?_, fun hstale status a ha s' hstep => ?_⟩
  · have hinv := (inv_run horderly hrun).runs p f hf hcurrent
    simp only [AlignState.step, hf, bind_eq_bind, bind_some] at hstep
    obtain ⟨hphase, hstep⟩ := ite_none_right_eq_some.mp hstep
    rw [if_pos hcurrent] at hstep
    cases hstep
    have hnamed : f.run.Named :=
      ⟨hinv.learn_eq_false (by simp [hphase]) (by simp [hphase]), by simp [hphase]⟩
    obtain ⟨_, himpl, hepoch⟩ := hinv.named hnamed
    have hcovers := hinv.covers
    rw [Refetch.Covers, hphase] at hcovers
    refine ⟨fun id r hr => ?_, fun id r hr => ?_, hcovers⟩
    · have hsite := (hinv.settled hphase id r hr).site hnamed
      rwa [← himpl, ← hepoch] at hsite
    have hgood := hinv.settled hphase id r hr
    rcases hgood.holds with hanswer | hinput
    · rw [← himpl, ← hepoch] at hanswer
      exact .inl hanswer
    exact .inr ⟨hinput, hgood.newest⟩
  simp only [mem_cons, not_mem_nil, or_false] at ha
  rcases ha with rfl | rfl | rfl
  all_goals
    simp only [AlignState.step, hf, bind_eq_bind, bind_some, if_neg hstale] at hstep
    split at hstep
  all_goals cases hstep
  all_goals exact ⟨rfl, rfl⟩

end Completed

/-! ## One alignment, followed -/

/-- A source of the application instance's first epoch. -/
def appSource : Identity :=
  { deployment := "d", impl := "app", systemID := "7", epoch := "1.1", primary := true,
    purpose := .unspecified }

/-- A part of record `x` at version 5 comes by the stream between P0 and the page that has the whole
record at the same version. -/
def samePage : List (AlignAction (List Nat)) :=
  [.change ("app", "1.1") "x" ⟨5, .existing [5]⟩, .begin 0 appSource .aligning,
    .point 0 (fun _ => none), .handle ⟨"x", .partialFields, 5, "app", "1.1", [5], 1⟩,
    .page 0 appSource 500, .put 0, .select 0]

theorem alignment_completed_samePage :
    ∃ s f s', run AlignState.step (AlignState.init fun _ => ∅) samePage = some s ∧
      s.runs 0 = some f ∧ f.run.Current s.src ∧ s.step (.complete 0 .aligned) = some s' ∧
      f.Completed (· ≤ ·) s' := by
  refine ⟨_, _, _, rfl, rfl, rfl, rfl, ?_⟩
  refine (alignment_completed (fun _ => ∅) samePage _ ?_ rfl 0 _ rfl).1 rfl .aligned _ rfl
  simp [samePage, Meets, AlignState.Orderly]

/-- The page does not overwrite what came during the alignment with the same version: the completed
projection holds the part, which is no answer of the run and no newer than its answer. -/
theorem completed_with_the_same_version :
    ∃ s f s', run AlignState.step (AlignState.init fun _ => ∅) samePage = some s ∧
      s.runs 0 = some f ∧ f.run.Current s.src ∧ s.step (.complete 0 .aligned) = some s' ∧
      ¬ f.Completed (· < ·) s' := by
  refine ⟨_, _, _, rfl, rfl, rfl, rfl, ?_⟩
  intro hcompleted
  rcases hcompleted.holds "x" ⟨5, .incomplete, some 5, "app", "1.1", some [5], some 1, none⟩ rfl
    with ⟨a, ha, -, hr⟩ | ⟨-, hnewer⟩
  · have hanswer : a = ⟨"x", .complete, 5, some [5], none⟩ := mem_singleton.mp ha
    rw [hanswer] at hr
    cases congrArg Stored.state hr
  exact absurd (hnewer ⟨"x", .complete, 5, some [5], none⟩ rfl) (by decide)

end BeSdk.Projection

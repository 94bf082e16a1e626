import BeSdk.Authz.View

/-!
# Revisions that never go back

Under one recovery generation the views lookups use for a shard should never go back in any domain,
and a shard that was stopped because its revisions went back should give nothing until the
generation advances. Both rest on what the holder remembers, and all it remembers of a shard is the
view it holds. It forgets in two places: a stall drops every shard, the stopped ones too, and a new
view may leave out a domain.

Where neither happens the memory is enough. `Held` views only move up (`Below`), shard by shard
through the loop of `apply` (`Shown.keeps`, `applyShards_keeps`), and a stopped one stays
stopped; a higher generation starts from nothing, so only the notes of the current generation have
to be followed (`Tracked`).
-/

namespace BeSdk.Authz

open Runs Projection List AList

/-! ## The order of revisions -/

/-- A revision's place: the epoch's two numbers, then the value. -/
def Revision.key (r : Revision) : Int ×ₗ Int ×ₗ Int :=
  toLex ((epochKey r.epoch).1, toLex ((epochKey r.epoch).2, (parseInt64 r.value).getD 0))

def revisionOf (revisions : List Revision) (domain : String) : Option Revision :=
  revisions.find? (·.domain = domain)

/-- A note agrees with an earlier one: a view used for a shard goes back in no domain behind one
used under the same generation, and a shard that was stopped is used under a larger one only. -/
def ViewNote.Follows : ViewNote → ViewNote → Prop
  | .used shard gen revisions, .used shard' gen' revisions' =>
    shard = shard' → gen = gen' → ∀ domain r r', revisionOf revisions domain = some r →
      revisionOf revisions' domain = some r' → r.key ≤ r'.key
  | .stopped shard gen, .used shard' gen' _ => shard = shard' → gen < gen'
  | _, _ => True

/-- A new view can be compared with the held one: it leaves out none of its domains, and where the
epochs of a domain are the same numbers they are the same text and both values are numbers. -/
def Succeeds (held next : List Revision) : Prop :=
  ∀ o ∈ held, (∃ n ∈ next, n.domain = o.domain) ∧ ∀ n ∈ next, n.domain = o.domain →
    epochKey n.epoch = epochKey o.epoch →
      n.epoch = o.epoch ∧ (parseInt64 n.value).isSome ∧ (parseInt64 o.value).isSome

/-- Every revision of the first view is in the second, at the same place or a later one. -/
def Below (held next : List Revision) : Prop :=
  ∀ o ∈ held, (∃ n ∈ next, n.domain = o.domain) ∧ ∀ n ∈ next, n.domain = o.domain → o.key ≤ n.key

theorem Below.trans {a b c : List Revision} (hab : Below a b) (hbc : Below b c) : Below a c := by
  intro o ho
  obtain ⟨⟨m, hm, hdomain⟩, hle⟩ := hab o ho
  obtain ⟨⟨n, hn, hdomain'⟩, hle'⟩ := hbc m hm
  refine ⟨⟨n, hn, hdomain'.trans hdomain⟩, fun n' hn' hn'domain => ?_⟩
  calc o.key ≤ m.key := hle m hm hdomain
    _ ≤ n'.key := hle' n' hn' (hn'domain.trans hdomain.symm)

/-- A comparable revision that does not go back is at the same place or a later one. -/
theorem Revision.key_le {o n : Revision} (hdomain : n.domain = o.domain)
    (hgood : o.goesBack n = false) (hcomparable : epochKey n.epoch = epochKey o.epoch →
      n.epoch = o.epoch ∧ (parseInt64 n.value).isSome ∧ (parseInt64 o.value).isSome) :
    o.key ≤ n.key := by
  simp only [Revision.goesBack, hdomain, true_and, decide_eq_false_iff_not, not_or] at hgood
  obtain ⟨hepoch, hvalue⟩ := hgood
  rw [epochBefore] at hepoch
  rw [Revision.key, Revision.key, Prod.Lex.toLex_le_toLex]
  by_cases hgen : (epochKey n.epoch).1 = (epochKey o.epoch).1
  · refine .inr ⟨hgen.symm, Prod.Lex.toLex_le_toLex.mpr ?_⟩
    have hle : (epochKey o.epoch).2 ≤ (epochKey n.epoch).2 := by simpa [hgen] using hepoch
    rcases lt_or_eq_of_le hle with hlt | htimeline
    · exact .inl hlt
    -- the same epoch: the values decide, and both are numbers
    obtain ⟨htext, hn, ho⟩ := hcomparable (Prod.ext hgen htimeline.symm)
    obtain ⟨nv, hnv⟩ := Option.isSome_iff_exists.mp hn
    obtain ⟨ov, hov⟩ := Option.isSome_iff_exists.mp ho
    refine .inr ⟨htimeline, ?_⟩
    simpa [htext, hnv, hov] using hvalue
  left
  have hle : (epochKey o.epoch).1 ≤ (epochKey n.epoch).1 := by simpa [hgen] using hepoch
  exact lt_of_le_of_ne hle (Ne.symm hgen)

theorem below_of_succeeds {held next : List Revision} (hsucceeds : Succeeds held next)
    (hgood : revisionsGoBack held next = false) : Below held next := by
  intro o ho
  obtain ⟨hkept, hcomparable⟩ := hsucceeds o ho
  refine ⟨hkept, fun n hn hdomain => Revision.key_le hdomain ?_ (hcomparable n hn hdomain)⟩
  simp only [revisionsGoBack, any_eq_false, Bool.not_eq_true] at hgood
  exact hgood n hn o ho

/-- The same view, or one above it. -/
def AtMost (held next : List Revision) : Prop := held = next ∨ Below held next

theorem AtMost.trans {a b c : List Revision} (hab : AtMost a b) (hbc : AtMost b c) :
    AtMost a c := by
  rcases hab with rfl | hab
  · exact hbc
  rcases hbc with rfl | hbc
  · exact .inr hab
  exact .inr (hab.trans hbc)

theorem AtMost.key_le {held next : List Revision} (h : AtMost held next) {domain : String}
    {r r' : Revision} (hr : revisionOf held domain = some r)
    (hr' : revisionOf next domain = some r') : r.key ≤ r'.key := by
  rcases h with rfl | hbelow
  · rw [hr, Option.some.injEq] at hr'
    rw [hr']
  have hdomain : r.domain = domain := by simpa using find?_some hr
  have hdomain' : r'.domain = domain := by simpa using find?_some hr'
  exact (hbelow r (mem_of_find?_eq_some hr)).2 r' (mem_of_find?_eq_some hr')
    (hdomain'.trans hdomain.symm)

/-! ## One answer -/

theorem fitting_securityRevisions (v : Shard) (defs : Option Definitions) :
    (fitting v defs).securityRevisions = v.securityRevisions := by
  cases defs <;> rfl

/-- Every shard is still held, with the same view or one above it, and stopped if it was. -/
def Keeps (h h' : Holder) : Prop :=
  ∀ name s, h.shards.lookup name = some s → ∃ s', h'.shards.lookup name = some s' ∧
    AtMost s.shard.securityRevisions s'.shard.securityRevisions ∧
    (s.stopped = true → s'.stopped = true)

theorem Keeps.refl (h : Holder) : Keeps h h := fun _ s hs => ⟨s, hs, .inl rfl, id⟩

theorem Keeps.trans {h₁ h₂ h₃ : Holder} (h₁₂ : Keeps h₁ h₂) (h₂₃ : Keeps h₂ h₃) : Keeps h₁ h₃ := by
  intro name s hs
  obtain ⟨s₂, hs₂, hle, hstopped⟩ := h₁₂ name s hs
  obtain ⟨s₃, hs₃, hle', hstopped'⟩ := h₂₃ name s₂ hs₂
  exact ⟨s₃, hs₃, hle.trans hle', fun h => hstopped' (hstopped h)⟩

variable {name : String}

theorem Keeps.put {h : Holder} {s' : Held} (hput : ∀ s, h.shards.lookup name = some s →
      AtMost s.shard.securityRevisions s'.shard.securityRevisions ∧
      (s.stopped = true → s'.stopped = true)) : Keeps h (h.put name s') := by
  intro other s hs
  by_cases hname : other = name
  · subst hname
    exact ⟨s', lookup_insert _, hput s hs⟩
  exact ⟨s, by rw [Holder.put, lookup_insert_ne hname, hs], .inl rfl, id⟩

/-- The views an answer brings for the shards that are held, each comparable with the held one, and
with an earlier one of the same answer. -/
structure Comparable (h : Holder) (shards : List ShardAnswer) : Prop where
  held : ∀ a ∈ shards, a.status = .changed → ∀ v, a.view = some v → ∀ s,
    h.shards.lookup a.shard = some s → Succeeds s.shard.securityRevisions v.securityRevisions
  within : shards.Pairwise fun a b => a.shard = b.shard → a.status = .changed →
    b.status = .changed → ∀ v w, a.view = some v → b.view = some w →
      Succeeds v.securityRevisions w.securityRevisions

/-- What one shard of an accepted answer does, and whether it stops the shard. -/
inductive Shown (newer : Bool) (h : Holder) (a : ShardAnswer) : Holder × Bool → Prop where
  | same : Shown newer h a (h, false)
  | renewed {s s' : Held} (hs : h.shards.lookup a.shard = some s) (hshard : s'.shard = s.shard)
      (hstopped : s'.stopped = s.stopped) : Shown newer h a (h.put a.shard s', false)
  | stopped {s : Held} (hs : h.shards.lookup a.shard = some s) (hnewer : newer = false) :
      Shown newer h a (h.put a.shard { s with stopped := true }, true)
  | replaced {v : Shard} {s' : Held} (hstatus : a.status = .changed) (hview : a.view = some v)
      (hrevisions : s'.shard.securityRevisions = v.securityRevisions)
      (hheld : ∀ s, h.shards.lookup a.shard = some s → s.stopped = false ∧
        (newer = false → revisionsGoBack s.shard.securityRevisions v.securityRevisions = false)) :
      Shown newer h a (h.put a.shard s', false)

theorem applyShard_shown (h : Holder) (newer : Bool) (sent : Int) (a : ShardAnswer) :
    Shown newer h a (h.applyShard newer sent a) := by
  unfold Holder.applyShard
  dsimp only
  split
  next s hstatus hs =>
    split
    · exact .same
    exact .renewed hs rfl rfl
  next s v hstatus hs hview =>
    obtain ⟨w, hw, rfl⟩ := Option.map_eq_some_iff.mp hview
    rw [fitting_securityRevisions]
    split
    · exact .same
    rename_i hrunning
    split
    · next hback => exact .stopped hs hback.1
    rename_i hgood
    have hheld : ∀ s₁, h.shards.lookup a.shard = some s₁ → s₁.stopped = false ∧
        (newer = false → revisionsGoBack s₁.shard.securityRevisions
          w.securityRevisions = false) := by
      intro s₁ hs₁
      obtain rfl : s = s₁ := by simpa [hs] using hs₁
      exact ⟨by simpa using hrunning, fun hnewer => by simpa [hnewer] using hgood⟩
    split
    · exact .replaced hstatus hw (fitting_securityRevisions _ _) hheld
    exact .replaced hstatus hw (fitting_securityRevisions _ _) hheld
  next v hstatus hnone hview =>
    obtain ⟨w, hw, rfl⟩ := Option.map_eq_some_iff.mp hview
    split
    · exact .replaced hstatus hw (fitting_securityRevisions _ _) (by simp [hnone])
    exact .replaced hstatus hw (fitting_securityRevisions _ _) (by simp [hnone])
  · next s hstatus hs => exact .renewed hs rfl rfl
  exact .same

theorem Holder.lookup_put {h : Holder} {name name' : String} {s s' : Held}
    (hs' : (h.put name s).shards.lookup name' = some s') :
    name' = name ∧ s' = s ∨ name' ≠ name ∧ h.shards.lookup name' = some s' := by
  by_cases hname : name' = name
  · subst hname
    rw [Holder.put, lookup_insert, Option.some.injEq] at hs'
    exact .inl ⟨rfl, hs'.symm⟩
  rw [Holder.put, lookup_insert_ne hname] at hs'
  exact .inr ⟨hname, hs'⟩

section Accepted
variable {h : Holder} {a : ShardAnswer} {shards : List ShardAnswer} {result : Holder × Bool}

section
variable (hshown : Shown false h a result) (hcomparable : Comparable h (a :: shards))
include hshown hcomparable

theorem Shown.keeps : Keeps h result.1 := by
  cases hshown with
  | same => exact .refl h
  | renewed hs hshard hstopped =>
    refine Keeps.put fun s₁ hs₁ => ?_
    rw [hs, Option.some.injEq] at hs₁
    subst hs₁
    exact ⟨.inl (by rw [hshard]), fun hold => hstopped.trans hold⟩
  | stopped hs _ =>
    refine Keeps.put fun s₁ hs₁ => ?_
    rw [hs, Option.some.injEq] at hs₁
    subst hs₁
    exact ⟨.inl rfl, fun _ => rfl⟩
  | replaced hstatus hview hrevisions hheld =>
    refine Keeps.put fun s hs => ?_
    obtain ⟨hrunning, hgood⟩ := hheld s hs
    have hsucceeds := hcomparable.held a mem_cons_self hstatus _ hview s hs
    rw [hrevisions]
    exact ⟨.inr (below_of_succeeds hsucceeds (hgood rfl)), by simp [hrunning]⟩

/-- The rest of the answer is comparable with what is held then: the old view, or the one just
brought. -/
theorem Shown.comparable : Comparable result.1 shards := by
  obtain ⟨hfirst, hrest⟩ := pairwise_cons.mp hcomparable.within
  have hheld := fun b hb => hcomparable.held b (mem_cons_of_mem a hb)
  refine ⟨fun b hb hstatus w hw s' hs' => ?_, hrest⟩
  cases hshown with
  | same => exact hheld b hb hstatus w hw s' hs'
  | renewed hs hshard _ =>
    rcases Holder.lookup_put hs' with ⟨hname, rfl⟩ | ⟨-, hs'⟩
    · rw [hshard]
      exact hheld b hb hstatus w hw _ (hname ▸ hs)
    exact hheld b hb hstatus w hw s' hs'
  | @stopped s hs _ =>
    rcases Holder.lookup_put hs' with ⟨hname, rfl⟩ | ⟨-, hs'⟩
    · exact hheld b hb hstatus w hw s (hname ▸ hs)
    exact hheld b hb hstatus w hw s' hs'
  | replaced hstatus' hview hrevisions _ =>
    rcases Holder.lookup_put hs' with ⟨hname, rfl⟩ | ⟨-, hs'⟩
    · rw [hrevisions]
      exact hfirst b hb hname.symm hstatus' hstatus _ _ hview hw
    exact hheld b hb hstatus w hw s' hs'

end

theorem Shown.recovery {newer : Bool} (hshown : Shown newer h a result) :
    result.1.recovery = h.recovery ∧ result.1.hasRecovery = h.hasRecovery := by
  cases hshown <;> exact ⟨rfl, rfl⟩

theorem Shown.stops {newer : Bool} (hshown : Shown newer h a result) (hstops : result.2 = true) :
    ∃ s, result.1.shards.lookup a.shard = some s ∧ s.stopped = true := by
  cases hshown with
  | same | renewed _ _ _ | replaced _ _ _ _ => cases hstops
  | stopped _ _ => exact ⟨_, lookup_insert _, rfl⟩

end Accepted

theorem applyShards_recovery (newer : Bool) (sent : Int) (shards : List ShardAnswer) (h : Holder) :
    (Holder.applyShards newer sent h shards).1.recovery = h.recovery ∧
      (Holder.applyShards newer sent h shards).1.hasRecovery = h.hasRecovery := by
  induction shards generalizing h with
  | nil => exact ⟨rfl, rfl⟩
  | cons a shards ih =>
    obtain ⟨hrecovery, hhas⟩ := (applyShard_shown h newer sent a).recovery
    obtain ⟨hrecovery', hhas'⟩ := ih (h.applyShard newer sent a).1
    exact ⟨hrecovery'.trans hrecovery, hhas'.trans hhas⟩

/-- An answer that opens a generation stops nothing. -/
theorem applyShards_newer (sent : Int) (shards : List ShardAnswer) (h : Holder) :
    (Holder.applyShards true sent h shards).2 = [] := by
  induction shards generalizing h with
  | nil => rfl
  | cons a shards ih =>
    have hshown := applyShard_shown h true sent a
    have hstops : (h.applyShard true sent a).2 = false := by
      generalize h.applyShard true sent a = result at hshown
      cases hshown with
      | stopped _ hnewer => cases hnewer
      | _ => rfl
    simp only [Holder.applyShards, hstops]
    exact ih _

/-- The loop over an answer under the accepted generation: nothing held is lost or goes back, and
the shards it stops are stopped at its end. -/
theorem applyShards_keeps (sent : Int) (shards : List ShardAnswer) {h : Holder}
    (hcomparable : Comparable h shards) : Keeps h (Holder.applyShards false sent h shards).1 ∧
      ∀ name ∈ (Holder.applyShards false sent h shards).2, ∃ s,
        (Holder.applyShards false sent h shards).1.shards.lookup name = some s ∧
          s.stopped = true := by
  induction shards generalizing h with
  | nil => exact ⟨.refl h, by simp [Holder.applyShards]⟩
  | cons a shards ih =>
    have hshown := applyShard_shown h false sent a
    obtain ⟨hkeeps, hstops⟩ := ih (hshown.comparable hcomparable)
    refine ⟨(hshown.keeps hcomparable).trans hkeeps, fun name hname => ?_⟩
    simp only [Holder.applyShards] at hname ⊢
    split at hname
    next hstopped =>
      rcases mem_cons.mp hname with rfl | hname
      · obtain ⟨s, hs, hs'⟩ := hshown.stops hstopped
        obtain ⟨s₂, hs₂, -, hs₂'⟩ := hkeeps a.shard s hs
        exact ⟨s₂, hs₂, hs₂' hs'⟩
      exact hstops name hname
    exact hstops name hname

/-! ## Runs -/

/-- The steps after which the holder still knows what it has to: a tick that detects a stall finds
no shard to drop, and an answer under the accepted generation brings comparable views. -/
def Remembers (s : System) : ViewAction → Prop
  | .tick now wall => s.holder.stalled now wall = true → s.holder.shards = ∅
  | .verify _ ans _ => s.holder.hasRecovery = true →
      parseInt64 ans.recoveryGeneration.value = some s.holder.recovery →
        Comparable s.holder ans.shards
  | _ => True

/-- What a note says of the shards held now. -/
def ViewNote.Holds (h : Holder) : ViewNote → Prop
  | .used shard gen revisions => h.hasRecovery = true ∧ gen ≤ h.recovery ∧
      (gen = h.recovery → ∃ s, h.shards.lookup shard = some s ∧
        AtMost revisions s.shard.securityRevisions)
  | .stopped shard gen => h.hasRecovery = true ∧ gen ≤ h.recovery ∧
      (gen = h.recovery → ∃ s, h.shards.lookup shard = some s ∧ s.stopped = true)

/-- The holder of a generation that was never accepted holds nothing; what the log has follows on
itself, and the notes hold of the shards held now. -/
structure Tracked (s : System) : Prop where
  fresh : s.holder.hasRecovery = false → s.holder.shards = ∅
  log : s.log.Pairwise ViewNote.Follows
  notes : ∀ note ∈ s.log, note.Holds s.holder

variable {note : ViewNote}

theorem ViewNote.Holds.keeps {h h' : Holder} (hnote : note.Holds h)
    (hrecovery : h'.recovery = h.recovery) (hhas : h'.hasRecovery = h.hasRecovery)
    (hkeeps : Keeps h h') : note.Holds h' := by
  cases note with
  | used shard gen revisions =>
    obtain ⟨haccepted, hle, hheld⟩ := hnote
    refine ⟨hhas.trans haccepted, hrecovery ▸ hle, fun hgen => ?_⟩
    obtain ⟨s, hs, hmost⟩ := hheld (hgen.trans hrecovery)
    obtain ⟨s', hs', hmost', -⟩ := hkeeps shard s hs
    exact ⟨s', hs', hmost.trans hmost'⟩
  | stopped shard gen =>
    obtain ⟨haccepted, hle, hheld⟩ := hnote
    refine ⟨hhas.trans haccepted, hrecovery ▸ hle, fun hgen => ?_⟩
    obtain ⟨s, hs, hstopped⟩ := hheld (hgen.trans hrecovery)
    obtain ⟨s', hs', -, hstopped'⟩ := hkeeps shard s hs
    exact ⟨s', hs', hstopped' hstopped⟩

/-- Under a higher generation a note says nothing any more. -/
theorem ViewNote.Holds.newer {h h' : Holder} (hnote : note.Holds h)
    (hlt : h.recovery < h'.recovery) (hhas : h'.hasRecovery = true) : note.Holds h' := by
  cases note with
  | used shard gen revisions | stopped shard gen =>
    exact ⟨hhas, hnote.2.1.trans hlt.le, fun hgen => absurd hlt (not_lt.mpr (hgen ▸ hnote.2.1))⟩

/-- A note that holds agrees with every use of a shard that is held and not stopped. -/
theorem ViewNote.Holds.follows {h : Holder} (hnote : note.Holds h)
    {s : Held} (hs : h.shards.lookup name = some s) (hrunning : s.stopped = false) :
    note.Follows (.used name h.recovery s.shard.securityRevisions) := by
  cases note with
  | used shard gen revisions =>
    intro hshard hgen domain r r' hr hr'
    obtain ⟨s', hs', hmost⟩ := hnote.2.2 hgen
    obtain rfl : s' = s := by rwa [hshard, hs, Option.some.injEq, eq_comm] at hs'
    exact hmost.key_le hr hr'
  | stopped shard gen =>
    intro hshard
    refine lt_of_le_of_ne hnote.2.1 fun hgen => ?_
    obtain ⟨s', hs', hstopped⟩ := hnote.2.2 hgen
    obtain rfl : s' = s := by rwa [hshard, hs, Option.some.injEq, eq_comm] at hs'
    simp [hrunning] at hstopped

section
variable {h : Holder} {resourceType principal : String} {order : List String} {s : Held}
  {grant : Grant}

variable {now : Int}

/-- What a lookup answers comes from a held shard that it does not refuse. -/
theorem lookup_spec {high : Bool}
    (hfound : h.lookup resourceType principal high now order = some (name, s, grant)) :
    h.shards.lookup name = some s ∧ Holder.refused s resourceType high now = false ∧
      grant.segments = Holder.segments s resourceType principal ∧
      grant.cutoff = Holder.validTill s high := by
  induction order with
  | nil => cases hfound
  | cons first order ih =>
    unfold Holder.lookup at hfound
    split at hfound
    · exact ih hfound
    rename_i s' hs'
    split at hfound
    · exact ih hfound
    rename_i hvalid
    cases hfound
    exact ⟨hs', by simpa using hvalid, rfl, rfl⟩

theorem lookup_held {high : Bool}
    (hfound : h.lookup resourceType principal high now order = some (name, s, grant)) :
    h.shards.lookup name = some s ∧ s.stopped = false := by
  obtain ⟨hs, hvalid, -⟩ := lookup_spec hfound
  refine ⟨hs, ?_⟩
  by_contra hstopped
  simp [Holder.refused, hstopped] at hvalid

theorem lookupStale_held {wall : Int}
    (hfound : h.lookupStale resourceType principal now wall order = some (name, s, grant)) :
    h.shards.lookup name = some s ∧ s.stopped = false := by
  induction order with
  | nil => cases hfound
  | cons first order ih =>
    unfold Holder.lookupStale at hfound
    split at hfound
    · exact ih hfound
    rename_i s' hs'
    split at hfound
    · exact ih hfound
    rename_i hvalid
    cases hfound
    exact ⟨hs', by simpa using fun hstopped => hvalid (.inr (.inr (.inl hstopped)))⟩

end

variable {s : System}

theorem Tracked.use (h : Tracked s) {found : Option (String × Held × Grant)}
    (hheld : ∀ name held grant, found = some (name, held, grant) →
      s.holder.shards.lookup name = some held ∧ held.stopped = false) : Tracked (s.use found) := by
  unfold System.use
  split
  · exact h
  rename_i name held grant
  obtain ⟨hs, hrunning⟩ := hheld name held grant rfl
  have haccepted : s.holder.hasRecovery = true := by
    by_contra hnot
    rw [h.fresh (by simpa using hnot), lookup_empty] at hs
    cases hs
  refine ⟨h.fresh, pairwise_append.mpr ⟨h.log, pairwise_singleton _ _, ?_⟩, ?_⟩
  · intro note hnote last hlast
    obtain rfl := mem_singleton.mp hlast
    exact (h.notes note hnote).follows hs hrunning
  intro note hnote
  rcases mem_append.mp hnote with hnote | hnote
  · exact h.notes note hnote
  obtain rfl := mem_singleton.mp hnote
  exact ⟨haccepted, le_refl _, fun _ => ⟨held, hs, .inl rfl⟩⟩

theorem suspend_lookup (h : Holder) (name : String) : h.suspend.shards.lookup name =
      (h.shards.lookup name).map fun s => { s with suspended := true } :=
  dlookup_map₂ (f := fun _ (s : Held) => ({ s with suspended := true } : Held)) name

theorem suspend_keeps (h : Holder) : Keeps h h.suspend := by
  intro name s hs
  refine ⟨{ s with suspended := true }, ?_, .inl rfl, id⟩
  rw [suspend_lookup, hs, Option.map_some]

/-- What an answer comes to: it changes nothing, it suspends every shard, or it is accepted under a
generation that is no smaller. -/
theorem verify_cases (h : Holder) (nonce : String) (ans : VerifyAnswer) (sent : Int) :
    h.verify nonce ans sent = (h, []) ∨ h.verify nonce ans sent = (h.suspend, []) ∨
      ∃ gen, parseInt64 ans.recoveryGeneration.value = some gen ∧
        (h.hasRecovery = true → h.recovery ≤ gen) ∧
        h.verify nonce ans sent = Holder.applyShards (h.newer gen) sent
          { h with shards := if h.newer gen then ∅ else h.shards, recovery := gen,
                   hasRecovery := true, «instance» := ans.instance } ans.shards := by
  unfold Holder.verify
  split
  · exact .inl rfl
  split
  · exact .inl rfl
  rename_i gen hgen
  unfold Holder.apply
  split
  · exact .inr (.inl rfl)
  rename_i haccepted
  refine .inr (.inr ⟨gen, hgen, fun hhas => ?_, rfl⟩)
  by_contra hlt
  exact haccepted (.inl ⟨hhas, not_le.mp hlt⟩)

/-- The accepted generation never decreases. -/
theorem viewStep_recovery {s' : System} {a : ViewAction} (hstep : viewStep s a = some s')
    (hhas : s.holder.hasRecovery = true) :
    s'.holder.hasRecovery = true ∧ s.holder.recovery ≤ s'.holder.recovery := by
  cases a with
  | verify nonce ans sent =>
    simp only [viewStep, Option.some.injEq] at hstep
    subst hstep
    rcases verify_cases s.holder nonce ans sent with hcase | hcase | ⟨gen, -, hle, hcase⟩
    · rw [hcase]
      exact ⟨hhas, le_refl _⟩
    · rw [hcase]
      exact ⟨hhas, le_refl _⟩
    obtain ⟨hrecovery, hhas'⟩ := applyShards_recovery (s.holder.newer gen) sent ans.shards
      { s.holder with shards := if s.holder.newer gen then ∅ else s.holder.shards,
                      recovery := gen, hasRecovery := true, «instance» := ans.instance }
    rw [hcase]
    exact ⟨hhas', (hle hhas).trans hrecovery.ge⟩
  | rest now wall | tick now wall =>
    cases hstep
    exact ⟨hhas, le_refl _⟩
  | lookup resourceType principal high now order
  | lookupStale resourceType principal now wall order =>
    cases hstep
    unfold System.use
    split <;> exact ⟨hhas, le_refl _⟩

theorem Tracked.append {h' : Holder} {stops : List String} (h : Tracked s)
    (hfresh : h'.hasRecovery = false → h'.shards = ∅) (hnotes : ∀ note ∈ s.log, note.Holds h')
    (hstops : ∀ name ∈ stops, (ViewNote.stopped name h'.recovery).Holds h') :
    Tracked { holder := h', log := s.log ++ stops.map fun name => .stopped name h'.recovery } := by
  refine ⟨hfresh, pairwise_append.mpr ⟨h.log, ?_, ?_⟩, ?_⟩
  · exact pairwise_map.mpr (pairwise_of_forall fun _ _ => trivial)
  · intro note _ last hlast
    obtain ⟨name, -, rfl⟩ := mem_map.mp hlast
    cases note <;> trivial
  intro note hnote
  rcases mem_append.mp hnote with hnote | hnote
  · exact hnotes note hnote
  obtain ⟨name, hname, rfl⟩ := mem_map.mp hnote
  exact hstops name hname

theorem Tracked.verify (h : Tracked s) {nonce : String} {ans : VerifyAnswer}
    {sent : Int} (hok : Remembers s (.verify nonce ans sent)) :
    Tracked { holder := (s.holder.verify nonce ans sent).1,
              log := s.log ++ (s.holder.verify nonce ans sent).2.map fun name =>
                .stopped name (s.holder.verify nonce ans sent).1.recovery } := by
  rcases verify_cases s.holder nonce ans sent with hcase | hcase | ⟨gen, hgen, hle, hcase⟩
  · rw [hcase]
    exact h.append h.fresh h.notes (by simp)
  · rw [hcase]
    refine h.append (fun hhas => ?_) (fun note hnote => ?_) (by simp)
    · simp [Holder.suspend, h.fresh hhas]
      rfl
    exact (h.notes note hnote).keeps rfl rfl (suspend_keeps s.holder)
  rw [hcase]
  cases hnewer : s.holder.newer gen with
  | true =>
    -- a higher generation, or the first one: no note is about it
    obtain ⟨hrecovery, hhas'⟩ := applyShards_recovery true sent ans.shards
      { s.holder with shards := ∅, recovery := gen, hasRecovery := true,
                      «instance» := ans.instance }
    refine h.append (fun hhas => ?_) (fun note hnote => ?_) ?_
    · exact absurd (hhas'.symm.trans hhas) (by simp)
    · have hnote := h.notes note hnote
      have hhas : s.holder.hasRecovery = true := by cases note <;> exact hnote.1
      refine hnote.newer ?_ hhas'
      rw [if_pos rfl, hrecovery]
      simpa [Holder.newer, hhas] using hnewer
    rw [if_pos rfl, applyShards_newer]
    simp
  | false =>
    obtain ⟨hhas, hge⟩ : s.holder.hasRecovery = true ∧ gen ≤ s.holder.recovery := by
      simpa [Holder.newer] using hnewer
    obtain rfl : gen = s.holder.recovery := le_antisymm hge (hle hhas)
    have hcomparable := hok hhas hgen
    obtain ⟨hrecovery, hhas'⟩ := applyShards_recovery false sent ans.shards
      { s.holder with hasRecovery := true, «instance» := ans.instance }
    obtain ⟨hkeeps, hstops⟩ := applyShards_keeps sent ans.shards
      (h := { s.holder with hasRecovery := true, «instance» := ans.instance })
      ⟨hcomparable.held, hcomparable.within⟩
    refine h.append (fun hhas₁ => ?_) (fun note hnote => ?_) fun name hname => ?_
    · exact absurd (hhas'.symm.trans hhas₁) (by simp)
    · exact (h.notes note hnote).keeps hrecovery (hhas'.trans hhas.symm) hkeeps
    exact ⟨hhas', le_refl _, fun _ => hstops name hname⟩

theorem tracked_step {s' : System} {a : ViewAction} (h : Tracked s) (hok : Remembers s a)
    (hstep : viewStep s a = some s') : Tracked s' := by
  cases a with
  | verify nonce ans sent =>
    cases hstep
    exact h.verify hok
  | rest now wall =>
    cases hstep
    exact ⟨h.fresh, h.log, h.notes⟩
  | tick now wall =>
    cases hstep
    have hshards : (s.holder.tick now wall).shards = s.holder.shards := by
      unfold Holder.tick
      split
      · next hstalled => exact (hok hstalled).symm
      rfl
    have hkeeps : Keeps s.holder (s.holder.tick now wall) := by
      intro name held hs
      exact ⟨held, by rw [hshards, hs], .inl rfl, id⟩
    refine ⟨fun hhas => hshards.trans (h.fresh hhas), h.log, fun note hnote => ?_⟩
    exact (h.notes note hnote).keeps rfl rfl hkeeps
  | lookup resourceType principal high now order =>
    cases hstep
    exact h.use fun _ _ _ hfound => lookup_held hfound
  | lookupStale resourceType principal now wall order =>
    cases hstep
    exact h.use fun _ _ _ hfound => lookupStale_held hfound

theorem tracked_init (defs : Option Definitions) : Tracked (System.init defs) where
  fresh := fun _ => rfl
  log := List.Pairwise.nil
  notes := by simp [System.init]

/-- **Revisions never go back.** In every run in which a stall never drops a shard and every answer
under the accepted generation brings views comparable with the held ones, the views lookups use for
a shard under one recovery generation go back in no domain, a shard that was stopped is used under
a larger generation only, and the accepted generation never decreases. -/
theorem revisions_never_go_back (defs : Option Definitions) (acts acts' : List ViewAction)
    (s s' : System) (hmeets : Meets viewStep Remembers (System.init defs) (acts ++ acts'))
    (hrun : run viewStep (System.init defs) acts = some s)
      (hrun' : run viewStep s acts' = some s') :
    s'.log.Pairwise ViewNote.Follows ∧ (s.holder.hasRecovery = true →
      s'.holder.hasRecovery = true ∧ s.holder.recovery ≤ s'.holder.recovery) := by
  constructor
  · have htracked : Tracked s' :=
      run_invariant (fun _ _ _ => tracked_step) (tracked_init defs) hmeets (run_trans hrun hrun')
    exact htracked.log
  intro hhas
  have hinvariant : s'.holder.hasRecovery = true ∧ s.holder.recovery ≤ s'.holder.recovery := by
    refine run_invariant_of_step
      (P := fun t => t.holder.hasRecovery = true ∧ s.holder.recovery ≤ t.holder.recovery)
      (fun t a t' ht hstep => ?_) ⟨hhas, le_refl _⟩ hrun'
    obtain ⟨hhas', hle⟩ := viewStep_recovery hstep ht.1
    exact ⟨hhas', ht.2.trans hle⟩
  exact hinvariant

/-! ## A stall forgets -/

/-- A view of one domain at a value, for one resource type. -/
def viewAt (value : String) : Shard where
  securityRevisions := [{ domain := "grants", value := value, epoch := "1.1", «instance» := "m" }]
  applicability := ["order"]
  subjects := ∅

/-- An answer under generation 1 that brings the view for shard `a`. -/
def answerAt (value : String) : VerifyAnswer where
  nonce := "n"
  «instance» := "m"
  shards := [{ shard := "a", status := .changed, view := some (viewAt value) }]
  recoveryGeneration := { domain := "recovery", value := "1" }

def lookupAt (now : Int) : ViewAction := .lookup "order" "u" false now ["a"]

/-- A view at 5 is used; a view at 3 stops the shard; ten seconds later a tick detects the stall and
drops it, and the view at 3 is accepted and used. -/
theorem back_after_a_stall :
    ∃ s, run viewStep (System.init none)
      [.verify "n" (answerAt "5") 1, lookupAt 2, .verify "n" (answerAt "3") 3, .rest 4 4,
        .tick 10000000000 10000000000, .verify "n" (answerAt "3") 10000000001,
        lookupAt 10000000002] = some s ∧ ¬ s.log.Pairwise ViewNote.Follows := by
  refine ⟨_, rfl, fun hlog => ?_⟩
  have hstopped := pairwise_cons.mp (pairwise_cons.mp hlog).2
  exact absurd (hstopped.1 _ mem_cons_self rfl) (lt_irrefl _)

theorem revisions_never_go_back_two_answers :
    ∃ s s', run viewStep (System.init none) [.verify "n" (answerAt "5") 1, lookupAt 2] = some s ∧
      run viewStep s [.verify "n" (answerAt "7") 3, .rest 4 4, .tick 5 5, lookupAt 6] = some s' ∧
      s'.log.length = 2 ∧ s'.log.Pairwise ViewNote.Follows ∧
      s.holder.recovery ≤ s'.holder.recovery := by
  have hcomparable : ∀ h : Holder, h.shards.lookup "a" = some
      { shard := viewAt "5", sentAt := 1, highAt := 1, hasHigh := true } →
      Comparable h (answerAt "7").shards := by
    intro h hs
    refine ⟨fun a ha _ v hv s₁ hs₁ => ?_, pairwise_singleton _ _⟩
    obtain rfl := mem_singleton.mp ha
    obtain rfl : viewAt "7" = v := Option.some.inj hv
    rw [hs, Option.some.injEq] at hs₁
    rw [← hs₁]
    unfold Succeeds
    decide
  refine ⟨?s, ?t, ?hrun, ?hrest, ?hlength,
    (have h := revisions_never_go_back none _ _ ?s ?t ?hmeets ?hrun ?hrest
     ⟨h.1, (h.2 ?hgeneration).2⟩)⟩
  case hrun | hrest | hlength | hgeneration => rfl
  refine .cons (fun hhas => absurd hhas (by decide)) rfl (.cons trivial rfl ?_)
  refine .cons (fun _ _ => hcomparable _ rfl) rfl (.cons trivial rfl ?_)
  exact .cons (fun hstalled => absurd hstalled (by decide)) rfl (.cons trivial rfl trivial)

end BeSdk.Authz

import BeSdk.Projection.Watermarked

/-!
# What transactions do to the alignment state

The alignment state of a watermark source only moves by inputs to the state table. For each
transaction of `Watermarked.lean` this file says which inputs it gives and that nothing else of the
state moves: a `Path` leads from the stored state before to the stored state after, one turn at a
time, and the adopted identity stands still except where `identify` adopts another one.

Inside a transaction the argument is about `Txn.From`: the state in memory and the stored one agree
whenever the next event is looked at. The only turns of an event that is applied are rollbacks under
the adopted generation.
-/

namespace BeSdk.Projection

open List Txn

/-- From one state to another by these turns. Positions and the alignment generation do not count.
-/
inductive Path : WmState → List Turn → WmState → Prop where
  | nil {w w' : WmState} (hstate : w'.toSourceState = w.toSourceState)
      (hrefetch : w'.refetch = w.refetch) : Path w [] w'
  | cons {w w₁ w' : WmState} {ev : SourceEvent} {turns : List Turn}
      (hstate : w₁.toSourceState = w.toSourceState) (hrefetch : w₁.refetch = w.refetch)
      (hadopted : w₁.adopted = w.adopted) (hrest : Path (w₁.transition ev) turns w') :
      Path w ((w₁, ev) :: turns) w'

theorem Path.refl (w : WmState) : Path w [] w := .nil rfl rfl

variable {turns : List Turn}

theorem Path.snoc {w w₁ w₂ : WmState} {ev : SourceEvent} (hpath : Path w turns w₁)
    (hadopted : w₂.adopted = w.adopted) (hstate : w₂.toSourceState = w₁.toSourceState)
    (hrefetch : w₂.refetch = w₁.refetch) : Path w (turns ++ [(w₂, ev)]) (w₂.transition ev) := by
  induction hpath with
  | nil hstate₁ hrefetch₁ =>
    exact .cons (hstate.trans hstate₁) (hrefetch.trans hrefetch₁) hadopted (.refl _)
  | cons hstate₁ hrefetch₁ hadopted₁ _ ih =>
    exact .cons hstate₁ hrefetch₁ hadopted₁ (ih (hadopted.trans hadopted₁.symm) hstate hrefetch)

/-- What a path leads to may differ in what does not count. -/
theorem Path.congr {w w₁ w₂ : WmState} (hpath : Path w turns w₁)
    (hstate : w₂.toSourceState = w₁.toSourceState) (hrefetch : w₂.refetch = w₁.refetch) :
    Path w turns w₂ := by
  induction hpath with
  | nil hstate₁ hrefetch₁ => exact .nil (hstate.trans hstate₁) (hrefetch.trans hrefetch₁)
  | cons hstate₁ hrefetch₁ hadopted₁ _ ih =>
    exact .cons hstate₁ hrefetch₁ hadopted₁ (ih hstate hrefetch)

/-- A property that every turn of a kind keeps is kept by a path of such turns. -/
theorem Path.invariant {P : WmState → Prop} {Q : WmState → SourceEvent → Prop} {w w' : WmState}
    (hcongr : ∀ w w' : WmState, w'.toSourceState = w.toSourceState →
      w'.refetch = w.refetch → P w → P w') (hturn : ∀ w ev, Q w ev → P w → P (w.transition ev))
    (hok : ∀ turn ∈ turns, Q turn.1 turn.2) (hpath : Path w turns w') (hw : P w) : P w' := by
  induction hpath with
  | nil hstate hrefetch => exact hcongr _ _ hstate hrefetch hw
  | cons hstate hrefetch _ _ ih =>
    refine ih (fun turn hmem => hok turn (mem_cons_of_mem _ hmem)) ?_
    exact hturn _ _ (hok _ mem_cons_self) (hcongr _ _ hstate hrefetch hw)

/-! ## Inside a transaction -/

section Txn

/-- Without an adopted instance there is no adopted epoch. -/
def WmState.Settled (w : WmState) : Prop := w.adopted.impl = "" → w.adopted.epoch = ""

variable {w : WmState}

theorem WmState.Settled.congr {w' : WmState} (hadopted : w'.adopted = w.adopted)
    (h : w.Settled) : w'.Settled := by
  unfold WmState.Settled
  rw [hadopted]
  exact h

variable {J : Type}

/-- A transaction that applies events has come from the stored state `w` by rollbacks under the
adopted generation, and holds in memory what it has stored. -/
structure Txn.From (w : WmState) (t : Txn J) : Prop where
  path : Path w t.turns t.db.wm
  state : t.st.toSourceState = t.db.wm.toSourceState
  refetch : t.st.refetch = t.db.wm.refetch
  adopted : t.db.wm.adopted = w.adopted
  adoptedSt : t.st.adopted = w.adopted
  alignGen : t.db.wm.alignGen = w.alignGen
  alignGenSt : t.st.alignGen = w.alignGen
  turns : ∀ turn ∈ t.turns,
    turn.2 = { kind := .rollback, gen := generation w.adopted.epoch } ∧ turn.1.adopted = w.adopted

theorem Txn.From.load (db : Db J) : Txn.From db.wm db.load where
  path := .refl _
  state := rfl
  refetch := rfl
  adopted := rfl
  adoptedSt := rfl
  alignGen := rfl
  alignGenSt := rfl
  turns := by simp [Db.load]

variable {t t' : Txn J}

/-- Whatever a transaction does to the rest of its tables. -/
theorem Txn.From.congr (h : t.From w) (hstate : t'.db.wm.toSourceState = t.db.wm.toSourceState)
    (hrefetch : t'.db.wm.refetch = t.db.wm.refetch) (hadopted : t'.db.wm.adopted = t.db.wm.adopted)
    (halignGen : t'.db.wm.alignGen = t.db.wm.alignGen)
    (hst : t'.st.toSourceState = t.st.toSourceState ∧ t'.st.refetch = t.st.refetch ∧
      t'.st.adopted = t.st.adopted ∧ t'.st.alignGen = t.st.alignGen)
    (hturns : t'.turns = t.turns) : t'.From w where
  path := by
    rw [hturns]
    exact h.path.congr hstate hrefetch
  state := hst.1.trans (h.state.trans hstate.symm)
  refetch := hst.2.1.trans (h.refetch.trans hrefetch.symm)
  adopted := hadopted.trans h.adopted
  adoptedSt := hst.2.2.1.trans h.adoptedSt
  alignGen := halignGen.trans h.alignGen
  alignGenSt := hst.2.2.2.trans h.alignGenSt
  turns := by
    rw [hturns]
    exact h.turns

theorem Txn.From.advance (h : t.From w) (e : Received J) (p : PartState) : (t.advance e p).From w :=
  h.congr rfl rfl rfl rfl ⟨rfl, rfl, rfl, rfl⟩ rfl

/-- What saveState stores is the state in memory. -/
theorem Txn.saveState_adopted (hsettled : t.st.Settled) :
    t.saveState.db.wm.adopted = t.st.adopted := by
  unfold Txn.saveState
  split
  · next himpl => simp [← hsettled himpl]
  rfl

/-- A rollback is given to the table and stored. -/
theorem Txn.From.rollback (h : t.From w) (hsettled : w.Settled) :
    (t.transition
      { kind := .rollback, gen := generation t.st.adopted.epoch }).saveState.From w := by
  have hsettledSt : (t.transition
      { kind := .rollback, gen := generation t.st.adopted.epoch }).st.Settled := by
    simp only [WmState.Settled, Txn.transition, WmState.transition, h.adoptedSt]
    exact hsettled
  have hadopted := saveState_adopted hsettledSt
  constructor
  · refine (h.path.snoc h.adoptedSt h.state h.refetch).congr rfl rfl
  · rfl
  · rfl
  · exact hadopted.trans h.adoptedSt
  · exact h.adoptedSt
  · exact h.alignGen
  · exact h.alignGenSt
  intro turn hturn
  rcases mem_append.mp hturn with hturn | hturn
  · exact h.turns turn hturn
  · cases mem_singleton.mp hturn
    exact ⟨by rw [h.adoptedSt], h.adoptedSt⟩

theorem Db.setSourceRow_sourceRow (db : Db J) : db.setSourceRow db.sourceRow = db := rfl

variable [DecidableEq J]

theorem Txn.From.digestTripwire (h : t.From w) (hsettled : w.Settled)
    (e : Received J) : (t.digestTripwire e).From w := by
  unfold Txn.digestTripwire
  split
  · exact h.rollback hsettled
  exact h

variable [EmptyCollection J] [Append J]

omit [DecidableEq J] in
/-- An input of the adopted instance leaves the source row alone. -/
theorem apply_sourceRow {src src' : SourceRow} {rows rows' : Rows J} {i : Input J} {o : Outcome}
    (himpl : i.impl = src.impl) (happly : apply src rows i = some (src', rows', o)) :
    src' = src := by
  have hother : src.skips i ≠ some (some .otherInstance) := by
    unfold SourceRow.skips
    rw [if_neg (not_not.mpr himpl)]
    split
    · simp
    split <;> simp
  unfold apply at happly
  split at happly
  · cases happly
  · next hskip => exact absurd hskip hother
  · cases happly
    rfl
  split at happly <;> cases happly <;> rfl

variable {cfg : Config J}

theorem Txn.From.applyInput (h : t.From w)
    (hsettled : w.Settled) {e : Received J} (happly : t.applyInput cfg e = some t') :
    t'.From w := by
  unfold Txn.applyInput at happly
  split at happly
  · cases happly
  split at happly
  · cases happly
  rename_i src rows _ happlied
  have hsrc : src = t.db.sourceRow :=
    apply_sourceRow (congrArg Identity.impl (h.adoptedSt.trans h.adopted.symm)) happlied
  rw [hsrc, Db.setSourceRow_sourceRow] at happly
  have hrows : Txn.From w { t with db := { t.db with rows := rows } } :=
    h.congr rfl rfl rfl rfl ⟨rfl, rfl, rfl, rfl⟩ rfl
  cases happly
  split
  · exact hrows.digestTripwire hsettled e
  exact hrows

/-- An event that is applied turns the table by nothing but the tripwire. -/
theorem Txn.From.applyAt {e : Received J} {fault : Fault} {contiguous : Bool} (h : t.From w)
    (hsettled : w.Settled) (hdone : t.applyAt cfg e fault contiguous = .done t') : t'.From w := by
  have hquarantine : (t.quarantine e).From w := h.congr rfl rfl rfl rfl ⟨rfl, rfl, rfl, rfl⟩ rfl
  unfold Txn.applyAt at hdone
  split at hdone
  · cases hdone
  rename_i p _
  split at hdone
  · cases hdone
  split at hdone
  · cases hdone
    exact h
  split at hdone
  · cases hdone
  split at hdone
  · split at hdone
    · cases hdone
    split at hdone
    · cases hdone
      exact hquarantine.advance e p
    · cases hdone
      exact hquarantine
  split at hdone
  · split at hdone
    · cases hdone
      exact h.advance e _
    · cases hdone
      exact h.congr rfl rfl rfl rfl ⟨rfl, rfl, rfl, rfl⟩ rfl
  split at hdone
  · cases hdone
  split at hdone
  · cases hdone
  rename_i t₁ hinput
  have hinput := h.applyInput hsettled hinput
  split at hdone
  · cases hdone
    exact hinput.advance e p
  · cases hdone
    exact hinput

theorem Txn.From.applyRows (hsettled : w.Settled) (rows : List (Received J × Fault)) (h : t.From w)
    (hrows : t.applyRows cfg rows = .ok t') : t'.From w := by
  induction rows generalizing t with
  | nil =>
    cases hrows
    exact h
  | cons row rows ih =>
    obtain ⟨e, fault⟩ := row
    unfold Txn.applyRows at hrows
    split at hrows
    · cases hrows
      exact h
    split at hrows
    · next hdone => exact ih (h.applyAt hsettled hdone) hrows
    · exact ih h hrows
    · cases hrows
    cases hrows

end Txn

/-! ## Whole transactions -/

section Whole
variable {J : Type}

/-- A transaction that leaves the adopted identity alone: its turns, all of them `ok`, lead from the
state before to the state after. -/
structure Db.Turned (ok : SourceEvent → Prop) (db : Db J) (result : Result J) : Prop where
  path : Path db.wm result.2 result.1.wm
  adopted : result.1.wm.adopted = db.wm.adopted
  alignGen : result.1.wm.alignGen = db.wm.alignGen
  turns : ∀ turn ∈ result.2, ok turn.2 ∧ turn.1.adopted = db.wm.adopted

def Db.tripped (db : Db J) : SourceEvent :=
  { kind := .rollback, gen := generation db.wm.adopted.epoch }

variable {ok : SourceEvent → Prop} {db : Db J}

theorem Txn.From.turned {t : Txn J} (h : t.From db.wm)
    (hok : ok db.tripped) : db.Turned ok t.commit where
  path := h.path
  adopted := h.adopted
  alignGen := h.alignGen
  turns := fun turn hturn => by
    obtain ⟨hev, hadopted⟩ := h.turns turn hturn
    exact ⟨hev ▸ hok, hadopted⟩

variable {result : Result J}

theorem Db.Turned.mono {ok' : SourceEvent → Prop}
    (himp : ∀ ev, ok ev → ok' ev) (h : db.Turned ok result) : db.Turned ok' result where
  path := h.path
  adopted := h.adopted
  alignGen := h.alignGen
  turns := fun turn hturn => ⟨himp _ (h.turns turn hturn).1, (h.turns turn hturn).2⟩

theorem Db.Turned.refl (ok : SourceEvent → Prop) (db : Db J) : db.Turned ok (db, []) where
  path := .refl _
  adopted := rfl
  alignGen := rfl
  turns := by simp

theorem Db.Turned.rollback (ok : SourceEvent → Prop) (db : Db J) (e : Received J) (fault : Fault) :
    db.Turned ok (db.rollback e fault) := by
  unfold Db.rollback Db.noteFailure
  split
  · exact .refl ok db
  split <;> exact ⟨.nil rfl rfl, rfl, rfl, by simp⟩

theorem Db.Turned.transition (hsettled : db.wm.Settled)
    {ev : SourceEvent} (hok : ok ev) : db.Turned ok (db.load.transition ev).saveState.commit where
  path := Path.congr
    (.cons rfl rfl rfl (.refl _) : Path db.wm [(db.wm, ev)] (db.wm.transition ev)) rfl rfl
  adopted := saveState_adopted (t := db.load.transition ev) hsettled
  alignGen := rfl
  turns := by
    intro turn hturn
    cases mem_singleton.mp hturn
    exact ⟨hok, rfl⟩

section Events
variable [DecidableEq J] [EmptyCollection J] [Append J]

/-- The inputs `Handle` gives to the table: a foreign event, or rollbacks under the adopted
generation. -/
theorem Db.handle_turned {cfg : Config J} (hsettled : db.wm.Settled) (e : Received J)
    (fault : Fault) :
    db.Turned (fun ev => ev.kind = .foreign ∧ e.impl ≠ db.wm.adopted.impl ∨ ev = db.tripped)
      (db.handle cfg e fault) := by
  unfold Db.handle
  dsimp only
  split
  · exact .refl _ db
  split
  · next hforeign => exact .transition hsettled (.inl ⟨rfl, hforeign⟩)
  split
  · exact .refl _ db
  split
  · exact .refl _ db
  split
  · exact .refl _ db
  split
  · next t hdone => exact ((Txn.From.load db).applyAt hsettled hdone).turned (.inr rfl)
  · exact .refl _ db
  · exact .rollback _ db e fault
  exact .refl _ db

/-- A page's rows give it nothing but rollbacks under the adopted generation. -/
theorem Db.applyPartition_turned {cfg : Config J} (hsettled : db.wm.Settled)
    (rows : List (Received J × Fault)) :
    db.Turned (· = db.tripped) (db.applyPartition cfg rows).1 := by
  unfold Db.applyPartition
  split
  · exact .refl _ db
  split
  · next t hrows => exact ((Txn.From.load db).applyRows hsettled rows hrows).turned rfl
  · next e fault _ => exact .rollback _ db e fault
  exact .refl _ db

end Events

/-- The turns of `usePartitions`: at most one, to realign or to stall. -/
theorem Txn.usePartitions_turned {gen : Int} {requested : List Nat} {t : Txn J}
    {use : Bool} (hsettled : db.wm.Settled) (prs : List (PartitionResult J))
    (huse : db.load.usePartitions gen requested prs = some (t, use)) :
    db.Turned (fun ev => ev = { kind := .beyondRetention, gen := gen } ∨
      ev = { kind := .rollback, gen := gen }) t.commit := by
  induction prs with
  | nil =>
    cases huse
    exact .refl _ db
  | cons pr prs ih =>
    unfold Txn.usePartitions at huse
    split at huse
    · exact ih huse
    split at huse
    · cases huse
    split at huse
    · cases huse
      exact .transition hsettled (.inl rfl)
    · cases huse
      exact .transition hsettled (.inr rfl)
    exact ih huse

theorem Db.confirm_turned (hsettled : db.wm.Settled) :
    db.Turned (·.kind = .operatorConfirms) db.confirm :=
  .transition hsettled rfl

/-- The inputs `identify` gives to the table where it adopts nothing. -/
inductive Db.Heard (db : Db J) (d : Declaration) : SourceEvent → Prop where
  -- The adopted deployment and instance answer a blocked source.
  | response {ev : SourceEvent} (hblocked : db.wm.state = .blocked)
      (hkind : ev.kind = .primaryResponse) (hgen : ev.gen = generation d.epoch)
      (hmatching : ev.matching = true → decideEpoch db.wm.adopted (declared d) = .use ∨
        decideEpoch db.wm.adopted (declared d) = .adopt) : Heard db d ev
  | foreign {ev : SourceEvent} (hkind : ev.kind = .foreign)
      (hdecision : decideEpoch db.wm.adopted (declared d) = .block) : Heard db d ev
  | retention {ev : SourceEvent} (hkind : ev.kind = .beyondRetention) : Heard db d ev
  | rollback {ev : SourceEvent} (hkind : ev.kind = .rollback) (hgen : ev.gen = generation d.epoch)
      (hblocked : db.wm.state ≠ .blocked)
      (hdecision : decideEpoch db.wm.adopted (declared d) = .stall ∨
        decideEpoch db.wm.adopted (declared d) = .use) : Heard db d ev

structure Db.Adopted (db : Db J) (d : Declaration) (result : Result J) : Prop where
  state : db.wm.state ≠ .blocked
  decision : decideEpoch db.wm.adopted (declared d) = .establish ∧ db.wm.adopted.impl = "" ∨
    decideEpoch db.wm.adopted (declared d) = .adopt
  turns : ∃ kind, (kind = .firstContact ∨ kind = .adoptEpoch) ∧
    result.2 = [(db.wm.adopt (declared d), { kind := kind, gen := generation d.epoch })]
  path : Path (db.wm.adopt (declared d)) result.2 result.1.wm
  adopted : result.1.wm.adopted = { db.wm.adopted with
    impl := d.impl, systemID := d.systemID, epoch := if d.impl = "" then "" else d.epoch }
  alignGen : result.1.wm.alignGen = db.wm.alignGen

variable {d : Declaration}

theorem Db.Adopted.impl (h : db.Adopted d result) : result.1.wm.adopted.impl = d.impl := by
  rw [h.adopted]

theorem Db.Adopted.epoch (h : db.Adopted d result) :
    result.1.wm.adopted.epoch = if d.impl = "" then "" else d.epoch := by
  rw [h.adopted]

theorem decideEpoch_establish {adopted r : Identity} (h : decideEpoch adopted r = .establish) :
    adopted.impl = "" := by
  unfold decideEpoch at h
  split at h
  · cases h
  split at h
  · assumption
  split at h
  · cases h
  split at h
  · split at h <;> cases h
  split at h
  · cases h
  split at h <;> cases h

theorem Db.identify_cases {requested : List Nat} {prs : List (PartitionResult J)} {use : Bool}
    (hsettled : db.wm.Settled) (hidentify : db.identify d requested prs = some (result, use)) :
    db.Turned (db.Heard d) result ∨ db.Adopted d result := by
  unfold Db.identify at hidentify
  dsimp only at hidentify
  split at hidentify
  next hblocked =>
    cases hidentify
    exact .inl (.transition hsettled (.response hblocked.1 rfl rfl fun hmatching => by
      simpa using hmatching))
  rename_i hnot
  have hstate {decision : Decision}
    (hdecision : decideEpoch db.wm.adopted (declared d) = decision)
      (hne : decision ≠ .block) : db.wm.state ≠ .blocked :=
    fun hblocked => hnot ⟨hblocked, hdecision ▸ hne⟩
  split at hidentify
  next hdecision =>
    cases hidentify
    exact .inr ⟨hstate hdecision (by simp),
      .inl ⟨hdecision, decideEpoch_establish hdecision⟩, ⟨_, .inl rfl, rfl⟩,
      .cons rfl rfl rfl (.nil rfl rfl), rfl, rfl⟩
  next hdecision =>
    cases hidentify
    exact .inr ⟨hstate hdecision (by simp), .inr hdecision, ⟨_, .inr rfl, rfl⟩,
      .cons rfl rfl rfl (.nil rfl rfl), rfl, rfl⟩
  next hdecision =>
    cases hidentify
    exact .inl (.transition hsettled
      (.rollback rfl rfl (hstate hdecision (by simp)) (.inl hdecision)))
  next hdecision =>
    cases hidentify
    exact .inl (.transition hsettled (.foreign rfl hdecision))
  · cases hidentify
    exact .inl (.refl _ db)
  · cases hidentify
    exact .inl (.refl _ db)
  rename_i hdecision
  obtain ⟨⟨t, use'⟩, huse, ⟨⟩⟩ := Option.map_eq_some_iff.mp hidentify
  refine .inl ((usePartitions_turned hsettled prs huse).mono fun ev hev => ?_)
  rcases hev with hev | hev <;> rw [hev]
  · exact .retention rfl
  exact .rollback rfl rfl (hstate hdecision (by simp)) (.inr hdecision)

/-- The completion of an alignment takes back the request for one, then tells the table, unless the
source is in another state than aligning. -/
theorem Db.done_turned (hsettled : db.wm.Settled) (nonce : String) (p0 : List Nat) :
    Db.Turned (fun ev => ev = { kind := .alignmentDone, gen := generation db.wm.adopted.epoch })
      { db with wm := { db.wm with refetch := false } } (db.done nonce p0) := by
  unfold Db.done
  dsimp only
  split
  · exact ⟨.cons rfl rfl rfl (.nil rfl rfl), saveState_adopted hsettled, rfl,
      fun turn hturn => by cases mem_singleton.mp hturn; exact ⟨rfl, rfl⟩⟩
  exact ⟨.nil rfl rfl, saveState_adopted hsettled, rfl, by simp [Txn.saveState, Txn.commit]⟩

end Whole
end BeSdk.Projection

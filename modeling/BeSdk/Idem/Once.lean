import BeSdk.Idem.Do
import BeSdk.Library.Tables

/-!
# One run in a retention period

Of the calls with one key, a command commits only when the record of every one before it has
expired; a call that answers without an error answers what the last command that committed decided,
and its request is that one's; a call with another request answers that the key was reused or is in
progress, or that its own transaction failed, and commits nothing.

What holds the argument together is the one row.  Its committed record is that of the last command,
or there is none and all have expired.  A call that has claimed the key holds the row, and has found
no record that had not expired; a call that answers a stored outcome holds it too, so that what it
has read is still committed when it ends (`PhaseOk`).
-/

namespace BeSdk.Idem

open Function RowLocks Runs Tables List Table

def Event.run : Event → Option Ran
  | .ran r => some r
  | .answered _ _ _ => none

/-- The commands that committed, the latest first. -/
def runs (log : List Event) : List Ran := log.filterMap Event.run

structure RecordOf (jsonb : String → Option String) (record : Record) (r : Ran) : Prop where
  fingerprint : record.fingerprint = r.fingerprint
  stored : r.out.stored jsonb = some ⟨record.status, record.result⟩
  expiresAt : record.expiresAt = r.expiresAt

/-- What an answer says of the commands that committed before it. -/
def AnswerOk (jsonb : String → Option String) (before : List Ran) (w : Nat) (fp : String) :
    Answer → Prop
  | .done out replayed => ∃ r, before.head? = some r ∧ r.fingerprint = fp ∧
      if replayed then r.out.stored jsonb = some out else r.call = w ∧ r.out = out
  | .unknown => ∃ r, before.head? = some r ∧ r.fingerprint = fp
  | _ => True

/-- What each entry of the log says of those before it. -/
inductive LogOk (jsonb : String → Option String) : List Event → Prop
  | nil : LogOk jsonb []
  | ran {log : List Event} (h : LogOk jsonb log) {r : Ran}
      (hexpired : ∀ r' ∈ runs log, r'.expiresAt ≤ r.committed) : LogOk jsonb (.ran r :: log)
  | answered {log : List Event} (h : LogOk jsonb log) {w : Nat} {fp : String} {a : Answer}
      (ha : AnswerOk jsonb (runs log) w fp a) : LogOk jsonb (.answered w fp a :: log)

/-! ## The invariant -/

/-- Where a call stands to the row: whether it holds it, what it sees of it and what is committed;
`before` are the commands that committed. -/
inductive PhaseOk (jsonb : String → Option String) (clock : Int) (committed : Option Record)
    (before : List Ran) (fp : String) (holds : Bool) (sees : Option Record) : Phase → Prop
  | out {p : Phase} (hp : p = .idle ∨ (∃ n, p = .waiting n) ∨ ∃ a, p = .answered a)
      (hnot : holds = false) : PhaseOk jsonb clock committed before fp holds sees p
  | inserting {n : Nat} {now : Int} (hnot : holds = false) (hnow : now ≤ clock) :
      PhaseOk jsonb clock committed before fp holds sees (.inserting n now)
  | running {n : Nat} {now : Int} {r : Record} (hholds : holds = true) (hsees : sees = some r)
      (hfp : r.fingerprint = fp) (hexpires : r.expiresAt = now + retention)
      (hexpired : ∀ r' ∈ before, r'.expiresAt ≤ clock) :
      PhaseOk jsonb clock committed before fp holds sees (.running n now)
  | storing {n : Nat} {now : Int} {out : Outcome} {r : Record} (hholds : holds = true)
      (hsees : sees = some r) (hfp : r.fingerprint = fp) (hexpires : r.expiresAt = now + retention)
      (hexpired : ∀ r' ∈ before, r'.expiresAt ≤ clock) :
      PhaseOk jsonb clock committed before fp holds sees (.storing n now out)
  | committing {n : Nat} {now : Int} {out : Outcome} {r : Record} (hholds : holds = true)
      (hsees : sees = some r) (hfp : r.fingerprint = fp) (hexpires : r.expiresAt = now + retention)
      (hstored : out.stored jsonb = some ⟨r.status, r.result⟩)
      (hexpired : ∀ r' ∈ before, r'.expiresAt ≤ clock) :
      PhaseOk jsonb clock committed before fp holds sees (.committing n now out false)
  | looking {n : Nat} {now : Int} (hholds : holds = true) (hsees : sees = committed) :
      PhaseOk jsonb clock committed before fp holds sees (.looking n now)
  | replaying {n : Nat} {now : Int} {r : Record} (hholds : holds = true) (hsees : sees = some r)
      (hcommitted : committed = some r) (hfp : r.fingerprint = fp) :
      PhaseOk jsonb clock committed before fp holds sees
        (.committing n now ⟨r.status, r.result⟩ true)
  | cleaning {now : Int} (hnot : holds = false) (hnow : now ≤ clock) :
      PhaseOk jsonb clock committed before fp holds sees (.cleaning now)
  | cleaned (hholds : holds = true) (hsees : sees = none)
      (hexpired : ∀ r' ∈ before, r'.expiresAt ≤ clock) :
      PhaseOk jsonb clock committed before fp holds sees .cleaned

structure KeyOk (jsonb : String → Option String) (s : Key) : Prop where
  record : ∀ r, s.row.committed () = some r → ∃ ran, (runs s.log).head? = some ran ∧
    RecordOf jsonb r ran
  gone : s.row.committed () = none → ∀ r ∈ runs s.log, r.expiresAt ≤ s.clock
  older : ∀ r ∈ (runs s.log).tail, r.expiresAt ≤ s.clock
  phases : ∀ w, PhaseOk jsonb s.clock (s.row.committed ()) (runs s.log) (s.calls w).fingerprint
    (s.row.holds w ()) (s.row.sees w ()) (s.phases w)
  answers : ∀ w fp a, .answered w fp a ∈ s.log → s.phases w = .answered a
  ran : ∀ r ∈ runs s.log, s.phases r.call = .answered .unknown ∨
    ∃ out, s.phases r.call = .answered (.done out false)
  log : LogOk jsonb s.log

section Frames
variable {jsonb : String → Option String} {clock clock' : Int}
  {committed committed' : Option Record} {before before' : List Ran}
  {fp : String} {holds : Bool} {sees sees' : Option Record} {p : Phase}

theorem PhaseOk.later (h : PhaseOk jsonb clock committed before fp holds sees p)
    (hle : clock ≤ clock') : PhaseOk jsonb clock' committed before fp holds sees p := by
  have hexpired : (∀ r ∈ before, r.expiresAt ≤ clock) → ∀ r ∈ before, r.expiresAt ≤ clock' :=
    fun h r hr => Int.le_trans (h r hr) hle
  cases h with
  | out hp hnot => exact .out hp hnot
  | inserting hnot hnow => exact .inserting hnot (Int.le_trans hnow hle)
  | running hholds hsees hfp hexp h => exact .running hholds hsees hfp hexp (hexpired h)
  | storing hholds hsees hfp hexp h => exact .storing hholds hsees hfp hexp (hexpired h)
  | committing hholds hsees hfp hexp hstored h =>
    exact .committing hholds hsees hfp hexp hstored (hexpired h)
  | looking hholds hsees => exact .looking hholds hsees
  | replaying hholds hsees hcommitted hfp => exact .replaying hholds hsees hcommitted hfp
  | cleaning hnot hnow => exact .cleaning hnot (Int.le_trans hnow hle)
  | cleaned hholds hsees h => exact .cleaned hholds hsees (hexpired h)

/-- A call that does not hold the row depends on nothing but the clock. -/
theorem PhaseOk.notHolding (h : PhaseOk jsonb clock committed before fp false sees p) :
    PhaseOk jsonb clock committed' before' fp false sees' p := by
  cases h with
  | out hp hnot => exact .out hp hnot
  | inserting hnot hnow => exact .inserting hnot hnow
  | cleaning hnot hnow => exact .cleaning hnot hnow
  | running hholds | storing hholds | committing hholds | looking hholds | replaying hholds
  | cleaned hholds => cases hholds

end Frames

section Steps
variable {jsonb : String → Option String} {s : Key} {w : Nat} {p : Phase} {row : Table Unit Record}

theorem KeyOk.start (clock : Int) : KeyOk jsonb (Key.start clock) where
  record := nofun
  gone := nofun
  older := nofun
  phases := fun _ => .out (.inl rfl) rfl
  answers := nofun
  ran := nofun
  log := .nil

section
variable (h : KeyOk jsonb s)
include h

theorem KeyOk.own (hphase : s.phases w = p) :
    PhaseOk jsonb s.clock (s.row.committed ()) (runs s.log) (s.calls w).fingerprint
      (s.row.holds w ()) (s.row.sees w ()) p :=
  hphase ▸ h.phases w

section
variable (hw : ∀ a, s.phases w ≠ .answered a)
include hw

/-- A call that moves has not answered, so that the phases of those that have stay. -/
theorem KeyOk.answers_moved {w' : Nat} {fp : String} {a : Answer}
    (hmem : .answered w' fp a ∈ s.log) : update s.phases w p w' = .answered a := by
  have hphase := h.answers w' fp a hmem
  have hne : w' ≠ w := fun heq => hw a (heq ▸ hphase)
  exact (update_of_ne hne ..).trans hphase

theorem KeyOk.ran_moved {r : Ran} (hr : r ∈ runs s.log) :
    update s.phases w p r.call = .answered .unknown ∨
      ∃ out, update s.phases w p r.call = .answered (.done out false) := by
  have hphase := h.ran r hr
  rw [update_of_ne]
  · exact hphase
  rintro rfl
  rcases hphase with hphase | ⟨out, hphase⟩
  · exact hw _ hphase
  exact hw _ hphase

/-- A step of one call that neither ends it nor commits. -/
theorem KeyOk.goOn {calls : Nat → Call} (hcommitted : row.committed = s.row.committed)
    (hholds : ∀ w', w' ≠ w → row.holds w' () = s.row.holds w' ())
    (hsees : ∀ w', w' ≠ w → row.sees w' () = s.row.sees w' ())
    (hcalls : ∀ w', w' ≠ w → calls w' = s.calls w')
    (hown : PhaseOk jsonb s.clock (s.row.committed ()) (runs s.log) (calls w).fingerprint
      (row.holds w ()) (row.sees w ()) p) :
    KeyOk jsonb ({ s with row := row, calls := calls }.goTo w p) where
  record := hcommitted ▸ h.record
  gone := hcommitted ▸ h.gone
  older := h.older
  phases := by
    intro w'
    change PhaseOk jsonb s.clock (row.committed ()) (runs s.log) (calls w').fingerprint
      (row.holds w' ()) (row.sees w' ()) (update s.phases w p w')
    rw [hcommitted]
    rcases update_cases s.phases w p w' with ⟨rfl, hself⟩ | ⟨hne, hother⟩
    · rw [hself]
      exact hown
    rw [hother, hholds w' hne, hsees w' hne, hcalls w' hne]
    exact h.phases w'
  answers := fun _ _ _ => h.answers_moved hw
  ran := fun _ => h.ran_moved hw
  log := h.log

theorem KeyOk.goTo
    (hown : PhaseOk jsonb s.clock (s.row.committed ()) (runs s.log) (s.calls w).fingerprint
      (s.row.holds w ()) (s.row.sees w ()) p) : KeyOk jsonb (s.goTo w p) :=
  h.goOn hw rfl (fun _ _ => rfl) (fun _ _ => rfl) (fun _ _ => rfl) hown

theorem KeyOk.put (hfree : s.row.free w () = true) {v : Option Record}
    (hown : PhaseOk jsonb s.clock (s.row.committed ()) (runs s.log) (s.calls w).fingerprint
      true v p) : KeyOk jsonb ({ s with row := s.row.put w () v }.goTo w p) := by
  refine h.goOn hw rfl (fun _ hne => put_holds_other hfree hne)
    (fun _ hne => put_sees_other hfree hne) (fun _ _ => rfl) ?_
  rw [put_holds_self, put_sees_self]
  exact hown

theorem KeyOk.answer {a : Answer} (hcommitted : row.committed = s.row.committed)
    (hholds : ∀ w', w' ≠ w → row.holds w' () = s.row.holds w' ())
    (hsees : ∀ w', w' ≠ w → row.sees w' () = s.row.sees w' ()) (hnot : row.holds w () = false)
    (ha : AnswerOk jsonb (runs s.log) w (s.calls w).fingerprint a) :
    KeyOk jsonb ({ s with row := row }.answer w a) := by
  have hmoved := h.goOn hw hcommitted hholds hsees (fun _ _ => rfl)
    (.out (p := .answered a) (.inr (.inr ⟨a, rfl⟩)) hnot)
  refine { hmoved with
    answers := fun w' fp a' hmem => ?_
    log := .answered h.log ha }
  rcases mem_cons.1 hmem with heq | hmem
  · cases heq
    exact update_self ..
  exact hmoved.answers w' fp a' hmem

theorem KeyOk.rollbackAnswer {a : Answer}
    (ha : AnswerOk jsonb (runs s.log) w (s.calls w).fingerprint a) :
    KeyOk jsonb ((s.rollback w).answer w a) :=
  h.answer hw rfl (fun _ hne => release_holds_other hne)
    (fun _ hne => rollback_sees_other hne) release_holds_self ha

theorem KeyOk.rollbackGoTo (hp : p = .idle ∨ (∃ n, p = .waiting n) ∨ ∃ a, p = .answered a) :
    KeyOk jsonb ((s.rollback w).goTo w p) :=
  h.goOn hw rfl (fun _ hne => release_holds_other hne)
    (fun _ hne => rollback_sees_other hne) (fun _ _ => rfl)
    (.out hp release_holds_self)

end

theorem KeyOk.tick (d : Nat) : KeyOk jsonb { s with clock := s.clock + d } := by
  have hle : s.clock ≤ s.clock + d := by omega
  exact { h with
    gone := fun hnone r hr => Int.le_trans (h.gone hnone r hr) hle
    older := fun r hr => Int.le_trans (h.older r hr) hle
    phases := fun w => (h.phases w).later hle }

/-! ## The claim and the commits -/

/-- The record of the last command, or none, has expired: so have all before it. -/
theorem KeyOk.expired (hrecord : ∀ r, s.row.committed () = some r → r.expiresAt ≤ s.clock) :
    ∀ r ∈ runs s.log, r.expiresAt ≤ s.clock := by
  intro r hr
  cases hcommitted : s.row.committed () with
  | none => exact h.gone hcommitted r hr
  | some record =>
    obtain ⟨ran, hhead, hof⟩ := h.record record hcommitted
    cases hlog : runs s.log with
    | nil =>
      rw [hlog] at hr
      cases hr
    | cons first rest =>
      rw [hlog] at hhead hr
      cases hhead
      rcases mem_cons.1 hr with rfl | hr
      · rw [← hof.expiresAt]
        exact hrecord record hcommitted
      exact h.older r (by rw [hlog]; exact hr)

/-- Others do not hold the row that the call holds: what is committed then does not concern them. -/
theorem KeyOk.others (hholds : s.row.holds w () = true)
    (hp : p = .idle ∨ (∃ n, p = .waiting n) ∨ ∃ a, p = .answered a) (w' : Nat)
    (committed : Option Record) (before : List Ran) :
    PhaseOk jsonb s.clock committed before (s.calls w').fingerprint
      ((s.row.commit w).holds w' ()) ((s.row.commit w).sees w' ()) (update s.phases w p w') := by
  rcases update_cases s.phases w p w' with ⟨rfl, hself⟩ | ⟨hne, hother⟩
  · rw [hself]
    exact .out hp release_holds_self
  have hnot : s.row.holds w' () = false := not_holds_of_holds hholds hne
  have hsame : (s.row.commit w).holds w' () = s.row.holds w' () := release_holds_other hne
  rw [hother, hsame, hnot]
  exact (hnot ▸ h.phases w').notHolding

variable {n : Nat} {now : Int} {out : Outcome}

theorem KeyOk.commitRun {heard : Bool} (hphase : s.phases w = .committing n now out false) :
    KeyOk jsonb
      ({ s with
        row := s.row.commit w
        log := .ran ⟨w, (s.calls w).fingerprint, out, now, s.clock⟩ :: s.log }.answer w
          (if heard then .done out false else .unknown)) := by
  have hw : ∀ a, s.phases w ≠ .answered a := by simp [hphase]
  cases h.own hphase with
  | out hp => simp at hp
  | @committing _ _ _ r hholds hsees hfp hexpires hstored hexpired =>
    refine
      { record := fun r' hr' => ?_
        gone := fun hnone => ?_
        older := hexpired
        phases := fun w' => h.others hholds (.inr (.inr ⟨_, rfl⟩)) w' _ _
        answers := fun w' fp a hmem => ?_
        ran := fun r' hr' => ?_
        log := ?_ }
    · have hr' : s.row.sees w () = some r' := hr'
      rw [hsees] at hr'
      cases hr'
      exact ⟨_, rfl, hfp, hstored, hexpires⟩
    · have hnone : s.row.sees w () = none := hnone
      rw [hsees] at hnone
      cases hnone
    · rcases mem_cons.1 hmem with heq | hmem
      · cases heq
        exact update_self ..
      rcases mem_cons.1 hmem with heq | hmem
      · cases heq
      exact h.answers_moved hw hmem
    · rcases mem_cons.1 hr' with rfl | hr'
      · change update s.phases w _ w = _ ∨ ∃ out, update s.phases w _ w = _
        rw [update_self]
        cases heard with
        | true => exact .inr ⟨out, rfl⟩
        | false => exact .inl rfl
      exact h.ran_moved hw hr'
    refine .answered (.ran h.log hexpired) ?_
    cases heard with
    | true => exact ⟨_, rfl, rfl, rfl, rfl⟩
    | false => exact ⟨_, rfl, rfl⟩

theorem KeyOk.commitReplay {heard : Bool} (hphase : s.phases w = .committing n now out true) :
    KeyOk jsonb ({ s with row := s.row.commit w }.answer w
      (if heard then .done out true else .unknown)) := by
  have hw : ∀ a, s.phases w ≠ .answered a := by simp [hphase]
  cases h.own hphase with
  | out hp => simp at hp
  | @replaying _ _ r hholds hsees hcommitted hfp =>
    -- the record that was read is the committed one, and stays it
    have hsame : (s.row.commit w).committed = s.row.committed := by
      funext u
      cases u
      exact hsees.trans hcommitted.symm
    obtain ⟨ran, hhead, hof⟩ := h.record r hcommitted
    refine h.answer hw hsame (fun _ hne => release_holds_other hne) (fun w' hne => ?_)
      release_holds_self ?_
    · have hnot : s.row.holds w' () = false := not_holds_of_holds hholds hne
      have hnot' : (s.row.commit w).holds w' () = false :=
        (release_holds_other hne).trans hnot
      rw [sees_of_not_holds hnot, sees_of_not_holds hnot', hsame]
    have hran : ran.fingerprint = (s.calls w).fingerprint := hof.fingerprint.symm.trans hfp
    cases heard with
    | true => exact ⟨ran, hhead, hran, hof.stored⟩
    | false => exact ⟨ran, hhead, hran⟩

theorem KeyOk.commitClean (hphase : s.phases w = .cleaned) :
    KeyOk jsonb ({ s with row := s.row.commit w }.goTo w .idle) := by
  have hw : ∀ a, s.phases w ≠ .answered a := by simp [hphase]
  cases h.own hphase with
  | out hp => simp at hp
  | cleaned hholds hsees hexpired =>
    refine
      { record := fun r' hr' => ?_
        gone := fun _ => hexpired
        older := h.older
        phases := fun w' => h.others hholds (.inl rfl) w' _ _
        answers := fun _ _ _ => h.answers_moved hw
        ran := fun _ => h.ran_moved hw
        log := h.log }
    have hr' : s.row.sees w () = some r' := hr'
    rw [hsees] at hr'
    cases hr'

variable {t : Key}

/-- The insert: the key is claimed where its record is gone or has expired. -/
theorem KeyOk.insert (hphase : s.phases w = .inserting n now)
    (hstep : idemStep jsonb s (.insert w) = some t) : KeyOk jsonb t := by
  have hw : ∀ a, s.phases w ≠ .answered a := by simp [hphase]
  cases h.own hphase with
  | out hp => simp at hp
  | inserting hnot hnow =>
    have hsame : s.row.sees w () = s.row.committed () := sees_of_not_holds hnot
    have hclaim : (∀ r, s.row.committed () = some r → r.expiresAt ≤ s.clock) →
        s.row.free w () = true →
        KeyOk jsonb ({ s with row := s.row.put w () (some (s.claim w now)) }.goTo w
          (.running n now)) :=
      fun hrecord hfree => h.put hw hfree (.running rfl rfl rfl rfl (h.expired hrecord))
    simp only [idemStep, hphase] at hstep
    split at hstep
    next hfree =>
      split at hstep
      next hnone =>
        cases hstep
        refine hclaim (fun r hr => ?_) hfree
        rw [hsame, hr] at hnone
        cases hnone
      rename_i r hr
      split at hstep
      next hexpired =>
        cases hstep
        refine hclaim (fun r' hr' => ?_) hfree
        rw [hsame, hr'] at hr
        cases hr
        exact Int.le_trans hexpired hnow
      · cases hstep
        exact h.put hw hfree (.looking rfl hsame)
    cases hstep

theorem KeyOk.store (hphase : s.phases w = .storing n now out)
    (hstep : idemStep jsonb s (.store w) = some t) : KeyOk jsonb t := by
  have hw : ∀ a, s.phases w ≠ .answered a := by simp [hphase]
  cases h.own hphase with
  | out hp => simp at hp
  | @storing _ _ _ r hholds hsees hfp hexpires hexpired =>
    simp only [idemStep, hphase, hsees] at hstep
    split at hstep
    · cases hstep
      exact h.rollbackAnswer hw trivial
    rename_i kept hkept
    split at hstep <;> cases hstep
    rename_i hfree
    exact h.put hw hfree (.committing rfl rfl hfp hexpires hkept hexpired)

theorem KeyOk.look (hphase : s.phases w = .looking n now)
    (hstep : idemStep jsonb s (.look w) = some t) : KeyOk jsonb t := by
  have hw : ∀ a, s.phases w ≠ .answered a := by simp [hphase]
  cases h.own hphase with
  | out hp => simp at hp
  | looking hholds hsees =>
    simp only [idemStep, hphase] at hstep
    split at hstep
    · cases hstep
      exact h.rollbackAnswer hw trivial
    rename_i r hr
    split at hstep
    · cases hstep
      exact h.rollbackAnswer hw trivial
    rename_i hfp
    cases hstep
    refine h.goTo hw (.replaying hholds hr (hsees.symm.trans hr) ?_)
    exact Decidable.not_not.1 hfp

theorem KeyOk.cleanDelete (hphase : s.phases w = .cleaning now)
    (hstep : idemStep jsonb s (.cleanDelete w) = some t) : KeyOk jsonb t := by
  have hw : ∀ a, s.phases w ≠ .answered a := by simp [hphase]
  cases h.own hphase with
  | out hp => simp at hp
  | cleaning hnot hnow =>
    simp only [idemStep, hphase] at hstep
    split at hstep
    next hfree =>
      split at hstep
      · cases hstep
      rename_i r hr
      split at hstep <;> cases hstep
      rename_i hexpired
      refine h.put hw hfree (.cleaned rfl rfl (h.expired fun r' hr' => ?_))
      rw [hr] at hr'
      cases hr'
      omega
    cases hstep

theorem KeyOk.step {a : Action} (hstep : idemStep jsonb s a = some t) : KeyOk jsonb t := by
  cases a with simp only [idemStep] at hstep
  | tick d =>
    cases hstep
    exact h.tick d
  | call w c =>
    split at hstep <;> cases hstep
    rename_i hphase
    have hnot : s.row.holds w () = false := by
      cases h.own hphase with
      | out _ hnot => exact hnot
    exact h.goOn (by simp [hphase]) rfl (fun _ _ => rfl) (fun _ _ => rfl)
      (fun _ hne => update_of_ne hne ..) (.out (.inr (.inl ⟨1, rfl⟩)) hnot)
  | refuse w =>
    split at hstep <;> cases hstep
    rename_i hphase
    have hnot : s.row.holds w () = false := by
      cases h.own hphase with
      | out _ hnot => exact hnot
    exact h.answer (by simp [hphase]) rfl (fun _ _ => rfl) (fun _ _ => rfl) hnot trivial
  | begin w =>
    split at hstep
    next hphase =>
      cases h.own hphase with
      | out _ hnot =>
        cases hstep
        exact h.goTo (by simp [hphase]) (.inserting hnot (Int.le_refl _))
    cases hstep
  | insert w =>
    cases hphase : s.phases w with
    | inserting n now => exact h.insert hphase hstep
    | _ => simp [hphase] at hstep
  | lockTimeout w =>
    split at hstep
    next hphase =>
      split at hstep <;> cases hstep
      exact h.rollbackAnswer (by simp [hphase]) trivial
    cases hstep
  | decide w out =>
    split at hstep
    next hphase =>
      cases h.own hphase with
      | out hp => simp at hp
      | running hholds hsees hfp hexpires hexpired =>
        cases hstep
        exact h.goTo (by simp [hphase]) (.storing hholds hsees hfp hexpires hexpired)
    cases hstep
  | store w =>
    cases hphase : s.phases w with
    | storing n now out => exact h.store hphase hstep
    | _ => simp [hphase] at hstep
  | look w =>
    cases hphase : s.phases w with
    | looking n now => exact h.look hphase hstep
    | _ => simp [hphase] at hstep
  | fail w conflict =>
    split at hstep
    next n hattempt =>
      have hw : ∀ a, s.phases w ≠ .answered a := by
        intro a hphase
        rw [hphase] at hattempt
        cases hattempt
      split at hstep
      · cases hstep
        exact h.rollbackGoTo hw (.inr (.inl ⟨n + 1, rfl⟩))
      · cases hstep
        exact h.rollbackAnswer hw trivial
    cases hstep
  | commit w heard =>
    split at hstep
    next n now out replayed hphase =>
      cases replayed with
      | true =>
        cases hstep
        exact h.commitReplay hphase
      | false =>
        cases hstep
        exact h.commitRun hphase
    cases hstep
  | cleanBegin w =>
    split at hstep
    next hphase =>
      cases h.own hphase with
      | out _ hnot =>
        cases hstep
        exact h.goTo (by simp [hphase]) (.cleaning hnot (Int.le_refl _))
    cases hstep
  | cleanDelete w =>
    cases hphase : s.phases w with
    | cleaning now => exact h.cleanDelete hphase hstep
    | _ => simp [hphase] at hstep
  | cleanEnd w commit =>
    split at hstep
    next hphase =>
      cases h.own hphase with
      | out hp => simp at hp
      | cleaning hnot hnow =>
        cases hstep
        exact h.goTo (by simp [hphase]) (.out (.inl rfl) hnot)
    next hphase =>
      split at hstep
      · cases hstep
        exact h.commitClean hphase
      · cases hstep
        exact h.rollbackGoTo (by simp [hphase]) (.inl rfl)
    cases hstep

end
end Steps

/-! ## Runs -/

theorem LogOk.of_append {jsonb : String → Option String} {later earlier : List Event}
    (h : LogOk jsonb (later ++ earlier)) : LogOk jsonb earlier := by
  induction later with
  | nil => exact h
  | cons e later ih =>
    cases h with
    | ran h => exact ih h
    | answered h => exact ih h

/-- **One run in a retention period.**  In every run of calls with one key, and of the clean-up:

* a command commits when the record of each command before it has expired;
* a call that answers without an error answers the outcome of the last command that committed, as it
  was stored or as the call itself decided it, and has that one's fingerprint;
* a call with another fingerprint than the last command's answers that the key was reused, that it
  is in progress, or the failure of its own transaction, and of a call that answers so no command
  commits;
* the record that is there is the one the last command left: a command that fails leaves none. -/
theorem one_run_in_a_retention_period {jsonb : String → Option String} {clock : Int}
    {as : List Action} {t : Key} (hrun : run (idemStep jsonb) (Key.start clock) as = some t) :
    (∀ later r earlier, t.log = later ++ .ran r :: earlier →
      ∀ r' ∈ runs earlier, r'.expiresAt ≤ r.committed) ∧
    (∀ later w fp a earlier, t.log = later ++ .answered w fp a :: earlier →
      (∀ out replayed, a = .done out replayed → ∃ r, (runs earlier).head? = some r ∧
        r.fingerprint = fp ∧
          if replayed then r.out.stored jsonb = some out else r.call = w ∧ r.out = out) ∧
      (∀ r, (runs earlier).head? = some r → r.fingerprint ≠ fp →
        a = .reused ∨ a = .inProgress ∨ a = .failed) ∧
      (a = .reused ∨ a = .inProgress ∨ a = .failed → ∀ r ∈ runs t.log, r.call ≠ w)) ∧
    ∀ record, t.row.committed () = some record → ∃ r, (runs t.log).head? = some r ∧
      record.fingerprint = r.fingerprint ∧
      r.out.stored jsonb = some ⟨record.status, record.result⟩ ∧
      record.expiresAt = r.expiresAt := by
  have h : KeyOk jsonb t :=
    run_invariant_of_step (fun _ _ _ h hstep => h.step hstep) (.start clock) hrun
  refine ⟨fun later r earlier hlog => ?_, fun later w fp a earlier hlog => ?_, ?_⟩
  · have hok := h.log
    rw [hlog] at hok
    cases hok.of_append with
    | ran _ hexpired => exact hexpired
  · have hok := h.log
    rw [hlog] at hok
    cases hok.of_append with
    | answered _ ha =>
      refine ⟨fun out replayed heq => ?_, fun r hhead hfp => ?_, fun hnot r hr heq => ?_⟩
      · subst heq
        exact ha
      · -- an answer without an error would be one to the last command's request
        cases a with
        | done out replayed =>
          obtain ⟨r', hhead', hfp', -⟩ := ha
          rw [hhead] at hhead'
          cases hhead'
          exact absurd hfp' hfp
        | unknown =>
          obtain ⟨r', hhead', hfp'⟩ := ha
          rw [hhead] at hhead'
          cases hhead'
          exact absurd hfp' hfp
        | reused => exact .inl rfl
        | inProgress => exact .inr (.inl rfl)
        | failed => exact .inr (.inr rfl)
      have hmem : .answered w fp a ∈ t.log := by
        rw [hlog]
        exact mem_append_right _ mem_cons_self
      have hphase := h.answers w fp a hmem
      rcases h.ran r hr with hran | ⟨out, hran⟩
      · rw [heq, hphase] at hran
        cases hran
        simp at hnot
      rw [heq, hphase] at hran
      cases hran
      simp at hnot
  intro record hrecord
  obtain ⟨r, hhead, hof⟩ := h.record record hrecord
  exact ⟨r, hhead, hof.fingerprint, hof.stored, hof.expiresAt⟩

/-- A command, its replay, another request under the key, and after the retention one that claims
the key afresh. -/
theorem one_run_in_a_retention_period_of_an_order :
    ∃ t,
      run (idemStep some) (Key.start 0)
        [.call 1 ⟨"a", "order.create"⟩, .begin 1, .insert 1, .call 2 ⟨"b", "order.create"⟩,
          .begin 2, .decide 1 ⟨0, some "7"⟩, .store 1, .commit 1 true, .insert 2, .look 2,
          .call 3 ⟨"a", "order.create"⟩, .begin 3, .insert 3, .look 3, .commit 3 true,
          .tick 86400000000, .call 4 ⟨"b", "order.create"⟩, .begin 4, .insert 4,
          .decide 4 ⟨201, none⟩, .store 4, .commit 4 true] = some t ∧
      t.log = [.answered 4 "b" (.done ⟨201, none⟩ false),
        .ran ⟨4, "b", ⟨201, none⟩, 86400000000, 86400000000⟩,
        .answered 3 "a" (.done ⟨200, some "7"⟩ true), .answered 2 "b" .reused,
        .answered 1 "a" (.done ⟨200, some "7"⟩ false), .ran ⟨1, "a", ⟨200, some "7"⟩, 0, 0⟩] ∧
      (∀ later r earlier, t.log = later ++ .ran r :: earlier →
        ∀ r' ∈ runs earlier, r'.expiresAt ≤ r.committed) ∧
      ∃ record, t.row.committed () = some record ∧ record.fingerprint = "b" :=
  exists_of_run rfl fun hrun => ⟨rfl, (one_run_in_a_retention_period hrun).1, _, rfl, rfl⟩

/-- The key has the record of another request, which has not expired, and the transaction of the
call is ended by the database: it answers that failure. -/
theorem another_request_answers_its_own_failure :
    ∃ t,
      run (idemStep some) (Key.start 0)
        [.call 1 ⟨"a", "order.create"⟩, .begin 1, .insert 1, .decide 1 ⟨0, some "7"⟩, .store 1,
          .commit 1 true, .call 2 ⟨"b", "order.create"⟩, .begin 2, .fail 2 false] = some t ∧
      t.log = [.answered 2 "b" .failed, .answered 1 "a" (.done ⟨200, some "7"⟩ false),
        .ran ⟨1, "a", ⟨200, some "7"⟩, 0, 0⟩] ∧
      ∃ record, t.row.committed () = some record ∧ t.clock < record.expiresAt :=
  ⟨_, rfl, rfl, _, rfl, by decide⟩

end BeSdk.Idem

import BeSdk.Db.Series
import BeSdk.Library.Tables

/-!
# Numbers are given once

A series' last number never goes back, and no number of a series is given to two transactions that
commit, in every run in which no row is inserted behind the back of a raise: where RaiseContinuous
found no row, there is still none when it writes (`Unraced`).  It has locked nothing then, so that a
series that begins meanwhile is set back to the number of the raise, and its numbers are given
again (`raise_sets_a_new_series_back`).

`NumbersOk` is what the rows and the numbers have to do with each other.  The version of a row that
a transaction holds is not below the committed one; the numbers it took are above the committed one
and not above its own, those of the log not above the committed one.  So what a transaction adds to
the log when it commits is above all that is there.  A raise that has found a row holds it, with a
number below the one it writes.
-/

namespace BeSdk.Db

open Function RowLocks Runs Tables List Table

/-- The number that was given, with the key of its series. -/
def Use.number : Use → Option (String × Int)
  | .issued s n => some (s.key, n)
  | _ => none

theorem number_of_mem {u : Option Use} {p : String × Int}
    (h : p ∈ u.toList.filterMap Use.number) : u.bind Use.number = some p := by
  obtain ⟨u', hu', hp⟩ := mem_filterMap.1 h
  cases Option.mem_toList.1 hu'
  exact hp

/-- The raise that is under way, with the row it has read. -/
def SeriesPhase.raises : SeriesPhase → Option (Series × Int × Option SeriesRow)
  | .raising s upTo seen => some (s, upTo, seen)
  | .advanceRaising s upTo seen _ => some (s, upTo, seen)
  | _ => none

/-- A row that was there is, and has not gone back. -/
def NotBelow (before after : Option SeriesRow) : Prop :=
  ∀ r, before = some r → ∃ r', after = some r' ∧ r.lastNumber ≤ r'.lastNumber

theorem NotBelow.refl (row : Option SeriesRow) : NotBelow row row :=
  fun r hr => ⟨r, hr, Int.le_refl _⟩

theorem NotBelow.trans {a b c : Option SeriesRow} (hab : NotBelow a b) (hbc : NotBelow b c) :
    NotBelow a c := by
  intro r hr
  obtain ⟨r', hr', hle⟩ := hab r hr
  obtain ⟨r'', hr'', hle'⟩ := hbc r' hr'
  exact ⟨r'', hr'', Int.le_trans hle hle'⟩

/-! ## The invariant -/

structure NumbersOk (s : Numbers) : Prop where
  idle : ∀ w, s.phases w = .idle → s.uses w = [] ∧ ∀ k v, s.rows.held k ≠ some (w, v)
  held : ∀ k w v, s.rows.held k = some (w, v) → NotBelow (s.rows.committed k) v
  logged : ∀ k n, (k, n) ∈ s.log.filterMap Use.number →
    ∃ r, s.rows.committed k = some r ∧ n ≤ r.lastNumber
  taken : ∀ w k n, (k, n) ∈ (s.uses w).filterMap Use.number →
    ∃ r, s.rows.held k = some (w, some r) ∧ n ≤ r.lastNumber ∧
      ∀ c, s.rows.committed k = some c → c.lastNumber < n
  logDistinct : (s.log.filterMap Use.number).Nodup
  usesDistinct : ∀ w, ((s.uses w).filterMap Use.number).Nodup
  raises : ∀ w sr upTo r, (s.phases w).raises = some (sr, upTo, some r) →
    s.rows.held sr.key = some (w, some r) ∧ r.lastNumber < upTo

theorem NumbersOk.start (rows : String → Option SeriesRow) : NumbersOk (Numbers.start rows) where
  idle := fun _ _ => ⟨rfl, nofun⟩
  held := nofun
  logged := nofun
  taken := nofun
  logDistinct := nodup_nil
  usesDistinct := fun _ => nodup_nil
  raises := nofun

namespace NumbersOk

variable {s : Numbers} {w : Nat} {k : String} {p : SeriesPhase}

section
variable (h : NumbersOk s)
include h

theorem sees (w : Nat) (k : String) : NotBelow (s.rows.committed k) (s.rows.sees w k) := by
  rcases s.rows.sees_cases w k with ⟨v, hheld, hsees⟩ | ⟨-, hsees⟩
  · rw [hsees]
    exact h.held k w v hheld
  rw [hsees]
  exact .refl _

theorem goTo (hp : p ≠ .idle) (hraises : ∀ sr upTo r, p.raises = some (sr, upTo, some r) →
      s.rows.held sr.key = some (w, some r) ∧ r.lastNumber < upTo) : NumbersOk (s.goTo w p) where
  idle := by
    intro w' hidle
    rcases update_cases s.phases w p w' with ⟨-, hself⟩ | ⟨-, hother⟩
    · exact absurd (hself.symm.trans hidle) hp
    exact h.idle w' (hother.symm.trans hidle)
  held := h.held
  logged := h.logged
  taken := h.taken
  logDistinct := h.logDistinct
  usesDistinct := h.usesDistinct
  raises := by
    intro w' sr upTo r hphase
    rcases update_cases s.phases w p w' with ⟨rfl, hself⟩ | ⟨-, hother⟩
    · exact hraises sr upTo r (hself ▸ hphase)
    exact h.raises w' sr upTo r (hother ▸ hphase)

theorem use (hw : s.phases w ≠ .idle) {u : Use} (hu : u.number = none) : NumbersOk (s.use w u) := by
  have huses : ∀ w', (update s.uses w (u :: s.uses w) w').filterMap Use.number =
      (s.uses w').filterMap Use.number := by
    intro w'
    rcases update_cases s.uses w (u :: s.uses w) w' with ⟨rfl, hself⟩ | ⟨-, hother⟩
    · rw [hself, filterMap_cons_none hu]
    rw [hother]
  refine { h with
    idle := fun w' hidle => ?_
    taken := fun w' k n hn => h.taken w' k n (huses w' ▸ hn)
    usesDistinct := fun w' => ?_ }
  · have hne : w' ≠ w := fun heq => hw (heq ▸ hidle)
    refine ⟨?_, (h.idle w' hidle).2⟩
    exact (update_of_ne hne ..).trans (h.idle w' hidle).1
  exact (congrArg List.Nodup (huses w')).mpr (h.usesDistinct w')

/-- A row written by a transaction that may, with a number above the one it saw. -/
theorem write (hp : p ≠ .idle) (hraises : p.raises = none)
    (hfree : s.rows.free w k = true) {row : SeriesRow}
    (hrow : NotBelow (s.rows.sees w k) (some row)) {u : Option Use}
    (hu : ∀ k' n, u.bind Use.number = some (k', n) → k' = k ∧ n ≤ row.lastNumber ∧
      ∀ r, s.rows.sees w k = some r → r.lastNumber < n) : NumbersOk (s.write w k row u p) := by
  have hnew : ∀ w' k' n,
      (k', n) ∈ (update s.uses w (u.toList ++ s.uses w) w').filterMap Use.number →
      w' = w ∧ u.bind Use.number = some (k', n) ∨ (k', n) ∈ (s.uses w').filterMap Use.number := by
    intro w' k' n hn
    rcases update_cases s.uses w (u.toList ++ s.uses w) w' with ⟨rfl, hself⟩ | ⟨-, hother⟩
    · rw [hself, filterMap_append, mem_append] at hn
      rcases hn with hn | hn
      · exact .inl ⟨rfl, number_of_mem hn⟩
      exact .inr hn
    exact .inr (hother ▸ hn)
  -- what was taken of this row before is not above what the transaction saw of it
  have hold : ∀ n, (k, n) ∈ (s.uses w).filterMap Use.number →
      ∃ r, s.rows.sees w k = some r ∧ n ≤ r.lastNumber := by
    intro n hn
    obtain ⟨r, hheld, hle, -⟩ := h.taken w k n hn
    exact ⟨r, sees_of_held hheld, hle⟩
  refine
    { idle := fun w' hidle => ?_
      held := fun k' w' v hheld => ?_
      logged := h.logged
      taken := fun w' k' n hn => ?_
      logDistinct := h.logDistinct
      usesDistinct := fun w' => ?_
      raises := fun w' sr upTo r hphase => ?_ }
  · rcases update_cases s.phases w p w' with ⟨-, hself⟩ | ⟨hne, hother⟩
    · exact absurd (hself.symm.trans hidle) hp
    have hidle' := h.idle w' (hother.symm.trans hidle)
    refine ⟨(update_of_ne hne ..).trans hidle'.1, fun k' v hheld => ?_⟩
    by_cases hk : k' = k
    · subst hk
      change (s.rows.put w k' (some row)).held k' = some (w', v) at hheld
      rw [put_held_self] at hheld
      cases hheld
      exact hne rfl
    exact hidle'.2 k' v ((put_held_of_ne hk).symm.trans hheld)
  · by_cases hk : k' = k
    · subst hk
      change (s.rows.put w k' (some row)).held k' = some (w', v) at hheld
      rw [put_held_self] at hheld
      cases hheld
      exact (h.sees w k').trans hrow
    exact h.held k' w' v ((put_held_of_ne hk).symm.trans hheld)
  · rcases hnew w' k' n hn with ⟨rfl, hnumber⟩ | hn
    · obtain ⟨rfl, hle, hlt⟩ := hu k' n hnumber
      refine ⟨row, put_held_self, hle, fun c hc => ?_⟩
      obtain ⟨r, hr, hcr⟩ := h.sees w' k' c hc
      exact Int.lt_of_le_of_lt hcr (hlt r hr)
    obtain ⟨r, hheld, hle, hlt⟩ := h.taken w' k' n hn
    by_cases hk : k' = k
    · subst hk
      -- only one transaction holds the row
      have hw : w' = w := free_iff.1 hfree w' (some r) hheld
      subst hw
      obtain ⟨r', ⟨⟩, hle'⟩ := hrow r (sees_of_held hheld)
      exact ⟨row, put_held_self, Int.le_trans hle hle', hlt⟩
    exact ⟨r, (put_held_of_ne hk).trans hheld, hle, hlt⟩
  · rcases update_cases s.uses w (u.toList ++ s.uses w) w' with ⟨rfl, hself⟩ | ⟨-, hother⟩
    · change ((update s.uses w' (u.toList ++ s.uses w') w').filterMap Use.number).Nodup
      rw [hself, filterMap_append]
      refine nodup_append.2 ⟨?_, h.usesDistinct w', ?_⟩
      · cases u with
        | none => exact nodup_nil
        | some u => cases hu : u.number <;> simp [hu]
      rintro ⟨k', n⟩ hn ⟨k'', n'⟩ hn' heq
      cases heq
      obtain ⟨rfl, -, hlt⟩ := hu k' n (number_of_mem hn)
      obtain ⟨r, hr, hle⟩ := hold n hn'
      have := hlt r hr
      omega
    exact (congrArg (fun us => (List.filterMap Use.number us).Nodup) hother).mpr (h.usesDistinct w')
  rcases update_cases s.phases w p w' with ⟨-, hself⟩ | ⟨hne, hother⟩
  · have hphase : (update s.phases w p w').raises = some (sr, upTo, some r) := hphase
    rw [hself, hraises] at hphase
    cases hphase
  obtain ⟨hheld, hlt⟩ := h.raises w' sr upTo r (hother ▸ hphase)
  refine ⟨?_, hlt⟩
  by_cases hk : sr.key = k
  · exact absurd (free_iff.1 hfree w' (some r) (hk ▸ hheld)) hne
  exact (put_held_of_ne hk).trans hheld

/-- A row that is locked, in the version that is seen. -/
theorem lock (hp : p ≠ .idle) (hfree : s.rows.free w k = true) {r : SeriesRow}
    (hsees : s.rows.sees w k = some r)
    (hraises : ∀ sr upTo r', p.raises = some (sr, upTo, some r') →
      sr.key = k ∧ r' = r ∧ r.lastNumber < upTo) : NumbersOk (s.lock w k p) := by
  have hrow : NotBelow (s.rows.sees w k) (some r) := hsees ▸ .refl _
  have hwrite : NumbersOk (s.write w k r none .running) :=
    h.write (by simp) rfl hfree hrow (by simp)
  have heq : s.lock w k p = (s.write w k r none .running).goTo w p := by
    simp only [Numbers.lock, Numbers.write, Numbers.goTo, Table.lock, hsees, Option.toList_none,
      nil_append, update_eq_self, update_idem]
  rw [heq]
  refine hwrite.goTo hp fun sr upTo r' hr' => ?_
  obtain ⟨rfl, rfl, hlt⟩ := hraises sr upTo r' hr'
  exact ⟨put_held_self, hlt⟩

/-- A transaction that has ended: what it held is free, and its numbers are in the log or gone. -/
theorem ended {rows : Table String SeriesRow} {log : List Use}
    (hheld : ∀ k w' v, rows.held k = some (w', v) ↔ s.rows.held k = some (w', v) ∧ w' ≠ w)
    (hother : ∀ k w' v, s.rows.held k = some (w', v) → w' ≠ w →
      rows.committed k = s.rows.committed k) (hlogged : ∀ k n, (k, n) ∈ log.filterMap Use.number →
      ∃ r, rows.committed k = some r ∧ n ≤ r.lastNumber)
    (hdistinct : (log.filterMap Use.number).Nodup) : NumbersOk
      { rows := rows, phases := update s.phases w .idle, uses := update s.uses w [], log := log }
    where
  idle := by
    intro w' hidle
    rcases update_cases s.phases w .idle w' with ⟨rfl, -⟩ | ⟨hne, hphase⟩
    · exact ⟨update_self .., fun k v hv => ((hheld k w' v).1 hv).2 rfl⟩
    have hidle' := h.idle w' (hphase.symm.trans hidle)
    refine ⟨(update_of_ne hne ..).trans hidle'.1, fun k v hv => ?_⟩
    exact hidle'.2 k v ((hheld k w' v).1 hv).1
  held := by
    intro k w' v hv
    obtain ⟨hv, hne⟩ := (hheld k w' v).1 hv
    exact (congrArg (NotBelow · v) (hother k w' v hv hne)).mpr (h.held k w' v hv)
  logged := hlogged
  taken := by
    intro w' k n hn
    rcases update_cases s.uses w [] w' with ⟨-, hself⟩ | ⟨hne, huses⟩
    · have hn : (k, n) ∈ (update s.uses w [] w').filterMap Use.number := hn
      rw [hself] at hn
      cases hn
    obtain ⟨r, hv, hle, hlt⟩ := h.taken w' k n (huses ▸ hn)
    refine ⟨r, (hheld k w' _).2 ⟨hv, hne⟩, hle, fun c hc => hlt c ?_⟩
    exact (hother k w' _ hv hne).symm.trans hc
  logDistinct := hdistinct
  usesDistinct := by
    intro w'
    rcases update_cases s.uses w [] w' with ⟨-, hself⟩ | ⟨-, huses⟩
    · exact (congrArg (fun us => (List.filterMap Use.number us).Nodup) hself).mpr nodup_nil
    exact (congrArg (fun us => (List.filterMap Use.number us).Nodup) huses).mpr (h.usesDistinct w')
  raises := by
    intro w' sr upTo r hphase
    rcases update_cases s.phases w .idle w' with ⟨-, hself⟩ | ⟨hne, hother⟩
    · have hphase : (update s.phases w .idle w').raises = some (sr, upTo, some r) := hphase
      rw [hself] at hphase
      cases hphase
    obtain ⟨hv, hlt⟩ := h.raises w' sr upTo r (hother ▸ hphase)
    exact ⟨(hheld sr.key w' _).2 ⟨hv, hne⟩, hlt⟩

theorem commit (w : Nat) : NumbersOk (s.commit w) := by
  refine h.ended (fun _ _ _ => commit_held) ?_ ?_ ?_
  · intro k w' v hv hne
    exact sees_of_not_held fun v' hv' => hne (by cases hv.symm.trans hv'; rfl)
  · intro k n hn
    rw [filterMap_append, mem_append] at hn
    rcases hn with hn | hn
    · obtain ⟨r, hheld, hle, -⟩ := h.taken w k n hn
      exact ⟨r, sees_of_held hheld, hle⟩
    obtain ⟨c, hc, hle⟩ := h.logged k n hn
    obtain ⟨r, hr, hle'⟩ := h.sees w k c hc
    exact ⟨r, hr, Int.le_trans hle hle'⟩
  rw [filterMap_append]
  refine nodup_append.2 ⟨h.usesDistinct w, h.logDistinct, ?_⟩
  -- what was taken is above the committed number, what is in the log is not
  rintro ⟨k, n⟩ hn ⟨k', n'⟩ hn' heq
  cases heq
  obtain ⟨c, hc, hle⟩ := h.logged k n hn'
  obtain ⟨-, -, -, hlt⟩ := h.taken w k n hn
  have := hlt c hc
  omega

theorem rollback (w : Nat) : NumbersOk (s.rollback w) :=
  h.ended (fun _ _ _ => release_held) (fun _ _ _ _ _ => rfl) h.logged h.logDistinct

end

/-! ## The functions -/

variable {sr : Series}

section
variable (h : NumbersOk s)
include h

theorem next {gapless : Bool}
    (hfree : s.rows.free w sr.key = true) : NumbersOk (s.next w sr gapless) := by
  unfold Numbers.next
  split
  next hsees =>
    refine h.write (by simp) rfl hfree ?_ ?_
    · rw [hsees]
      intro r hr
      cases hr
    intro k n hn
    cases hn
    refine ⟨rfl, Int.le_refl _, fun r hr => ?_⟩
    rw [hsees] at hr
    cases hr
  rename_i r hsees
  split
  · exact h.goTo (by simp) (by simp [SeriesPhase.raises])
  refine h.write (by simp) rfl hfree ?_ ?_
  · rw [hsees]
    intro r' hr'
    cases hr'
    refine ⟨_, rfl, ?_⟩
    change r.lastNumber ≤ r.lastNumber + 1
    omega
  intro k n hn
  split at hn <;> cases hn
  refine ⟨rfl, Int.le_refl _, fun r' hr' => ?_⟩
  rw [hsees] at hr'
  cases hr'
  omega

theorem registerImported {gapless : Bool} {last : Int} (hfree : s.rows.free w sr.key = true) :
    NumbersOk (s.registerImported w sr gapless last) := by
  unfold Numbers.registerImported
  split
  next hsees =>
    refine h.write (by simp) rfl hfree ?_ (by simp [Use.number])
    rw [hsees]
    intro r hr
    cases hr
  rename_i r hsees
  refine h.write (by simp) rfl hfree ?_ (by simp [Use.number])
  rw [hsees]
  intro r' hr'
  cases hr'
  refine ⟨_, rfl, ?_⟩
  change r.lastNumber ≤ max r.lastNumber last
  omega

theorem raiseRead {t : Numbers} {upTo : Int}
    {refused done : SeriesPhase} {raise : Option SeriesRow → SeriesPhase}
    (hrefused : refused ≠ .idle ∧ refused.raises = none) (hdone : done ≠ .idle ∧ done.raises = none)
    (hraise : ∀ seen, raise seen ≠ .idle ∧ (raise seen).raises = some (sr, upTo, seen))
    (hstep : s.raiseRead w sr upTo refused done raise = some t) : NumbersOk t := by
  unfold Numbers.raiseRead at hstep
  split at hstep
  · cases hstep
    split
    · exact h.goTo hdone.1 (by simp [hdone.2])
    exact h.goTo (hraise none).1 (by simp [(hraise none).2])
  rename_i r hsees
  split at hstep <;> cases hstep
  rename_i hfree
  split
  · exact h.lock hrefused.1 hfree hsees (by simp [hrefused.2])
  split
  · exact h.lock hdone.1 hfree hsees (by simp [hdone.2])
  rename_i hlt
  refine h.lock (hraise (some r)).1 hfree hsees fun sr' upTo' r' hr' => ?_
  rw [(hraise (some r)).2] at hr'
  cases hr'
  exact ⟨rfl, rfl, by omega⟩

theorem raiseWrite {upTo : Int} {seen : Option SeriesRow}
    (hphase : (s.phases w).raises = some (sr, upTo, seen))
    (hnone : seen = none → s.rows.sees w sr.key = none) (hfree : s.rows.free w sr.key = true)
    (hp : p ≠ .idle) (hraises : p.raises = none) : NumbersOk (s.raiseWrite w sr upTo p) := by
  unfold Numbers.raiseWrite
  split
  next hsees =>
    refine h.write hp hraises hfree ?_ (by simp)
    rw [hsees]
    intro r hr
    cases hr
  rename_i r hsees
  refine h.write hp hraises hfree ?_ (by simp)
  cases seen with
  | none =>
    rw [hnone rfl] at hsees
    cases hsees
  | some r' =>
    -- the row that was read is held since
    obtain ⟨hheld, hlt⟩ := h.raises w sr upTo r' hphase
    rw [sees_of_held hheld] at hsees ⊢
    cases hsees
    intro r' hr'
    cases hr'
    refine ⟨_, rfl, ?_⟩
    change r.lastNumber ≤ upTo
    omega

end
end NumbersOk

/-! ## Runs -/

/-- No row was inserted since a raise found none: its insert inserts. -/
def Unraced (s : Numbers) : SeriesAction → Prop
  | .raiseWrite w | .advanceWrite w =>
    ∀ sr upTo, (s.phases w).raises = some (sr, upTo, none) → s.rows.sees w sr.key = none
  | _ => True

section Steps
variable {s t : Numbers} {a : SeriesAction}

theorem NumbersOk.step (h : NumbersOk s) (hraced : Unraced s a) (hstep : seriesStep s a = some t) :
    NumbersOk t := by
  cases seriesStepped hstep with
  | begin | advance | negative | voidFailed => exact h.goTo (by simp) (by simp [SeriesPhase.raises])
  | next _ hfree => exact h.next hfree
  | registerImported _ hfree => exact h.registerImported hfree
  | raiseRead _ hread | advanceRead _ hread =>
    exact h.raiseRead (by simp [SeriesPhase.raises]) (by simp [SeriesPhase.raises])
      (fun seen => ⟨by simp, rfl⟩) hread
  | @raiseWrite w sr upTo seen hphase hfree | @advanceWrite w sr upTo seen _ hphase hfree =>
    have hraises := congrArg SeriesPhase.raises hphase
    exact h.raiseWrite hraises (fun hnone => hraced sr upTo (hnone ▸ hraises)) hfree (by simp) rfl
  | @void w sr lo hi todo hphase =>
    have hw : s.phases w ≠ .idle := by simp [hphase]
    have huse : NumbersOk (s.use w (.voided sr lo hi)) := h.use hw rfl
    exact huse.goTo (by simp) (by simp [SeriesPhase.raises])
  | commit => exact h.commit _
  | rollback => exact h.rollback _

theorem raiseRead_committed {w : Nat} {sr : Series} {upTo : Int} {refused done : SeriesPhase}
    {raise : Option SeriesRow → SeriesPhase}
    (hread : s.raiseRead w sr upTo refused done raise = some t) :
    t.rows.committed = s.rows.committed := by
  unfold Numbers.raiseRead at hread
  split at hread
  · cases hread
    rfl
  split at hread <;> cases hread
  rfl

theorem committed_of_seriesStep (hstep : seriesStep s a = some t) :
    t.rows.committed = s.rows.committed ∨ ∃ w, t = s.commit w := by
  cases seriesStepped hstep with
  | commit => exact .inr ⟨_, rfl⟩
  | raiseRead _ hread | advanceRead _ hread => exact .inl (raiseRead_committed hread)
  | next =>
    left
    unfold Numbers.next
    split
    · rfl
    split <;> rfl
  | registerImported =>
    left
    unfold Numbers.registerImported
    split <;> rfl
  | raiseWrite | advanceWrite =>
    left
    unfold Numbers.raiseWrite
    split <;> rfl
  | begin | advance | negative | void | voidFailed | rollback => exact .inl rfl

theorem NumbersOk.notBelow (h : NumbersOk s) (hstep : seriesStep s a = some t) (k : String) :
    NotBelow (s.rows.committed k) (t.rows.committed k) := by
  rcases committed_of_seriesStep hstep with heq | ⟨w, rfl⟩
  · rw [heq]
    exact .refl _
  exact h.sees w k

end Steps

/-- **Numbers only go up, and are given once**, in every run in which no raise that found no row is
overtaken: from any point of it to any later one no series' last number goes back, and no number of
a series is in the log twice. -/
theorem numbers_given_once {rows : String → Option SeriesRow} {as bs : List SeriesAction}
    {s t : Numbers} (hraced : Meets seriesStep Unraced (Numbers.start rows) (as ++ bs))
    (hs : run seriesStep (Numbers.start rows) as = some s) (ht : run seriesStep s bs = some t) :
    (∀ k r, s.rows.committed k = some r →
      ∃ r', t.rows.committed k = some r' ∧ r.lastNumber ≤ r'.lastNumber) ∧
    (t.log.filterMap Use.number).Nodup := by
  obtain ⟨hfirst, hrest⟩ := hraced.of_append
  have hok : NumbersOk s :=
    run_invariant (fun _ _ _ h hu hstep => h.step hu hstep) (.start rows) hfirst hs
  have hboth : NumbersOk t ∧ ∀ k, NotBelow (s.rows.committed k) (t.rows.committed k) := by
    refine run_invariant
      (P := fun u => NumbersOk u ∧ ∀ k, NotBelow (s.rows.committed k) (u.rows.committed k))
      ?_ ⟨hok, fun _ => .refl _⟩ (hrest s hs) ht
    rintro u a u' ⟨hu, hbelow⟩ hraced hstep
    exact ⟨hu.step hraced hstep, fun k => (hbelow k).trans (hu.notBelow hstep k)⟩
  exact ⟨hboth.2, hboth.1.logDistinct⟩

/-- A raise of a series that begins, and a number after it. -/
theorem numbers_given_once_of_a_raise :
    let invoices : Series := ⟨"de", "INV", "2026"⟩
    ∃ s t,
      run seriesStep (Numbers.start fun _ => none)
        [.begin 1, .raiseRead 1 invoices 3, .raiseWrite 1, .commit 1] = some s ∧
      run seriesStep s [.begin 2, .next 2 invoices true, .commit 2] = some t ∧
      t.log = [.issued invoices 4] ∧
      (∀ k r, s.rows.committed k = some r →
        ∃ r', t.rows.committed k = some r' ∧ r.lastNumber ≤ r'.lastNumber) ∧
      (t.log.filterMap Use.number).Nodup := by
  intro invoices
  refine ⟨?s, ?t, ?hs, ?ht, ?hlog, numbers_given_once ?hraced ?hs ?ht⟩
  case hs | ht | hlog => rfl
  refine .cons trivial rfl (.cons trivial rfl (.cons ?_ rfl ?_))
  · rintro _ _ ⟨⟩
    rfl
  iterate 4 refine .cons trivial rfl ?_
  trivial

/-- The raise to 3 found no row and locked nothing.  Another transaction takes four numbers of the
series and commits; the insert of the raise then sets it back to 3, and the next number is 4
again. -/
theorem raise_sets_a_new_series_back :
    let invoices : Series := ⟨"de", "INV", "2026"⟩
    ∃ s t,
      run seriesStep (Numbers.start fun _ => none)
        [.begin 1, .raiseRead 1 invoices 3, .begin 2, .next 2 invoices true, .next 2 invoices true,
          .next 2 invoices true, .next 2 invoices true, .commit 2] = some s ∧
      s.rows.committed invoices.key = some ⟨4, true⟩ ∧
      run seriesStep s [.raiseWrite 1, .commit 1] = some t ∧
      t.rows.committed invoices.key = some ⟨3, true⟩ ∧
      ∃ u, run seriesStep t [.begin 3, .next 3 invoices true, .commit 3] = some u ∧
        u.log.count (.issued invoices 4) = 2 :=
  ⟨_, _, rfl, rfl, rfl, rfl, _, rfl, rfl⟩

end BeSdk.Db

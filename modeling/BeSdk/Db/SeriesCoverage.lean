import BeSdk.Db.Series
import BeSdk.Library.Tables

/-!
# Every number has one use

For a continuous series whose row is there, and transactions that take numbers of it by NextNumber,
RegisterImported and AdvanceNumbers: of the numbers from the starting one to the current one each
was given, passed over by an import or passed to the void function, once.

`Tiles` counts the uses that take a number, one for those of an interval and none for the others, so
that uses of two intervals that meet tile both together.  The log tiles what is above the starting
number up to the committed one, and what a transaction took tiles what is above that one up to the
version it holds.  Between the write of AdvanceNumbers and its void function a transaction holds
more than it has used, and the numbers between are those it will pass to the function: the row it
has read is the one it still holds (`TxCovers`).
-/

namespace BeSdk.Db

open Function Runs List RowLocks Table Numbers

def Use.covers (k : String) (n : Int) : Use → Bool
  | .issued s m => s.key = k ∧ m = n
  | .skipped s lo hi => s.key = k ∧ lo ≤ n ∧ n ≤ hi
  | .voided s lo hi => s.key = k ∧ lo ≤ n ∧ n ≤ hi

/-- The uses take each number above `lo` and up to `hi` once, and no other one. -/
def Tiles (k : String) (uses : List Use) (lo hi : Int) : Prop :=
  ∀ n, uses.countP (Use.covers k n) = if lo < n ∧ n ≤ hi then 1 else 0

section Tiles
variable {k : String} {us vs : List Use} {lo mid hi : Int} {u : Use}

theorem Tiles.nil : Tiles k [] lo lo := by
  intro n
  rw [if_neg (by omega)]
  rfl

theorem Tiles.append (hus : Tiles k us lo mid) (hvs : Tiles k vs mid hi) (hlo : lo ≤ mid)
    (hhi : mid ≤ hi) : Tiles k (vs ++ us) lo hi := by
  intro n
  rw [countP_append, hus n, hvs n]
  split_ifs <;> omega

theorem Tiles.cons_other (hus : Tiles k us lo hi) (hu : ∀ n, u.covers k n = false) :
    Tiles k (u :: us) lo hi := by
  intro n
  rw [countP_cons_of_neg (by simp [hu n]), hus n]

theorem Tiles.singleton (hu : ∀ n, u.covers k n = decide (lo < n ∧ n ≤ hi)) :
    Tiles k [u] lo hi := by
  intro n
  rw [countP_singleton, hu n]
  simp only [decide_eq_true_eq]

/-- What takes nothing takes nothing anywhere. -/
theorem Tiles.empty_move (hus : Tiles k us lo lo) (mid : Int) : Tiles k us mid mid := by
  intro n
  rw [hus n, if_neg (by omega), if_neg (by omega)]

end Tiles

/-! ## The invariant -/

def SeriesPhase.about : SeriesPhase → Option String
  | .raising sr _ _ => some sr.key
  | .advanceRaising sr _ _ _ => some sr.key
  | .voiding sr _ _ _ => some sr.key
  | _ => none

/-- What a transaction took of the series whose committed number is `c` and of which it sees `m`. -/
inductive TxCovers (k : String) (c m : Int) (holds : Bool) (uses : List Use) : SeriesPhase → Prop
  | failed : TxCovers k c m holds uses .failed
  | elsewhere {p : SeriesPhase} (habout : p.about ≠ some k) (htiles : Tiles k uses c m) :
      TxCovers k c m holds uses p
  -- the row that was read is held, and will be raised
  | raising {sr : Series} {upTo : Int} {todo : List (Series × Int)} (hkey : sr.key = k)
      (hholds : holds = true) (hlt : m < upTo) (htiles : Tiles k uses c m) :
      TxCovers k c m holds uses (.advanceRaising sr upTo (some ⟨m, true⟩) todo)
  -- the row was raised, and the numbers between are to be voided
  | voiding {sr : Series} {lo : Int} {todo : List (Series × Int)} (hkey : sr.key = k)
      (hholds : holds = true) (hlo : c < lo) (hhi : lo ≤ m) (htiles : Tiles k uses c (lo - 1)) :
      TxCovers k c m holds uses (.voiding sr lo m todo)

/-- What is seen of the series, and the numbers that were taken of it. -/
structure SeriesCovered (k : String) (start c : Int) (s : Numbers) : Prop where
  committed : s.rows.committed k = some ⟨c, true⟩
  above : start ≤ c
  log : Tiles k s.log start c
  own : ∀ w, ∃ m, s.rows.sees w k = some ⟨m, true⟩ ∧ c ≤ m ∧
    TxCovers k c m (s.rows.holds w k) (s.uses w) (s.phases w)

/-- Nothing but the transaction `w` differs, and it has not ended. -/
structure OnlyMoves (k : String) (w : Nat) (s t : Numbers) : Prop where
  committed : t.rows.committed = s.rows.committed
  log : t.log = s.log
  sees : ∀ w', w' ≠ w → t.rows.sees w' k = s.rows.sees w' k
  holds : ∀ w', w' ≠ w → t.rows.holds w' k = s.rows.holds w' k
  uses : ∀ w', w' ≠ w → t.uses w' = s.uses w'
  phases : ∀ w', w' ≠ w → t.phases w' = s.phases w'

section Moves
variable {k k' : String} {start c m : Int} {s t : Numbers} {w : Nat} {p : SeriesPhase}

theorem OnlyMoves.goTo : OnlyMoves k w s (s.goTo w p) where
  committed := rfl
  log := rfl
  sees := fun _ _ => rfl
  holds := fun _ _ => rfl
  uses := fun _ _ => rfl
  phases := fun _ hne => update_of_ne hne ..

theorem OnlyMoves.useGoTo {u : Use} : OnlyMoves k w s ((s.use w u).goTo w p) where
  committed := rfl
  log := rfl
  sees := fun _ _ => rfl
  holds := fun _ _ => rfl
  uses := fun _ hne => update_of_ne hne ..
  phases := fun _ hne => update_of_ne hne ..

theorem OnlyMoves.write {row : SeriesRow} {u : Option Use} (hfree : s.rows.free w k' = true) :
    OnlyMoves k w s (s.write w k' row u p) where
  committed := rfl
  log := rfl
  sees := fun _ hne => put_sees_other hfree hne
  holds := fun _ hne => put_holds_other hfree hne
  uses := fun _ hne => update_of_ne hne ..
  phases := fun _ hne => update_of_ne hne ..

theorem OnlyMoves.lock (hfree : s.rows.free w k' = true) : OnlyMoves k w s (s.lock w k' p) where
  committed := rfl
  log := rfl
  sees := fun _ hne => put_sees_other hfree hne
  holds := fun _ hne => put_holds_other hfree hne
  uses := fun _ _ => rfl
  phases := fun _ hne => update_of_ne hne ..

section
variable (h : SeriesCovered k start c s)
include h

/-- A step of a transaction that does not end it: the rest of the invariant is about others. -/
theorem SeriesCovered.move (hmoves : OnlyMoves k w s t) (hsees : t.rows.sees w k = some ⟨m, true⟩)
    (hle : c ≤ m) (hcovers : TxCovers k c m (t.rows.holds w k) (t.uses w) (t.phases w)) :
    SeriesCovered k start c t where
  committed := hmoves.committed ▸ h.committed
  above := h.above
  log := hmoves.log ▸ h.log
  own := by
    intro w'
    by_cases hw : w' = w
    · subst hw
      exact ⟨m, hsees, hle, hcovers⟩
    rw [hmoves.sees w' hw, hmoves.holds w' hw, hmoves.uses w' hw, hmoves.phases w' hw]
    exact h.own w'

/-- A transaction that is not at work on the series holds what it has used. -/
theorem SeriesCovered.sees (hp : (s.phases w).about ≠ some k) (hfailed : s.phases w ≠ .failed) :
    ∃ m, s.rows.sees w k = some ⟨m, true⟩ ∧ c ≤ m ∧ Tiles k (s.uses w) c m := by
  obtain ⟨m, hsees, hle, hcovers⟩ := h.own w
  refine ⟨m, hsees, hle, ?_⟩
  generalize hphase : s.phases w = q at hp hfailed hcovers
  cases hcovers with
  | failed => exact absurd rfl hfailed
  | elsewhere _ htiles => exact htiles
  | raising hkey | voiding hkey => exact absurd (congrArg some hkey) hp

theorem SeriesCovered.goToFailed : SeriesCovered k start c (s.goTo w .failed) := by
  obtain ⟨m, hsees, hle, -⟩ := h.own w
  refine h.move .goTo hsees hle ?_
  rw [goTo_phases_self]
  exact .failed

section
variable (hold : (s.phases w).about ≠ some k) (hfailed : s.phases w ≠ .failed)
  (hp : p.about ≠ some k)
include hold hfailed hp

/-- A transaction that holds what it has used goes to where it is not at work on the series. -/
theorem SeriesCovered.goTo : SeriesCovered k start c (s.goTo w p) := by
  obtain ⟨m, hsees, hle, htiles⟩ := h.sees hold hfailed
  refine h.move .goTo hsees hle ?_
  rw [goTo_phases_self]
  exact .elsewhere hp htiles

theorem SeriesCovered.writeOther (hk : k ≠ k') (hfree : s.rows.free w k' = true)
    {row : SeriesRow} {u : Option Use} (hu : ∀ v ∈ u, ∀ n, v.covers k n = false) :
    SeriesCovered k start c (s.write w k' row u p) := by
  obtain ⟨m, hsees, hle, htiles⟩ := h.sees hold hfailed
  refine h.move (.write hfree) ((put_sees_of_ne hk).trans hsees) hle ?_
  rw [write_phases_self, write_uses_self]
  refine .elsewhere hp ?_
  cases u with
  | none => exact htiles
  | some v => exact htiles.cons_other (hu v rfl)

end

/-- A write of the series whose use tiles what it is raised by. -/
theorem SeriesCovered.writeUsed (hle : c ≤ m) (htiles : Tiles k (s.uses w) c m)
    (hp : p.about ≠ some k) (hfree : s.rows.free w k = true) {m' : Int} (hm : m ≤ m') {u : Use}
    (hu : ∀ n, u.covers k n = decide (m < n ∧ n ≤ m')) :
    SeriesCovered k start c (s.write w k ⟨m', true⟩ (some u) p) := by
  refine h.move (.write hfree) put_sees_self (Int.le_trans hle hm) ?_
  rw [write_phases_self, write_uses_self]
  exact .elsewhere hp (htiles.append (.singleton hu) hle hm)

theorem SeriesCovered.lock (hold : (s.phases w).about ≠ some k)
    (hfailed : s.phases w ≠ .failed) (hp : p.about ≠ some k) (hfree : s.rows.free w k' = true) :
    SeriesCovered k start c (s.lock w k' p) := by
  obtain ⟨m, hsees, hle, htiles⟩ := h.sees hold hfailed
  have hlock : (s.rows.lock w k').sees w k = some ⟨m, true⟩ := by
    by_cases hk : k = k'
    · subst hk
      exact put_sees_self.trans hsees
    exact (put_sees_of_ne hk).trans hsees
  refine h.move (.lock hfree) hlock hle ?_
  rw [lock_phases_self]
  exact .elsewhere hp htiles

/-! ## The ends of transactions -/

theorem SeriesCovered.rollback (w : Nat) : SeriesCovered k start c (s.rollback w) where
  committed := h.committed
  above := h.above
  log := h.log
  own := by
    intro w'
    by_cases hw : w' = w
    · subst hw
      have hnot : (s.rows.rollback w').holds w' k = false := release_holds_self
      refine ⟨c, (sees_of_not_holds hnot).trans h.committed, Int.le_refl _, ?_⟩
      rw [rollback_phases, rollback_uses, update_self, update_self]
      exact .elsewhere (by simp [SeriesPhase.about]) .nil
    obtain ⟨m, hsees, hle, hcovers⟩ := h.own w'
    refine ⟨m, (rollback_sees_other hw).trans hsees, hle, ?_⟩
    have hholds : (s.rollback w).rows.holds w' k = s.rows.holds w' k := release_holds_other hw
    rw [rollback_phases, rollback_uses, update_of_ne hw, update_of_ne hw, hholds]
    exact hcovers

end

/-- What a transaction that does not hold the row took of the series is nothing. -/
theorem TxCovers.committed {uses : List Use} (h : TxCovers k c c false uses p) (c' : Int) :
    TxCovers k c' c' false uses p := by
  cases h with
  | failed => exact .failed
  | elsewhere habout htiles => exact .elsewhere habout (htiles.empty_move c')
  | raising _ hholds => cases hholds
  | voiding _ hholds => cases hholds

theorem SeriesCovered.commit (h : SeriesCovered k start c s) (hold : (s.phases w).about = none)
    (hfailed : s.phases w ≠ .failed) : ∃ c', SeriesCovered k start c' (s.commit w) := by
  obtain ⟨m, hsees, hle, htiles⟩ := h.sees (w := w) (by simp [hold]) hfailed
  refine ⟨m, hsees, Int.le_trans h.above hle, h.log.append htiles h.above hle, fun w' => ?_⟩
  by_cases hw : w' = w
  · subst hw
    have hnot : (s.rows.commit w').holds w' k = false := release_holds_self
    refine ⟨m, (sees_of_not_holds hnot).trans hsees, Int.le_refl _, ?_⟩
    rw [commit_phases, commit_uses, update_self, update_self]
    exact .elsewhere (by simp [SeriesPhase.about]) .nil
  have hholds : (s.commit w).rows.holds w' k = s.rows.holds w' k := release_holds_other hw
  rw [commit_phases, commit_uses, update_of_ne hw, update_of_ne hw, hholds]
  obtain ⟨m', hsees', hle', hcovers⟩ := h.own w'
  cases hown : s.rows.holds w' k with
  | true =>
    -- another one holds the row, which this one has not written
    have hm : some (⟨m, true⟩ : SeriesRow) = some ⟨c, true⟩ :=
      hsees.symm.trans ((commit_committed_of_holds hw hown).trans h.committed)
    cases hm
    exact ⟨m', (commit_sees_of_holds hw hown).trans hsees', hle', hown ▸ hcovers⟩
  | false =>
    have hc : some (⟨m', true⟩ : SeriesRow) = some ⟨c, true⟩ :=
      hsees'.symm.trans ((sees_of_not_holds hown).trans h.committed)
    cases hc
    have hnot : (s.rows.commit w).holds w' k = false := hholds.trans hown
    refine ⟨m, (sees_of_not_holds hnot).trans hsees, Int.le_refl _, ?_⟩
    exact (hown ▸ hcovers).committed m

end Moves

/-! ## The functions -/

section Functions
variable {k : String} {start c : Int} {s t : Numbers} {w : Nat} {sr : Series}

theorem SeriesCovered.next (h : SeriesCovered k start c s) (hphase : s.phases w = .running)
    {gapless : Bool} (hkind : sr.key = k → gapless = true) (hfree : s.rows.free w sr.key = true) :
    SeriesCovered k start c (s.next w sr gapless) := by
  have hold : (s.phases w).about ≠ some k := by simp [hphase, SeriesPhase.about]
  have hfailed : s.phases w ≠ .failed := by simp [hphase]
  by_cases hk : sr.key = k
  · subst hk
    obtain ⟨m, hsees, hle, htiles⟩ := h.sees hold hfailed
    simp only [Numbers.next, hsees]
    split
    · exact h.goToFailed
    rw [if_pos (hkind rfl)]
    refine h.writeUsed hle htiles (by simp [SeriesPhase.about]) hfree (by omega) fun n => ?_
    simp only [Use.covers, true_and, decide_eq_decide]
    omega
  unfold Numbers.next
  split
  · refine h.writeOther hold hfailed (by simp [SeriesPhase.about]) (Ne.symm hk) hfree ?_
    rintro v ⟨⟩
    simp [Use.covers, hk]
  split
  · exact h.goToFailed
  refine h.writeOther hold hfailed (by simp [SeriesPhase.about]) (Ne.symm hk) hfree ?_
  intro v hv
  split at hv <;> cases hv
  simp [Use.covers, hk]

theorem SeriesCovered.registerImported (h : SeriesCovered k start c s)
    (hphase : s.phases w = .running) {gapless : Bool} {last : Int}
    (hfree : s.rows.free w sr.key = true) :
    SeriesCovered k start c (s.registerImported w sr gapless last) := by
  have hold : (s.phases w).about ≠ some k := by simp [hphase, SeriesPhase.about]
  have hfailed : s.phases w ≠ .failed := by simp [hphase]
  by_cases hk : sr.key = k
  · subst hk
    obtain ⟨m, hsees, hle, htiles⟩ := h.sees hold hfailed
    simp only [Numbers.registerImported, hsees]
    refine h.writeUsed hle htiles (by simp [SeriesPhase.about]) hfree (by omega) fun n => ?_
    simp only [Use.covers, true_and, decide_eq_decide]
    omega
  unfold Numbers.registerImported
  split
  all_goals
    refine h.writeOther hold hfailed (by simp [SeriesPhase.about]) (Ne.symm hk) hfree ?_
    rintro v ⟨⟩
    simp [Use.covers, hk]

variable {upTo : Int}

theorem SeriesCovered.raiseReadOther (h : SeriesCovered k start c s)
    (hold : (s.phases w).about = none) (hfailed : s.phases w ≠ .failed) (hk : sr.key ≠ k)
    {refused done : SeriesPhase} {raise : Option SeriesRow → SeriesPhase}
    (hrefused : refused.about = none) (hdone : done.about = none)
    (hraise : ∀ seen, (raise seen).about = some sr.key)
    (hstep : s.raiseRead w sr upTo refused done raise = some t) : SeriesCovered k start c t := by
  have hold' : (s.phases w).about ≠ some k := by simp [hold]
  unfold Numbers.raiseRead at hstep
  split at hstep
  · cases hstep
    refine h.goTo hold' hfailed ?_
    split
    · simp [hdone]
    simpa [hraise] using hk
  split at hstep <;> cases hstep
  rename_i hfree
  refine h.lock hold' hfailed ?_ hfree
  split
  · simp [hrefused]
  split
  · simp [hdone]
  simpa [hraise] using hk

variable {todo : List (Series × Int)}

section
variable (h : SeriesCovered k start c s)
include h

/-- The select of AdvanceNumbers, which holds the row of the series from here on. -/
theorem SeriesCovered.advanceRead (hphase : s.phases w = .advancing ((sr, upTo) :: todo))
    (hstep : (s.raiseRead w sr upTo .failed (.advancing todo) fun seen =>
      .advanceRaising sr upTo seen todo) = some t) : SeriesCovered k start c t := by
  have hold : (s.phases w).about = none := by simp [hphase, SeriesPhase.about]
  have hfailed : s.phases w ≠ .failed := by simp [hphase]
  by_cases hk : sr.key = k
  · subst hk
    have hold' : (s.phases w).about ≠ some sr.key := by simp [hold]
    obtain ⟨m, hsees, hle, htiles⟩ := h.sees hold' hfailed
    simp only [Numbers.raiseRead, hsees] at hstep
    split at hstep <;> cases hstep
    rename_i hfree
    rw [if_neg (by simp)]
    split
    · exact h.lock hold' hfailed (by simp [SeriesPhase.about]) hfree
    rename_i hlt
    have hlock : (s.rows.lock w sr.key).sees w sr.key = some ⟨m, true⟩ :=
      put_sees_self.trans hsees
    refine h.move (.lock hfree) hlock hle ?_
    rw [lock_phases_self]
    exact .raising rfl put_holds_self (by omega) htiles
  exact h.raiseReadOther hold hfailed hk rfl rfl (fun _ => rfl) hstep

theorem SeriesCovered.raiseWriteOther (hold : (s.phases w).about = some sr.key)
    (hfailed : s.phases w ≠ .failed) (hk : sr.key ≠ k) {p : SeriesPhase} (hp : p.about ≠ some k)
    (hfree : s.rows.free w sr.key = true) : SeriesCovered k start c (s.raiseWrite w sr upTo p) := by
  have hold' : (s.phases w).about ≠ some k := by simpa [hold] using hk
  unfold Numbers.raiseWrite
  split
  · exact h.writeOther hold' hfailed hp (Ne.symm hk) hfree (by simp)
  exact h.writeOther hold' hfailed hp (Ne.symm hk) hfree (by simp)

/-- The insert of AdvanceNumbers raises the row it has read. -/
theorem SeriesCovered.advanceWrite
    {seen : Option SeriesRow} (hphase : s.phases w = .advanceRaising sr upTo seen todo)
    (hfree : s.rows.free w sr.key = true) : SeriesCovered k start c
      (s.raiseWrite w sr upTo (.voiding sr (Numbers.before seen + 1) upTo todo)) := by
  by_cases hk : sr.key = k
  · subst hk
    obtain ⟨m, hsees, hle, hcovers⟩ := h.own w
    rw [hphase] at hcovers
    cases hcovers with
    | elsewhere habout => exact absurd rfl habout
    | raising _ hholds hlt htiles =>
      simp only [Numbers.raiseWrite, hsees]
      refine h.move (.write hfree) put_sees_self (by omega) ?_
      rw [write_phases_self, write_uses_self]
      have htiles' : Tiles sr.key (s.uses w) c (m + 1 - 1) := by
        rw [Int.add_sub_cancel]
        exact htiles
      exact .voiding rfl put_holds_self (Int.lt_add_one_of_le hle) hlt htiles'
  have hold : (s.phases w).about = some sr.key := by simp [hphase, SeriesPhase.about]
  exact h.raiseWriteOther hold (by simp [hphase]) hk (by simpa [SeriesPhase.about] using hk) hfree

/-- The void function takes the numbers between. -/
theorem SeriesCovered.void {lo hi : Int} (hphase : s.phases w = .voiding sr lo hi todo) :
    SeriesCovered k start c ((s.use w (.voided sr lo hi)).goTo w (.advancing todo)) := by
  obtain ⟨m, hsees, hle, hcovers⟩ := h.own w
  refine h.move .useGoTo hsees hle ?_
  have huses : ((s.use w (.voided sr lo hi)).goTo w (.advancing todo)).uses w =
      [.voided sr lo hi] ++ s.uses w := update_self ..
  rw [huses, goTo_phases_self]
  refine .elsewhere (by simp [SeriesPhase.about]) ?_
  rw [hphase] at hcovers
  cases hcovers with
  | elsewhere habout htiles =>
    refine htiles.cons_other fun n => ?_
    have hk : sr.key ≠ k := fun heq => habout (congrArg some heq)
    simp [Use.covers, hk]
  | voiding hkey hholds hlo hhi htiles =>
    refine htiles.append (.singleton fun n => ?_) (by omega) (by omega)
    simp only [Use.covers, hkey, true_and, decide_eq_decide]
    omega

end
end Functions

/-! ## Runs -/

/-- The series is used as a continuous one: no number that allows gaps is taken of it, and it is
raised by AdvanceNumbers only. -/
def Continuous (k : String) : SeriesAction → Prop
  | .next _ sr gapless => sr.key = k → gapless = true
  | .raiseRead _ sr _ => sr.key ≠ k
  | _ => True

section Steps
variable {k : String} {start c : Int} {s t : Numbers} {a : SeriesAction}

theorem SeriesCovered.step (h : SeriesCovered k start c s) (ha : Continuous k a)
    (hstep : seriesStep s a = some t) : ∃ c', SeriesCovered k start c' t := by
  cases seriesStepped hstep with
  | begin hphase | advance hphase =>
    exact ⟨c, h.goTo (by simp [hphase, SeriesPhase.about]) (by simp [hphase])
      (by simp [SeriesPhase.about])⟩
  | next hphase hfree => exact ⟨c, h.next hphase ha hfree⟩
  | registerImported hphase hfree => exact ⟨c, h.registerImported hphase hfree⟩
  | raiseRead hphase hread =>
    exact ⟨c, h.raiseReadOther (by simp [hphase, SeriesPhase.about]) (by simp [hphase]) ha rfl rfl
      (fun _ => rfl) hread⟩
  | @raiseWrite w sr upTo seen hphase hfree =>
    have hk : sr.key ≠ k := by
      rintro rfl
      obtain ⟨m, -, -, hcovers⟩ := h.own w
      rw [hphase] at hcovers
      cases hcovers with
      | elsewhere habout => exact habout rfl
    exact ⟨c, h.raiseWriteOther (by simp [hphase, SeriesPhase.about]) (by simp [hphase]) hk
      (by simp [SeriesPhase.about]) hfree⟩
  | negative | voidFailed => exact ⟨c, h.goToFailed⟩
  | advanceRead hphase hread => exact ⟨c, h.advanceRead hphase hread⟩
  | advanceWrite hphase hfree => exact ⟨c, h.advanceWrite hphase hfree⟩
  | void hphase => exact ⟨c, h.void hphase⟩
  | commit hphase =>
    rcases hphase with hphase | hphase
    · exact h.commit (by simp [hphase, SeriesPhase.about]) (by simp [hphase])
    exact h.commit (by simp [hphase, SeriesPhase.about]) (by simp [hphase])
  | rollback => exact ⟨c, h.rollback _⟩

theorem SeriesCovered.initial {rows : String → Option SeriesRow}
    (hrow : rows k = some ⟨start, true⟩) : SeriesCovered k start start (Numbers.start rows) where
  committed := hrow
  above := Int.le_refl _
  log := .nil
  own := fun _ =>
    ⟨start, hrow, Int.le_refl _, .elsewhere (by simp [Numbers.start, SeriesPhase.about]) .nil⟩

end Steps

/-- **Every number has one use.**  After every run of a continuous series whose row is there, each
number above the starting one and up to the current one was given by one committed NextNumber,
passed to the void function by one committed AdvanceNumbers or passed over by one committed
RegisterImported, and is in no second use; a number outside is in none. -/
theorem every_number_has_one_use {rows : String → Option SeriesRow} {k : String} {start : Int}
    (hrow : rows k = some ⟨start, true⟩) {as : List SeriesAction} (has : ∀ a ∈ as, Continuous k a)
    {t : Numbers} (hrun : run seriesStep (Numbers.start rows) as = some t) :
    ∃ current, t.rows.committed k = some ⟨current, true⟩ ∧ start ≤ current ∧
      ∀ n, t.log.countP (Use.covers k n) = if start < n ∧ n ≤ current then 1 else 0 := by
  have hcovered : ∃ c, SeriesCovered k start c t := by
    refine run_invariant (P := fun s => ∃ c, SeriesCovered k start c s) ?_ ⟨start, .initial hrow⟩
      (.of_forall has) hrun
    rintro s a s' ⟨c, h⟩ ha hstep
    exact h.step ha hstep
  obtain ⟨c, h⟩ := hcovered
  exact ⟨c, h.committed, h.above, h.log⟩

/-- A number that is given, one that is rolled back, an import, and a request of AdvanceNumbers that
names the series twice. -/
theorem every_number_has_one_use_of_invoices :
    let invoices : Series := ⟨"d", "i", ""⟩
    ∃ t,
      run seriesStep (Numbers.start fun k => if k = invoices.key then some ⟨7, true⟩ else none)
        [.begin 1, .next 1 invoices true, .commit 1, .begin 2, .next 2 invoices true, .rollback 2,
          .advance 3 [(invoices, 10), (invoices, 12)], .advanceRead 3, .advanceWrite 3,
          .void 3 true, .advanceRead 3, .advanceWrite 3, .void 3 true, .commit 3,
          .begin 4, .registerImported 4 invoices true 20, .commit 4] = some t ∧
      t.log = [.skipped invoices 13 20, .voided invoices 11 12, .voided invoices 9 10,
        .issued invoices 8] ∧
      ∃ current, t.rows.committed invoices.key = some ⟨current, true⟩ ∧ 7 ≤ current ∧
        ∀ n, t.log.countP (Use.covers invoices.key n) = if 7 < n ∧ n ≤ current then 1 else 0 := by
  intro invoices
  refine exists_of_map_run (f := Numbers.log) ?_ fun t hrun => ?_
  · decide +kernel
  refine every_number_has_one_use (if_pos rfl) ?_ hrun
  simp [Continuous]

end BeSdk.Db

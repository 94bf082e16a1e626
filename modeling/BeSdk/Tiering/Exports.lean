import BeSdk.Library.Locks
import BeSdk.Library.Runs
import BeSdk.Library.Tables

/-!
# Exports and erasures

An export is a history read written to an object, by the queue job's attempts.  An erasure of the
class makes what was read before it unreadable: in its transaction VoidExports first lets the
finished exports expire, then marks the pending ones, and an export that is marked is read again
rather than finished.

A step is one statement, or one call of the object store.  The statements of an erasure are its two
updates, each a snapshot of the rows it matches and then, as PostgreSQL does at READ COMMITTED, the
rows themselves, waited for, locked and matched again; what they write is seen when the erasure
commits.  Content is modelled by when it was read: the number of erasures committed when its read
began.  `lease` is the work item's: `Run.Complete` is fenced by it, the object store is not.
-/

namespace BeSdk.Tiering

open Runs Tables Function List

/-! ## The export job -/

inductive ExportState where
  | pending
  | done
  | failed
deriving DecidableEq, Repr

/-- A row of `be_tier_export`; it is marked while it has an `erased_at`, expired once `expires_at`
is past. -/
structure ExportRow where
  «class» : String
  state : ExportState := .pending
  marked : Bool := false
  expired : Bool := false
deriving DecidableEq, Repr

def ExportRow.answersDone (r : ExportRow) : Bool := r.state = .done ∧ r.expired = false

def ExportRow.voided (r : ExportRow) (expires marks : Bool) : ExportRow :=
  { r with expired := r.expired || expires, marked := r.marked || marks }

inductive ExportPhase where
  | idle
  -- writeExport: the state, then the mark
  | start (x : Nat)
  | look (x : Nat)
  -- the object of an earlier attempt goes, then the mark
  | delete (x : Nat)
  | clear (x : Nat)
  | read (x : Nat)
  | reading (x : Nat) (seen : Nat)
  | put (x : Nat) (seen : Nat)
  -- the completing transaction; `failing` with a reason
  | complete (x : Nat) (failing : Bool)
deriving DecidableEq, Repr

/-- Where an erasure's transaction is in VoidExports, with the rows of its updates. -/
inductive VoidPhase where
  | idle
  | expiring («class» : String) (ids : List Nat)
  | expired («class» : String) (ids : List Nat)
  | marking («class» : String) (ids : List Nat) (pending : List Nat)
  | marked («class» : String) (ids : List Nat) (pending : List Nat)
deriving DecidableEq, Repr

structure Exports where
  ids : List Nat
  rows : Nat → Option ExportRow
  -- each export's object: when its content was read
  objects : Nat → Option Nat
  -- the work items: who has the lease, and whether the item is completed
  lease : Nat → Option Nat
  finished : Nat → Bool
  workers : Nat → ExportPhase
  voids : Nat → VoidPhase
  -- the rows the erasures' transactions have locked
  locks : Locks Nat Nat
  -- the classes of the erasures committed, in order
  erasures : List String

inductive ExportAction where
  | start (x : Nat) («class» : String)
  -- a worker takes the work item, the first time or after the lease of another ran out
  | claim (w x : Nat)
  -- the attempt's next statement or call
  | next (w : Nat)
  -- the read answers a reason, or the last attempt fails: the export fails
  | giveUp (w : Nat)
  -- the attempt fails and gives the item back, or the worker is gone
  | fail (w : Nat)
  | crash (w : Nat)
  -- an export's time is up
  | lapse (x : Nat)
  -- an erasure's transaction begins its first update
  | erase (e : Nat) («class» : String)
  | void (e : Nat)
  | rollback (e : Nat)

namespace Exports

variable (s : Exports)

def rowIs (x : Nat) (p : ExportRow → Bool) : Bool := (s.rows x).any p

def select («class» : String) (p : ExportRow → Bool) : List Nat :=
  s.ids.filter fun x => s.rowIs x fun r => r.class = «class» ∧ p r = true

def free (x : Nat) : Bool := s.locks.all fun held => held.2 ≠ x

/-- The rows are locked by no other erasure's transaction. -/
def freeFor (e : Nat) (ids : List Nat) : Bool :=
  ids.all fun x => s.locks.free (fun x y => x = y) e x

def goTo (w : Nat) (phase : ExportPhase) : Exports := { s with workers := update s.workers w phase }

def finish (w x : Nat) (row : ExportRow) : Exports :=
  { s with
    rows := update s.rows x (some row)
    lease := update s.lease x none
    finished := update s.finished x true
    workers := update s.workers w .idle }

/-- The attempt has failed: the item is there for the next one. -/
def giveBack (w x : Nat) : Exports :=
  { s with
    lease := update s.lease x (if s.lease x = some w then none else s.lease x)
    workers := update s.workers w .idle }

/-- The completing transaction of ExportJobOf, under the lease. -/
def complete (w x : Nat) (failing : Bool) : Option Exports :=
  if s.lease x ≠ some w then some (s.goTo w .idle)
  else if s.free x = false then none
  else (s.rows x).map fun row =>
    if row.state ≠ .pending then s.finish w x row
    else if failing then s.finish w x { row with state := .failed }
    else if row.marked then s.giveBack w x
    else s.finish w x { row with state := .done }

def next (w : Nat) : ExportPhase → Option Exports
  | .idle => none
  | .start x =>
    some (s.goTo w (if s.rowIs x fun r => r.state = .pending then .look x else .complete x false))
  | .look x => some (s.goTo w (if s.rowIs x (·.marked) then .delete x else .read x))
  | .delete x => some { s.goTo w (.clear x) with objects := update s.objects x none }
  | .clear x =>
    if s.free x then
      some { s.goTo w (.read x) with
        rows := update s.rows x ((s.rows x).map fun r => { r with marked := false }) }
    else none
  | .read x => some (s.goTo w (.reading x s.erasures.length))
  | .reading x seen => some (s.goTo w (.put x seen))
  -- a put only creates: an object that is there is an earlier attempt's, and it is taken
  | .put x seen =>
    some { s.goTo w (.complete x false) with
      objects := update s.objects x ((s.objects x).or (some seen)) }
  | .complete x failing => s.complete w x failing

def attempt : ExportPhase → Option Nat
  | .idle => none
  | .start x | .look x | .delete x | .clear x | .read x | .reading x _ | .put x _
  | .complete x _ => some x

/-- One part of an erasure's two updates, and its commit. -/
def void (e : Nat) : VoidPhase → Option Exports
  | .idle => none
  | .expiring cls ids =>
    if s.freeFor e ids then
      let still := ids.filter fun x => s.rowIs x (·.answersDone)
      some { s with
        voids := update s.voids e (.expired cls still)
        locks := still.map (e, ·) ++ s.locks }
    else none
  | .expired cls ids =>
    some { s with
      voids := update s.voids e (.marking cls ids (s.select cls fun r => r.state = .pending)) }
  | .marking cls ids pending =>
    if s.freeFor e pending then
      let still := pending.filter fun x => s.rowIs x fun r => r.state = .pending
      some { s with
        voids := update s.voids e (.marked cls ids still)
        locks := still.map (e, ·) ++ s.locks }
    else none
  | .marked cls ids pending =>
    some { s with
      rows := fun x => (s.rows x).map (·.voided (x ∈ ids) (x ∈ pending))
      erasures := s.erasures ++ [cls]
      voids := update s.voids e .idle
      locks := s.locks.release e }

end Exports

def exportStep (s : Exports) : ExportAction → Option Exports
  | .start x cls =>
    if s.rows x = none then
      some { s with
        ids := x :: s.ids
        rows := update s.rows x (some { «class» := cls })
        finished := update s.finished x false }
    else none
  | .claim w x =>
    if s.workers w = .idle ∧ (s.rows x).isSome ∧ s.finished x = false then
      some { s.goTo w (.start x) with lease := update s.lease x (some w) }
    else none
  | .next w => s.next w (s.workers w)
  | .giveUp w => (Exports.attempt (s.workers w)).map fun x => s.goTo w (.complete x true)
  | .fail w => (Exports.attempt (s.workers w)).map fun x => s.giveBack w x
  | .crash w => some (s.goTo w .idle)
  | .lapse x =>
    (s.rows x).map fun row => { s with rows := update s.rows x (some { row with expired := true }) }
  | .erase e cls =>
    if s.voids e = .idle then
      some { s with voids := update s.voids e (.expiring cls (s.select cls (·.answersDone))) }
    else none
  | .void e => s.void e (s.voids e)
  | .rollback e => some { s with voids := update s.voids e .idle, locks := s.locks.release e }

def Exports.init : Exports where
  ids := []
  rows := fun _ => none
  objects := fun _ => none
  lease := fun _ => none
  finished := fun _ => false
  workers := fun _ => .idle
  voids := fun _ => .idle
  locks := []
  erasures := []

/-! ## What is fresh -/

/-- No erasure of the class was committed after the read began. -/
def Fresh (erasures : List String) («class» : String) (seen : Nat) : Prop :=
  «class» ∉ erasures.drop seen

theorem fresh_now (erasures : List String) (cls : String) : Fresh erasures cls erasures.length := by
  simp [Fresh]

variable {cls : String}

theorem Fresh.append {erasures : List String} {other : String} {seen : Nat}
    (h : Fresh erasures cls seen) (hother : cls ≠ other) :
    Fresh (erasures ++ [other]) cls seen := by
  unfold Fresh at h ⊢
  rw [drop_append, mem_append, not_or]
  refine ⟨h, fun hmem => hother ?_⟩
  exact mem_singleton.1 (mem_of_mem_drop hmem)

/-- The rows an erasure of a class is going to let expire, from the snapshot of its first update. -/
def VoidPhase.expires : VoidPhase → Option (String × List Nat)
  | .idle => none
  | .expiring cls ids | .expired cls ids | .marking cls ids _ | .marked cls ids _ => some (cls, ids)

/-- The rows it is going to mark, from the snapshot of its second update. -/
def VoidPhase.marks : VoidPhase → Option (String × List Nat)
  | .marking cls _ pending | .marked cls _ pending => some (cls, pending)
  | _ => none

/-- The erasure has begun its first update and not locked the rows of its second. -/
def VoidPhase.between («class» : String) : VoidPhase → Prop
  | .expiring cls _ | .expired cls _ | .marking cls _ _ => cls = «class»
  | _ => False

variable {ids : List Nat}

theorem between_or_marked {phase : VoidPhase} (h : phase.expires = some (cls, ids)) :
    phase.between cls ∨ ∃ pending, phase = .marked cls ids pending := by
  cases phase with
  | idle => cases h
  | marked cls ids pending =>
    cases h
    exact .inr ⟨pending, rfl⟩
  | _ =>
    cases h
    exact .inl rfl

/-- What a worker in a phase knows of the export it has the lease of. -/
def ExportPhase.Knows (s : Exports) (x : Nat) : ExportPhase → Prop
  | .clear y => y = x → s.objects x = none
  | .reading y seen | .put y seen => y = x → ∀ row, s.rows x = some row → row.state = .pending →
      row.marked = false → Fresh s.erasures row.class seen
  | _ => True

structure ExportsOk (s : Exports) : Prop where
  ids : ∀ x row, s.rows x = some row → x ∈ s.ids
  unborn : ∀ x, s.rows x = none → s.objects x = none ∧ s.lease x = none
  settled : ∀ x row, s.rows x = some row → row.state ≠ .pending →
    s.lease x = none ∧ s.finished x = true
  -- the objects of exports that are done, or may be completed with them
  object : ∀ x row seen, s.rows x = some row → s.objects x = some seen →
    row.answersDone = true ∨ row.state = .pending ∧ row.marked = false →
    Fresh s.erasures row.class seen
  worker : ∀ w x, s.lease x = some w → (s.workers w).Knows s x
  -- an erasure under way has the finished exports of the class among its rows
  expires : ∀ e cls ids, (s.voids e).expires = some (cls, ids) → ∀ x row, s.rows x = some row →
    row.class = cls → row.answersDone = true → x ∈ ids
  -- and later the pending ones
  marks : ∀ e cls ids, (s.voids e).marks = some (cls, ids) → ∀ x row, s.rows x = some row →
    row.class = cls → row.state = .pending → x ∈ ids
  locked : ∀ e cls ids pending, s.voids e = .marked cls ids pending →
    ∀ x ∈ pending, (e, x) ∈ s.locks

/-- A worker changes an object or a mark only while it has the lease; no export of a class
completes between the two updates of an erasure of the class, and none starts between the second
update and the commit. -/
def Orderly (s : Exports) : ExportAction → Prop
  | .start _ cls => ∀ e ids, (s.voids e).marks ≠ some (cls, ids)
  | .next w =>
    match s.workers w with
    | .delete x | .clear x | .put x _ => s.lease x = some w
    | .complete x false => ∀ row e, s.lease x = some w → s.rows x = some row →
        row.state = .pending → row.marked = false → ¬ (s.voids e).between row.class
    | _ => True
  | _ => True

variable {x : Nat} {phase : ExportPhase}

variable {s : Exports} {e : Nat}

/-- A phase that is not about the export says nothing of it. -/
theorem knows_of_attempt_ne (h : Exports.attempt phase ≠ some x) : phase.Knows s x := by
  cases phase with
  | clear y | reading y seen | put y seen => exact fun hy => absurd (congrArg some hy) h
  | _ => trivial

variable {s' : Exports}

theorem ExportPhase.Knows.congr (h : phase.Knows s x) (hobjects : s'.objects x = s.objects x)
    (hrows : s'.rows x = s.rows x) (herasures : s'.erasures = s.erasures) : phase.Knows s' x := by
  cases phase with
  | clear y => exact fun hy => hobjects.trans (h hy)
  | reading y seen | put y seen =>
    intro hy row hrow
    rw [herasures]
    exact h hy row (hrows ▸ hrow)
  | _ => trivial

theorem goTo_self (s : Exports) (w : Nat) (phase : ExportPhase) :
    (s.goTo w phase).workers w = phase := update_self ..

variable {w : Nat}

theorem goTo_of_ne (s : Exports) {w' : Nat} (h : w' ≠ w) (phase : ExportPhase) :
    (s.goTo w phase).workers w' = s.workers w' := update_of_ne h ..

/-! ## What one step keeps

One lemma for each part of the state: the leases and where the workers are, one row, one object, the
erasures under way. -/

variable {lease : Nat → Option Nat}

theorem ExportsOk.leases (h : ExportsOk s)
    {workers : Nat → ExportPhase} (hunborn : ∀ x, s.rows x = none → lease x = none)
    (hsettled : ∀ x row, s.rows x = some row → row.state ≠ .pending → lease x = none)
    (hworker : ∀ w x, lease x = some w → (workers w).Knows s x) :
    ExportsOk { s with lease := lease, workers := workers } where
  ids := h.ids
  unborn := fun x hx => ⟨(h.unborn x hx).1, hunborn x hx⟩
  settled := fun x row hrow hstate => ⟨hsettled x row hrow hstate, (h.settled x row hrow hstate).2⟩
  object := h.object
  worker := hworker
  expires := h.expires
  marks := h.marks
  locked := h.locked

/-- A worker goes to a phase that knows nothing, or what it says is so. -/
theorem knows_update (hothers : ∀ w' x, w' ≠ w → lease x = some w' → (s.workers w').Knows s x)
    (hknows : ∀ x, lease x = some w → phase.Knows s x) :
    ∀ w' x, lease x = some w' → (update s.workers w phase w').Knows s x := by
  intro w' x hlease
  rcases update_cases s.workers w phase w' with ⟨rfl, hself⟩ | ⟨hw, hother⟩
  · rw [hself]
    exact hknows x hlease
  rw [hother]
  exact hothers w' x hw hlease

theorem ExportsOk.goTo (h : ExportsOk s)
    (hknows : ∀ x, s.lease x = some w → phase.Knows s x) : ExportsOk (s.goTo w phase) :=
  h.leases (fun x hx => (h.unborn x hx).2)
    (fun x row hrow hstate => (h.settled x row hrow hstate).1)
    (knows_update (fun w' x _ => h.worker w' x) hknows)

theorem ExportsOk.giveBack (h : ExportsOk s) (w x : Nat) : ExportsOk (s.giveBack w x) := by
  -- the lease of no other is touched, and nobody gets one
  have hless : ∀ y w', (s.giveBack w x).lease y = some w' → s.lease y = some w' := by
    intro y w' hlease
    dsimp only [Exports.giveBack] at hlease
    rcases update_cases s.lease x (if s.lease x = some w then none else s.lease x) y with
      ⟨rfl, hself⟩ | ⟨-, hother⟩
    · rw [hself] at hlease
      split at hlease
      · cases hlease
      exact hlease
    rwa [hother] at hlease
  have hnone : ∀ y, s.lease y = none → (s.giveBack w x).lease y = none := by
    intro y hy
    by_contra hsome
    obtain ⟨w', hw'⟩ := Option.ne_none_iff_exists'.1 hsome
    rw [hless y w' hw'] at hy
    cases hy
  exact h.leases (fun y hy => hnone y (h.unborn y hy).2)
    (fun y row hrow hstate => hnone y (h.settled y row hrow hstate).1)
    (knows_update (fun w' y _ hlease => h.worker w' y (hless y w' hlease)) fun _ _ => trivial)

theorem ExportsOk.claim (h : ExportsOk s) (hrow : (s.rows x).isSome = true)
    (hopen : s.finished x = false) :
    ExportsOk { s.goTo w (.start x) with lease := update s.lease x (some w) } := by
  have hother : ∀ y, y ≠ x → update s.lease x (some w) y = s.lease y :=
    fun y hy => update_of_ne hy ..
  refine h.leases (fun y hy => ?_) (fun y row hy hstate => ?_) (knows_update ?_ fun _ _ => trivial)
  · have hne : y ≠ x := by
      rintro rfl
      simp [hy] at hrow
    rw [hother y hne]
    exact (h.unborn y hy).2
  · have hne : y ≠ x := by
      rintro rfl
      have hfinished := (h.settled y row hy hstate).2
      rw [hopen] at hfinished
      cases hfinished
    rw [hother y hne]
    exact (h.settled y row hy hstate).1
  intro w' y hw hlease
  rcases update_eq_some hlease with ⟨-, hself⟩ | ⟨-, hheld⟩
  · exact absurd hself hw
  exact h.worker w' y hheld

variable {row : ExportRow}

theorem ExportsOk.setRow (h : ExportsOk s)
    (row' : ExportRow) (hx : s.rows x = some row) (hclass : row'.class = row.class)
    {finished : Nat → Bool} {workers : Nat → ExportPhase}
    (hlease : ∀ y, y ≠ x → lease y = s.lease y) (hfinished : ∀ y, y ≠ x → finished y = s.finished y)
    (hsettled : row'.state ≠ .pending → lease x = none ∧ finished x = true)
    (hobject : ∀ seen, s.objects x = some seen →
      row'.answersDone = true ∨ row'.state = .pending ∧ row'.marked = false →
      Fresh s.erasures row.class seen) (hexpires : row'.answersDone = true → ∀ e ids,
      (s.voids e).expires = some (row.class, ids) → x ∈ ids)
    (hpending : row'.state = .pending → row.state = .pending) (hworker : ∀ w y, lease y = some w →
      (workers w).Knows { s with rows := update s.rows x (some row') } y) :
    ExportsOk { s with rows := update s.rows x (some row'), lease := lease, finished := finished,
                       workers := workers } := by
  refine ⟨fun y r hr => ?_, fun y hy => ?_, fun y r hr hstate => ?_,
    fun y r seen hr hseen hkind => ?_, hworker, fun e cls ids he y r hr hcls hdone => ?_,
    fun e cls ids he y r hr hcls hstate => ?_, h.locked⟩
  · rcases update_eq_some hr with ⟨rfl, -⟩ | ⟨-, hr⟩
    · exact h.ids y row hx
    exact h.ids y r hr
  · obtain ⟨hne, hy⟩ := update_eq_none hy
    dsimp only
    rw [hlease y hne]
    exact h.unborn y hy
  · rcases update_eq_some hr with ⟨rfl, rfl⟩ | ⟨hne, hr⟩
    · exact hsettled hstate
    dsimp only
    rw [hlease y hne, hfinished y hne]
    exact h.settled y r hr hstate
  · rcases update_eq_some hr with ⟨rfl, rfl⟩ | ⟨-, hr⟩
    · rw [hclass]
      exact hobject seen hseen hkind
    exact h.object y r seen hr hseen hkind
  · rcases update_eq_some hr with ⟨rfl, rfl⟩ | ⟨-, hr⟩
    · rw [← hcls, hclass] at he
      exact hexpires hdone e ids he
    exact h.expires e cls ids he y r hr hcls hdone
  rcases update_eq_some hr with ⟨rfl, rfl⟩ | ⟨-, hr⟩
  · exact h.marks e cls ids he y row hx (hclass ▸ hcls) (hpending hstate)
  exact h.marks e cls ids he y r hr hcls hstate

/-- The object of an export changes, by the worker that has its lease. -/
theorem ExportsOk.setObject (h : ExportsOk s) {object : Option Nat} (hlease : s.lease x = some w)
    (hfresh : ∀ row seen, s.rows x = some row → row.state = .pending → row.marked = false →
      object = some seen → Fresh s.erasures row.class seen)
    (hphase : Exports.attempt phase = some x)
    (hknows : phase.Knows { s with objects := update s.objects x object } x) :
    ExportsOk { s.goTo w phase with objects := update s.objects x object } := by
  have hborn : s.rows x ≠ none := by
    intro hx
    rw [(h.unborn x hx).2] at hlease
    cases hlease
  -- an export under a lease is still pending
  have hpending : ∀ row, s.rows x = some row → row.state = .pending := by
    intro row hx
    by_contra hstate
    rw [(h.settled x row hx hstate).1] at hlease
    cases hlease
  refine ⟨h.ids, fun y hy => ?_, h.settled, fun y row seen hy hseen hkind => ?_, fun w' y hw' => ?_,
    h.expires, h.marks, h.locked⟩
  · have hne : y ≠ x := by
      rintro rfl
      exact hborn hy
    exact ⟨(update_of_ne hne ..).trans (h.unborn y hy).1, (h.unborn y hy).2⟩
  · dsimp only at hseen
    by_cases hne : y = x
    · subst hne
      rw [update_self] at hseen
      have hstate := hpending row hy
      rcases hkind with hdone | ⟨-, hmarked⟩
      · simp [ExportRow.answersDone, hstate] at hdone
      exact hfresh row seen hy hstate hmarked hseen
    rw [update_of_ne hne] at hseen
    exact h.object y row seen hy hseen hkind
  by_cases hne : y = x
  · subst hne
    obtain rfl : w' = w := Option.some.inj (hw'.symm.trans hlease)
    dsimp only
    rw [goTo_self]
    exact hknows
  have hknown : ((s.goTo w phase).workers w').Knows s y := by
    by_cases hw : w' = w
    · subst hw
      rw [goTo_self]
      refine knows_of_attempt_ne fun hattempt => hne ?_
      exact Option.some.inj (hattempt.symm.trans hphase)
    rw [goTo_of_ne s hw]
    exact h.worker w' y hw'
  exact hknown.congr (update_of_ne hne ..) rfl rfl

/-- The item is completed, the export done or failed. -/
theorem ExportsOk.finish (h : ExportsOk s) {row' : ExportRow}
    (hx : s.rows x = some row) (hclass : row'.class = row.class) (hstate : row'.state ≠ .pending)
    (hobject : ∀ seen, s.objects x = some seen → row'.answersDone = true →
      Fresh s.erasures row.class seen) (hexpires : row'.answersDone = true → ∀ e ids,
      (s.voids e).expires = some (row.class, ids) → x ∈ ids) : ExportsOk (s.finish w x row') := by
  refine h.setRow row' hx hclass (fun y hy => update_of_ne hy ..) (fun y hy => update_of_ne hy ..)
    (fun _ => ⟨update_self .., update_self ..⟩) (fun seen hseen hkind => ?_) hexpires
    (fun hpending => absurd hpending hstate) fun w' y hlease => ?_
  · rcases hkind with hdone | ⟨hpending, -⟩
    · exact hobject seen hseen hdone
    exact absurd hpending hstate
  have hne : y ≠ x := by
    rintro rfl
    rw [update_self] at hlease
    cases hlease
  rw [update_of_ne hne] at hlease
  have hknown : (update s.workers w .idle w').Knows s y :=
    knows_update (fun w' y _ => h.worker w' y) (by intro _ _; trivial) w' y hlease
  exact hknown.congr rfl (update_of_ne hne ..) rfl

/-- **The completing transaction.** An export that completes is not marked, so its object is fresh;
and no erasure of its class is under way, as one before its second update is ruled out and one after
it has locked the row. -/
theorem ExportsOk.complete (h : ExportsOk s) {failing : Bool}
    (horderly : failing = false → ∀ row e, s.lease x = some w → s.rows x = some row →
      row.state = .pending → row.marked = false → ¬ (s.voids e).between row.class)
    (hcomplete : s.complete w x failing = some s') : ExportsOk s' := by
  unfold Exports.complete at hcomplete
  split at hcomplete
  · cases hcomplete
    exact h.goTo (by intro _ _; trivial)
  rename_i hlease
  rw [not_not] at hlease
  split at hcomplete
  · cases hcomplete
  rename_i hfree
  obtain ⟨row, hx, rfl⟩ := Option.map_eq_some_iff.1 hcomplete
  split
  next hstate =>
    exact h.finish hx rfl hstate
      (fun seen hseen hdone => h.object x row seen hx hseen (.inl hdone))
      fun hdone e ids he => h.expires e _ ids he x row hx rfl hdone
  rename_i hpending
  rw [not_not] at hpending
  split
  · refine h.finish hx rfl (by simp) (fun _ _ hdone => ?_) fun hdone => ?_
    · simp [ExportRow.answersDone] at hdone
    simp [ExportRow.answersDone] at hdone
  rename_i hgood
  split
  · exact h.giveBack w x
  rename_i hmarked
  rw [Bool.not_eq_true] at hgood hmarked
  refine h.finish hx rfl (by simp) (fun seen hseen _ => ?_) fun _ e ids he => ?_
  · exact h.object x row seen hx hseen (.inr ⟨hpending, hmarked⟩)
  rcases between_or_marked he with hbetween | ⟨pending, hvoid⟩
  · exact absurd hbetween (horderly hgood row e hlease hx hpending hmarked)
  have hin : x ∈ pending := h.marks e row.class pending (hvoid ▸ rfl) x row hx rfl hpending
  have hlocked := h.locked e row.class ids pending hvoid x hin
  simp only [Exports.free, Bool.not_eq_false, all_eq_true] at hfree
  simpa using hfree _ hlocked

/-- An erasure under way moves on, and nothing else changes. -/
theorem ExportsOk.setVoid (h : ExportsOk s) {phase : VoidPhase}
    (locks : Locks Nat Nat) (hlocks : ∀ e' x, e' ≠ e → (e', x) ∈ s.locks → (e', x) ∈ locks)
    (hexpires : ∀ cls ids, phase.expires = some (cls, ids) → ∀ x row, s.rows x = some row →
      row.class = cls → row.answersDone = true → x ∈ ids)
    (hmarks : ∀ cls ids, phase.marks = some (cls, ids) → ∀ x row, s.rows x = some row →
      row.class = cls → row.state = .pending → x ∈ ids)
    (hlocked : ∀ cls ids pending, phase = .marked cls ids pending → ∀ x ∈ pending, (e, x) ∈ locks) :
    ExportsOk { s with voids := update s.voids e phase, locks := locks } := by
  have hphase := update_cases s.voids e phase
  refine ⟨h.ids, h.unborn, h.settled, h.object, h.worker, fun e' cls ids he' => ?_,
    fun e' cls ids he' => ?_, fun e' cls ids pending he' => ?_⟩
  · dsimp only at he' ⊢
    rcases hphase e' with ⟨rfl, hself⟩ | ⟨-, hother⟩
    · exact hexpires cls ids (hself ▸ he')
    exact h.expires e' cls ids (hother ▸ he')
  · dsimp only at he' ⊢
    rcases hphase e' with ⟨rfl, hself⟩ | ⟨-, hother⟩
    · exact hmarks cls ids (hself ▸ he')
    exact h.marks e' cls ids (hother ▸ he')
  dsimp only at he' ⊢
  rcases hphase e' with ⟨rfl, hself⟩ | ⟨hne, hother⟩
  · exact hlocked cls ids pending (hself.symm.trans he')
  intro x hx
  exact hlocks e' x hne (h.locked e' cls ids pending (hother.symm.trans he') x hx)

theorem mem_select (h : ExportsOk s) {p : ExportRow → Bool} (hx : s.rows x = some row)
    (hclass : row.class = cls) (hp : p row = true) : x ∈ s.select cls p := by
  simp only [Exports.select, mem_filter, Exports.rowIs, hx, Option.any_some]
  exact ⟨h.ids x row hx, by simp [hclass, hp]⟩

/-- The rows an update still matches, once it has them. -/
theorem mem_still {p : ExportRow → Bool} (hx : s.rows x = some row) (hin : x ∈ ids)
    (hp : p row = true) : x ∈ ids.filter fun x => s.rowIs x p := by
  simp [mem_filter, hin, Exports.rowIs, hx, hp]

theorem ExportsOk.release (h : ExportsOk s) (e : Nat) : ExportsOk { s with
      voids := update s.voids e .idle, locks := s.locks.release e } :=
  h.setVoid _ (fun _ _ hne hlock => Locks.mem_release.2 ⟨hlock, hne⟩)
    (by simp [VoidPhase.expires]) (by simp [VoidPhase.marks]) (by simp)

theorem voided_answersDone {r : ExportRow} {expires marks : Bool} :
    (r.voided expires marks).answersDone = true ↔ r.answersDone = true ∧ expires = false := by
  simp [ExportRow.voided, ExportRow.answersDone, and_assoc]

theorem voided_marked {r : ExportRow} {expires marks : Bool} :
    (r.voided expires marks).marked = false ↔ r.marked = false ∧ marks = false := by
  simp [ExportRow.voided]

/-- The commit of an erasure: what was finished expires and what was pending is marked, so no export
of the class that is left may be answered or completed with an older object. -/
theorem ExportsOk.commit (h : ExportsOk s) {e : Nat} {pending : List Nat}
    (hvoid : s.voids e = .marked cls ids pending) : ExportsOk { s with
      rows := fun x => (s.rows x).map (·.voided (x ∈ ids) (x ∈ pending))
      erasures := s.erasures ++ [cls]
      voids := update s.voids e .idle
      locks := s.locks.release e } := by
  have hexpires := h.expires e cls ids (hvoid ▸ rfl)
  have hmarks := h.marks e cls pending (hvoid ▸ rfl)
  -- what may still be completed is of another class
  have hopen : ∀ x row seen, s.rows x = some row → row.state = .pending →
      (row.voided (x ∈ ids) (x ∈ pending)).marked = false →
      (row.marked = false → Fresh s.erasures row.class seen) →
      Fresh (s.erasures ++ [cls]) row.class seen := by
    intro x row seen hx hstate hmarked hfresh
    rw [voided_marked, decide_eq_false_iff_not] at hmarked
    exact (hfresh hmarked.1).append fun hclass => hmarked.2 (hmarks x row hx hclass hstate)
  have hothers := h.release e
  refine ⟨fun x r hr => ?_, fun x hx => ?_, fun x r hr hstate => ?_,
    fun x r seen hr hseen hkind => ?_, fun w x hlease => ?_,
    fun e' cls' ids' he' x r hr hclass hdone => ?_,
    fun e' cls' ids' he' x r hr hclass hstate => ?_, fun e' cls' ids' pending' he' x hx => ?_⟩
  · obtain ⟨row, hrow, rfl⟩ := Option.map_eq_some_iff.1 hr
    exact h.ids x row hrow
  · exact h.unborn x (Option.map_eq_none_iff.1 hx)
  · obtain ⟨row, hrow, rfl⟩ := Option.map_eq_some_iff.1 hr
    exact h.settled x row hrow hstate
  · obtain ⟨row, hrow, rfl⟩ := Option.map_eq_some_iff.1 hr
    rcases hkind with hdone | ⟨hstate, hmarked⟩
    · rw [voided_answersDone, decide_eq_false_iff_not] at hdone
      exact (h.object x row seen hrow hseen (.inl hdone.1)).append
        fun hclass => hdone.2 (hexpires x row hrow hclass hdone.1)
    exact hopen x row seen hrow hstate hmarked fun hunmarked =>
      h.object x row seen hrow hseen (.inr ⟨hstate, hunmarked⟩)
  · have hknown := h.worker w x hlease
    dsimp only
    cases hphase : s.workers w with
    | clear y =>
      rw [hphase] at hknown
      exact hknown
    | reading y seen | put y seen =>
      rw [hphase] at hknown
      intro hy r hr hstate hmarked
      obtain ⟨row, hrow, rfl⟩ := Option.map_eq_some_iff.1 hr
      exact hopen x row seen hrow hstate hmarked (hknown hy row hrow hstate)
    | _ => trivial
  · obtain ⟨row, hrow, rfl⟩ := Option.map_eq_some_iff.1 hr
    exact hothers.expires e' cls' ids' he' x row hrow hclass (voided_answersDone.1 hdone).1
  · obtain ⟨row, hrow, rfl⟩ := Option.map_eq_some_iff.1 hr
    exact hothers.marks e' cls' ids' he' x row hrow hclass hstate
  exact hothers.locked e' cls' ids' pending' he' x hx

theorem ExportsOk.void (h : ExportsOk s)
    (hvoid : s.void e (s.voids e) = some s') : ExportsOk s' := by
  have hold := h.expires e
  have hpend := h.marks e
  cases hphase : s.voids e with
  | idle =>
    rw [hphase] at hvoid
    cases hvoid
  | expiring cls ids =>
    rw [hphase] at hvoid hold
    obtain ⟨-, ⟨⟩⟩ := Option.ite_none_right_eq_some.1 hvoid
    refine h.setVoid _ (fun _ _ _ hlock => mem_append_right _ hlock) ?_
      (by simp [VoidPhase.marks]) (by simp)
    rintro _ _ ⟨⟩ x row hx hclass hdone
    exact mem_still hx (hold cls ids rfl x row hx hclass hdone) hdone
  | expired cls ids =>
    rw [hphase] at hvoid hold
    cases hvoid
    refine h.setVoid s.locks (fun _ _ _ hlock => hlock) ?_ ?_ (by simp)
    · rintro _ _ ⟨⟩ x row hx hclass hdone
      exact hold cls ids rfl x row hx hclass hdone
    rintro _ _ ⟨⟩ x row hx hclass hstate
    exact mem_select h hx hclass (by simpa using hstate)
  | marking cls ids pending =>
    rw [hphase] at hvoid hold hpend
    obtain ⟨-, ⟨⟩⟩ := Option.ite_none_right_eq_some.1 hvoid
    refine h.setVoid _ (fun _ _ _ hlock => mem_append_right _ hlock) ?_ ?_ ?_
    · rintro _ _ ⟨⟩ x row hx hclass hdone
      exact hold cls ids rfl x row hx hclass hdone
    · rintro _ _ ⟨⟩ x row hx hclass hstate
      exact mem_still hx (hpend cls pending rfl x row hx hclass hstate) (by simpa using hstate)
    rintro _ _ _ ⟨⟩ x hx
    exact mem_append_left _ (mem_map.2 ⟨x, hx, rfl⟩)
  | marked cls ids pending =>
    rw [hphase] at hvoid
    cases hvoid
    exact h.commit hphase

/-- The mark goes: the worker that has the lease has deleted the object, and reads again. -/
theorem ExportsOk.clear (h : ExportsOk s) (hphase : s.workers w = .clear x)
    (hlease : s.lease x = some w) (hx : s.rows x = some row) : ExportsOk { s.goTo w (.read x) with
      rows := update s.rows x (some { row with marked := false }) } := by
  have hgone : s.objects x = none := by
    have hknown := h.worker w x hlease
    rw [hphase] at hknown
    exact hknown rfl
  refine h.setRow { row with marked := false } hx rfl (fun _ _ => rfl) (fun _ _ => rfl)
    (h.settled x row hx) (fun seen hseen => ?_)
    (fun hdone e ids he => h.expires e _ ids he x row hx rfl hdone) id fun w' y hw' => ?_
  · rw [hgone] at hseen
    cases hseen
  by_cases hw : w' = w
  · subst hw
    rw [goTo_self]
    trivial
  have hne : y ≠ x := by
    rintro rfl
    exact hw (Option.some.inj (hw'.symm.trans hlease))
  rw [goTo_of_ne s hw]
  exact (h.worker w' y hw').congr rfl (update_of_ne hne ..) rfl

theorem ExportsOk.lapse (h : ExportsOk s) (hx : s.rows x = some row) :
    ExportsOk { s with rows := update s.rows x (some { row with expired := true }) } := by
  refine h.setRow { row with expired := true } hx rfl (fun _ _ => rfl) (fun _ _ => rfl)
    (h.settled x row hx) (fun seen hseen hkind => ?_)
    (by simp [ExportRow.answersDone]) id fun w y hw => ?_
  · rcases hkind with hdone | hopen
    · simp [ExportRow.answersDone] at hdone
    exact h.object x row seen hx hseen (.inr hopen)
  have hknown := h.worker w y hw
  by_cases hne : y = x
  · subst hne
    cases hphase : s.workers w with
    | clear z =>
      rw [hphase] at hknown
      exact hknown
    | reading z seen | put z seen =>
      rw [hphase] at hknown
      intro hz r hr hstate hmarked
      dsimp only at hr
      rw [update_self, Option.some.injEq] at hr
      subst hr
      exact hknown hz row hx hstate hmarked
    | _ => trivial
  exact hknown.congr rfl (update_of_ne hne ..) rfl

/-- An export starts, with no object and nobody at work on it. -/
theorem ExportsOk.start (h : ExportsOk s) (hnew : s.rows x = none)
    (horderly : ∀ e ids, (s.voids e).marks ≠ some (cls, ids)) : ExportsOk { s with
      ids := x :: s.ids
      rows := update s.rows x (some { «class» := cls })
      finished := update s.finished x false } := by
  obtain ⟨hobject, hlease⟩ := h.unborn x hnew
  refine ⟨fun y r hr => ?_, fun y hy => ?_, fun y r hr hstate => ?_,
    fun y r seen hr hseen hkind => ?_, fun w y hw => ?_,
    fun e cls' ids he y r hr hclass hdone => ?_,
    fun e cls' ids he y r hr hclass hstate => ?_, h.locked⟩
  · rcases update_eq_some hr with ⟨rfl, -⟩ | ⟨-, hr⟩
    · exact mem_cons_self
    exact mem_cons_of_mem _ (h.ids y r hr)
  · exact h.unborn y (update_eq_none hy).2
  · rcases update_eq_some hr with ⟨rfl, rfl⟩ | ⟨hne, hr⟩
    · exact absurd rfl hstate
    exact ⟨(h.settled y r hr hstate).1, (update_of_ne hne ..).trans (h.settled y r hr hstate).2⟩
  · rcases update_eq_some hr with ⟨rfl, rfl⟩ | ⟨-, hr⟩
    · rw [hobject] at hseen
      cases hseen
    exact h.object y r seen hr hseen hkind
  · have hne : y ≠ x := by
      rintro rfl
      rw [hlease] at hw
      cases hw
    exact (h.worker w y hw).congr rfl (update_of_ne hne ..) rfl
  · rcases update_eq_some hr with ⟨rfl, rfl⟩ | ⟨-, hr⟩
    · simp [ExportRow.answersDone] at hdone
    exact h.expires e cls' ids he y r hr hclass hdone
  rcases update_eq_some hr with ⟨rfl, rfl⟩ | ⟨-, hr⟩
  · subst hclass
    exact absurd he (horderly e ids)
  exact h.marks e cls' ids he y r hr hclass hstate

theorem ExportsOk.next (h : ExportsOk s) (horderly : Orderly s (.next w))
    (hnext : s.next w (s.workers w) = some s') : ExportsOk s' := by
  simp only [Orderly] at horderly
  cases hphase : s.workers w with
  | idle =>
    rw [hphase] at hnext
    cases hnext
  | start x | look x =>
    rw [hphase] at hnext
    cases hnext
    refine h.goTo fun y _ => ?_
    split <;> trivial
  | delete x =>
    rw [hphase] at hnext horderly
    cases hnext
    exact h.setObject horderly (by simp) rfl fun _ => update_self ..
  | clear x =>
    rw [hphase] at hnext horderly
    obtain ⟨-, ⟨⟩⟩ := Option.ite_none_right_eq_some.1 hnext
    cases hx : s.rows x with
    | none =>
      have hlease : s.lease x = some w := horderly
      rw [(h.unborn x hx).2] at hlease
      cases hlease
    | some row => exact h.clear hphase horderly hx
  | read x =>
    rw [hphase] at hnext
    cases hnext
    exact h.goTo fun y _ _ row _ _ _ => fresh_now _ _
  | reading x seen =>
    rw [hphase] at hnext
    cases hnext
    refine h.goTo fun y hlease => ?_
    have hknown := h.worker w y hlease
    rw [hphase] at hknown
    exact hknown
  | put x seen =>
    rw [hphase] at hnext horderly
    cases hnext
    have hknown := h.worker w x horderly
    rw [hphase] at hknown
    refine h.setObject horderly (fun row n hx hstate hmarked hn => ?_) rfl trivial
    cases hobject : s.objects x with
    | none =>
      rw [hobject] at hn
      cases hn
      exact hknown rfl row hx hstate hmarked
    | some old =>
      rw [hobject] at hn
      cases hn
      exact h.object x row n hx hobject (.inr ⟨hstate, hmarked⟩)
  | complete x failing =>
    rw [hphase] at hnext horderly
    refine h.complete (fun hgood => ?_) hnext
    subst hgood
    exact horderly

theorem exportStep_ok {a : ExportAction} (h : ExportsOk s) (horderly : Orderly s a)
    (hstep : exportStep s a = some s') : ExportsOk s' := by
  cases a with
  | start x cls =>
    obtain ⟨hnew, ⟨⟩⟩ := Option.ite_none_right_eq_some.1 hstep
    exact h.start hnew horderly
  | claim w x =>
    obtain ⟨⟨-, hrow, hopen⟩, ⟨⟩⟩ := Option.ite_none_right_eq_some.1 hstep
    exact h.claim hrow hopen
  | next w => exact h.next horderly hstep
  | giveUp w =>
    obtain ⟨x, -, rfl⟩ := Option.map_eq_some_iff.1 hstep
    exact h.goTo (by intro _ _; trivial)
  | fail w =>
    obtain ⟨x, -, rfl⟩ := Option.map_eq_some_iff.1 hstep
    exact h.giveBack w x
  | crash w =>
    cases hstep
    exact h.goTo (by intro _ _; trivial)
  | lapse x =>
    obtain ⟨row, hx, rfl⟩ := Option.map_eq_some_iff.1 hstep
    exact h.lapse hx
  | erase e cls =>
    obtain ⟨-, ⟨⟩⟩ := Option.ite_none_right_eq_some.1 hstep
    refine h.setVoid s.locks (fun _ _ _ hlock => hlock) ?_ (by simp [VoidPhase.marks]) (by simp)
    rintro _ _ ⟨⟩ x row hx hclass hdone
    exact mem_select h hx hclass hdone
  | void e => exact h.void hstep
  | rollback e =>
    cases hstep
    exact h.release e

theorem exportsOk_init : ExportsOk .init where
  ids := by simp [Exports.init]
  unborn := fun _ _ => ⟨rfl, rfl⟩
  settled := by simp [Exports.init]
  object := by simp [Exports.init]
  worker := by simp [Exports.init]
  expires := by simp [Exports.init, VoidPhase.expires]
  marks := by simp [Exports.init, VoidPhase.marks]
  locked := by simp [Exports.init]

/-- **What is done was read after every erasure.** In every run in which a worker that lost its
lease does nothing more, no export of a class completes between the two updates of an erasure of
the class, and none starts between the second one and the commit: an export that is answered as
done has no object that was read before an erasure of its class. -/
theorem done_exports_are_fresh (acts : List ExportAction) (s : Exports)
    (hmeets : Meets exportStep Orderly .init acts) (hrun : run exportStep .init acts = some s)
    (x : Nat) (row : ExportRow) (seen : Nat) (hx : s.rows x = some row)
    (hdone : row.answersDone = true) (hobject : s.objects x = some seen) :
    Fresh s.erasures row.class seen := by
  have hok : ExportsOk s := run_invariant (fun _ _ _ h => exportStep_ok h) exportsOk_init hmeets
    hrun
  exact hok.object x row seen hx hobject (.inl hdone)

/-- One worker reads and writes the export; its completion commits after the erasure has let the
finished exports expire and before it marks the pending ones. -/
theorem done_between_the_updates :
    ∃ s row, run exportStep .init
      [.start 0 "orders", .claim 1 0, .next 1, .next 1, .next 1, .next 1, .next 1,
        .erase 7 "orders", .void 7, .next 1, .void 7, .void 7, .void 7] = some s ∧
      s.rows 0 = some row ∧ row.answersDone = true ∧ s.objects 0 = some 0 ∧
      ¬ Fresh s.erasures row.class 0 :=
  ⟨_, _, rfl, rfl, rfl, rfl, fun hfresh => hfresh (.head _)⟩

/-- An attempt writes the object and is gone; an erasure marks the export, and the next attempt
deletes the object, reads again and completes. -/
theorem marked_export_is_read_again :
    ∃ s row seen, run exportStep .init
      [.start 0 "orders", .claim 1 0, .next 1, .next 1, .next 1, .next 1, .next 1, .crash 1,
        .erase 7 "orders", .void 7, .void 7, .void 7, .void 7, .claim 2 0, .next 2, .next 2,
        .next 2, .next 2, .next 2, .next 2, .next 2, .next 2] = some s ∧
      s.rows 0 = some row ∧ row.answersDone = true ∧ s.objects 0 = some seen ∧
      s.erasures = ["orders"] ∧ Fresh s.erasures row.class seen := by
  refine ⟨?s, ?row, ?seen, ?hrun, ?hx, ?hdone, ?hobject, ?herasures,
    done_exports_are_fresh _ ?s ?hmeets ?hrun 0 ?row ?seen ?hx ?hdone ?hobject⟩
  case hrun | hx | hdone | hobject | herasures => rfl
  refine .cons (fun _ _ => by simp [Exports.init, VoidPhase.marks]) rfl ?_
  iterate 5 refine .cons trivial rfl ?_
  refine .cons rfl rfl ?_
  iterate 9 refine .cons trivial rfl ?_
  iterate 2 refine .cons rfl rfl ?_
  iterate 2 refine .cons trivial rfl ?_
  refine .cons rfl rfl (.cons ?_ rfl trivial)
  -- the erasure has ended when the export completes
  intro row e _ _ _ _ hbetween
  by_cases he : e = 7
  · subst he
    exact hbetween
  simp [Exports.goTo, update, Exports.init, VoidPhase.between] at hbetween

end BeSdk.Tiering

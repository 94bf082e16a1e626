import Mathlib.Data.List.AList
import BeSdk.Projection.Decide

/-!
# The rows of a projection

A projection keeps one row for each record of another component: the record's version at the source,
a state, the instance and epoch it was read from, and marks an alignment leaves on it. Rows are
written on two ways, which follow different rules:

* `receive`, the core of `Projection.Apply`, takes one input of the stream through the state table
  `decideRow`. It compares versions, and it marks what it writes with the alignment in progress.
* `put`, the writer of an alignment, overwrites without comparing versions, except a row that
  already carries its own generation.

Everything later proofs need to know about the two is in `receive_none`, `receive_some` and
`put_cases`: what the row is afterwards, and, when nothing is written, why the old row stands. The
table itself is only unfolded here.

The content of a record is any type `J` with an empty value and the merge of two values, as the
`jsonb` column has them.
-/

namespace BeSdk.Projection

open Option

/-! ## The state table for one row -/

inductive RowState where
  | complete
  | incomplete
  | tombstone
deriving DecidableEq, Repr

/-- Kinds of input. `purged` is a read by ID that answers "purged". -/
inductive Kind where
  | full
  | partialFields
  | delete
  | purged
deriving DecidableEq, Repr

inductive RowAction where
  | write
  | overwrite
  | mergeAndFetch
  | writeAndFetch
  | ignore
deriving DecidableEq, Repr

structure Row where
  state : RowState
  version : Int
  -- Incomplete rows: the version a fetch has to reach.
  needVersion : Int := 0
  -- It belongs to an older epoch or implementation instance than the adopted one.
  old : Bool := false
deriving DecidableEq, Repr

/-- The row an input makes where no row of its instance and epoch stands against it; a full input
and a deletion do so under the action of the case at hand. -/
def fresh (kind : Kind) (v : Int) (onFull onDelete : RowAction) : Row × RowAction :=
  match kind with
  | .full => ({ state := .complete, version := v }, onFull)
  | .partialFields => ({ state := .incomplete, version := v, needVersion := v }, .writeAndFetch)
  | _ => ({ state := .tombstone, version := v }, onDelete)

/-- Decide is the state table for one row. -/
def decideRow (cur : Option Row) (kind : Kind) (v : Int) : Row × RowAction :=
  if kind = .purged then ({ state := .tombstone, version := 0 }, .write)
  else match cur with
    | none => fresh kind v .write .write
    | some cur =>
      if cur.old then fresh kind v .overwrite .overwrite
      else if cur.state = .tombstone ∧ v ≤ cur.version then
        -- a tombstone is never revived by the same or an older version
        ({ cur with old := false }, .ignore)
      else if cur.state = .tombstone then fresh kind v .overwrite .write
      else if kind = .full ∧ cur.state = .complete ∧ cur.version < v ∨
          kind = .full ∧ cur.state = .incomplete ∧ cur.needVersion ≤ v then
        ({ state := .complete, version := v }, .overwrite)
      else if kind = .partialFields ∧ cur.version < v then
        ({ state := .incomplete, version := v, needVersion := v }, .mergeAndFetch)
      else if kind = .delete ∧ cur.version ≤ v then
        ({ state := .tombstone, version := v }, .write)
      else ({ cur with old := false }, .ignore)

/-- The state of a row that an input of this kind was written to. -/
def Kind.state : Kind → RowState
  | .full => .complete
  | .partialFields => .incomplete
  | .delete => .tombstone
  | .purged => .tombstone

/-- The input is written: the row takes its version and state, and an incomplete row needs no more
than that version. -/
structure Taken (kind : Kind) (v : Int) (out : Row × RowAction) : Prop where
  written : out.2 ≠ .ignore
  version : out.1.version = v
  state : out.1.state = kind.state
  need : out.1.state = .incomplete → out.1.needVersion = v

theorem fresh_taken {onFull onDelete : RowAction} (kind : Kind) (v : Int) (hfull : onFull ≠ .ignore)
    (hdelete : onDelete ≠ .ignore) : Taken kind v (fresh kind v onFull onDelete) := by
  constructor <;> cases kind <;> simp [fresh, Kind.state, hfull, hdelete]

/-- What the table does with an input on a row whose needed version, when it has one, is its own: it
ignores the input at or below the version of a current row, else the row takes the input's version
and no current row had a later one. -/
theorem decideRow_cases {cur : Option Row} {kind : Kind} {v : Int} (hkind : kind ≠ .purged)
    (hneed : ∀ r, cur = some r → r.state = .incomplete → r.needVersion = r.version) :
    ((decideRow cur kind v).2 = .ignore ∧ ∃ r, cur = some r ∧ r.old = false ∧ v ≤ r.version) ∨
      (Taken kind v (decideRow cur kind v) ∧
        ∀ r, cur = some r → r.old = false → r.version ≤ v) := by
  cases cur with
  | none =>
    have hrow : decideRow none kind v = fresh kind v .write .write := by simp [decideRow, hkind]
    rw [hrow]
    exact .inr ⟨fresh_taken kind v (by simp) (by simp), by simp⟩
  | some r =>
    have hneed := hneed r rfl
    by_cases hold : r.old = true
    · have hrow : decideRow (some r) kind v = fresh kind v .overwrite .overwrite := by
        simp [decideRow, hkind, hold]
      rw [hrow]
      exact .inr ⟨fresh_taken kind v (by simp) (by simp), by simp [hold]⟩
    unfold decideRow
    rw [if_neg hkind]
    simp only [hold]
    by_cases hdead : r.state = .tombstone ∧ v ≤ r.version
    · rw [if_neg (by simp), if_pos hdead]
      exact .inl ⟨rfl, r, rfl, by simpa using hold, hdead.2⟩
    rw [if_neg (by simp), if_neg hdead]
    by_cases htombstone : r.state = .tombstone
    · rw [if_pos htombstone]
      have hlt : r.version < v := by simpa [htombstone] using hdead
      exact .inr ⟨fresh_taken kind v (by simp) (by simp), by simp [hlt.le]⟩
    rw [if_neg htombstone]
    by_cases hfull : kind = .full ∧ r.state = .complete ∧ r.version < v ∨
        kind = .full ∧ r.state = .incomplete ∧ r.needVersion ≤ v
    · rw [if_pos hfull]
      have hle : r.version ≤ v := by
        rcases hfull with ⟨_, _, hlt⟩ | ⟨_, hincomplete, hle⟩
        · exact hlt.le
        rwa [hneed hincomplete] at hle
      have hkind : kind = .full := hfull.elim And.left And.left
      exact .inr ⟨⟨by simp, rfl, by rw [hkind, Kind.state], by simp⟩, by simp [hle]⟩
    rw [if_neg hfull]
    by_cases hmerge : kind = .partialFields ∧ r.version < v
    · rw [if_pos hmerge]
      exact .inr ⟨⟨by simp, rfl, by rw [hmerge.1, Kind.state], by simp⟩, by simp [hmerge.2.le]⟩
    rw [if_neg hmerge]
    by_cases hdelete : kind = .delete ∧ r.version ≤ v
    · rw [if_pos hdelete]
      exact .inr ⟨⟨by simp, rfl, by rw [hdelete.1, Kind.state], by simp⟩, by simp [hdelete.2]⟩
    rw [if_neg hdelete]
    refine .inl ⟨rfl, r, rfl, by simpa using hold, ?_⟩
    -- no row of the table matched, so the version is at or below the row's for every kind
    cases kind with
    | full =>
      cases hstate : r.state with
      | complete => simpa [hstate] using hfull
      | incomplete =>
        have hlt : v < r.needVersion := by simpa [hstate] using hfull
        rw [hneed hstate] at hlt
        exact hlt.le
      | tombstone => exact absurd hstate htombstone
    | partialFields => simpa using hmerge
    | delete => simpa using (not_le.mp fun hle => hdelete ⟨rfl, hle⟩).le
    | purged => exact absurd rfl hkind

/-! ## Stored rows and inputs -/

/-- A missing instance or epoch is the empty text. -/
structure Stored (J : Type) where
  version : Int
  state : RowState
  needVersion : Option Int
  impl : String
  epoch : String
  data : Option J
  -- The generation of the alignment that wrote it, or during which the stream did.
  alignedGen : Option Nat
  -- A purged record's tombstone takes only inputs past this position.
  minReadSeq : Option Nat
deriving DecidableEq, Repr

abbrev Rows (J : Type) := AList fun _ : String => Stored J

/-- One received event or read result for a projection. `seq` is its position in its partition, 0
when it has none. -/
structure Input (J : Type) where
  recordID : String
  kind : Kind
  version : Int
  impl : String
  epoch : String
  data : J
  seq : Nat
deriving DecidableEq, Repr

/-- What the projection's source row says of an input's surroundings. -/
structure SourceRow where
  impl : String
  epoch : String
  alignGen : Nat
  status : Status
deriving DecidableEq, Repr

/-- `duringAlignment`: the mark of a row received while its source aligns. -/
def SourceRow.mark (src : SourceRow) : Option Nat :=
  if src.status = .aligning then some src.alignGen else none

section Rows
variable {J : Type}

def Stored.row (r : Stored J) (i : Input J) : Row where
  state := r.state
  version := r.version
  needVersion := r.needVersion.getD 0
  old := r.impl ≠ i.impl ∨ r.epoch ≠ i.epoch

/-- A purged record's tombstone takes only inputs read past it. -/
def Stored.shields (r : Stored J) (seq : Nat) : Bool :=
  r.state = .tombstone ∧ 0 < seq ∧ r.minReadSeq.any (seq ≤ ·)

/-- An incomplete row waits for its own version. Every row that `receive` or `put` stores is so. -/
def Stored.WellFormed (r : Stored J) : Prop :=
  r.state = .incomplete → r.needVersion = some r.version

/-- The row holds a stream input: its version and state, its instance and epoch, and no alignment's
bound. -/
structure Stored.Holds (r : Stored J) (i : Input J) : Prop where
  version : r.version = i.version
  state : r.state = i.kind.state
  impl : r.impl = i.impl
  epoch : r.epoch = i.epoch
  minReadSeq : r.minReadSeq = none

def Stored.SameSource (r : Stored J) (i : Input J) : Prop := r.impl = i.impl ∧ r.epoch = i.epoch

variable {i : Input J}

theorem Stored.row_old {r : Stored J} : (r.row i).old = false ↔ r.SameSource i := by
  simp [Stored.row, Stored.SameSource]

variable {stored : Option (Stored J)}

theorem Stored.WellFormed.row_need
    (hwf : ∀ r, stored = some r → r.WellFormed) (r : Row) (hr : stored.map (·.row i) = some r)
    (hincomplete : r.state = .incomplete) : r.needVersion = r.version := by
  obtain ⟨old, hold, rfl⟩ := map_eq_some_iff.mp hr
  have hneed : old.needVersion = some old.version := hwf old hold hincomplete
  simp [Stored.row, hneed]

variable [EmptyCollection J] [Append J]

/-- The row `Projection.write` stores for an input. -/
def write (mark : Option Nat) (stored : Option (Stored J)) (i : Input J)
    (out : Row × RowAction) : Stored J where
  version := out.1.version
  state := out.1.state
  needVersion := if out.1.state = .incomplete then some out.1.needVersion else none
  impl := i.impl
  epoch := i.epoch
  data :=
    if out.2 = .mergeAndFetch then some ((stored.bind (·.data)).getD ∅ ++ i.data)
    else if out.1.state = .complete ∨ out.1.state = .incomplete ∧ stored.isNone then some i.data
    else none
  alignedGen := mark
  minReadSeq := none

/-- `Projection.Apply` from the row on: what is stored for the input, or nothing when it is
ignored. -/
def receive (mark : Option Nat) (stored : Option (Stored J)) (i : Input J) : Option (Stored J) :=
  if stored.any (·.shields i.seq) then none
  else
    let out := decideRow (stored.map (·.row i)) i.kind i.version
    if out.2 = .ignore then none else some (write mark stored i out)

/-- An input that is not stored was shielded by a purged record's tombstone, or the row is current
and at least as new. -/
theorem receive_none {mark : Option Nat} (hkind : i.kind ≠ .purged)
    (hwf : ∀ r, stored = some r → r.WellFormed) (hnone : receive mark stored i = none) :
    ∃ r, stored = some r ∧ (r.shields i.seq = true ∨ r.SameSource i ∧ i.version ≤ r.version) := by
  by_cases hshield : stored.any (·.shields i.seq) = true
  · obtain ⟨r, hr, hshields⟩ := (any_eq_true _ _).mp hshield
    exact ⟨r, hr, .inl hshields⟩
  rcases decideRow_cases (v := i.version) hkind (Stored.WellFormed.row_need (i := i) hwf) with
    ⟨_, r, hr, hcurrent, hle⟩ | ⟨htaken, _⟩
  · obtain ⟨old, hold, rfl⟩ := map_eq_some_iff.mp hr
    exact ⟨old, hold, .inr ⟨Stored.row_old.mp hcurrent, hle⟩⟩
  simp [receive, hshield, htaken.written] at hnone

/-- A stored input takes the row to its own version, instance and epoch, and no current row was
newer. -/
theorem receive_some {mark : Option Nat} {r : Stored J}
    (hkind : i.kind ≠ .purged) (hwf : ∀ old, stored = some old → old.WellFormed)
    (hsome : receive mark stored i = some r) : r.Holds i ∧ r.alignedGen = mark ∧ r.WellFormed ∧
      ∀ old, stored = some old → old.SameSource i → old.version ≤ i.version := by
  unfold receive at hsome
  by_cases hshield : stored.any (·.shields i.seq) = true
  · simp [hshield] at hsome
  rcases decideRow_cases (v := i.version) hkind (Stored.WellFormed.row_need (i := i) hwf) with
    ⟨hignore, _⟩ | ⟨htaken, hnewer⟩
  · simp [hshield, hignore] at hsome
  have hr : r = write mark stored i (decideRow (stored.map (·.row i)) i.kind i.version) := by
    simpa [hshield, htaken.written] using hsome.symm
  subst hr
  refine ⟨⟨htaken.version, htaken.state, rfl, rfl, rfl⟩, rfl, ?_, ?_⟩
  · intro hincomplete
    simp only [write] at hincomplete ⊢
    rw [if_pos hincomplete, htaken.need hincomplete, htaken.version]
  intro old hold hsame
  exact hnewer (old.row i) (by rw [hold, map_some]) (Stored.row_old.mpr hsame)

/-! ## Apply -/

inductive Skipped where
  | otherInstance
  | olderEpoch
  | newerEpoch
deriving DecidableEq, Repr

structure Outcome where
  fetch : Bool := false
  changed : Bool := false
  skipped : Option Skipped := none
deriving DecidableEq, Repr

omit [EmptyCollection J] [Append J] in
/-- The receiving rules before the state table: why an input is not applied, or the error of an
epoch that cannot be read. Before the projection has aligned once every input is applied. -/
def SourceRow.skips (src : SourceRow) (i : Input J) : Option (Option Skipped) :=
  if src.impl = "" then some none
  else if i.impl ≠ src.impl then some (some .otherInstance)
  else match compareEpochs i.epoch src.epoch with
    | none => none
    | some .lt => some (some .olderEpoch)
    | some .gt => some (some .newerEpoch)
    | some .eq => some none

/-- Apply receives one input inside the consumer's transaction. An input of another instance blocks
the source. -/
def apply (src : SourceRow) (rows : Rows J) (i : Input J) : Option (SourceRow × Rows J × Outcome) :=
  match src.skips i with
  | none => none
  | some (some .otherInstance) =>
    some ({ src with status := .blocked }, rows, { skipped := some .otherInstance })
  | some (some why) => some (src, rows, { skipped := some why })
  | some none =>
    match receive src.mark (rows.lookup i.recordID) i with
    | none => some (src, rows, {})
    | some r =>
      some (src, rows.insert i.recordID r, { fetch := r.state = .incomplete, changed := true })

end Rows

/-! ## What an alignment writes -/

/-- One row of a snapshot page or of a read by ID, as an alignment writes it. -/
structure Answer (J : Type) where
  id : String
  state : RowState
  version : Int
  data : Option J
  minReadSeq : Option Nat
deriving DecidableEq, Repr

section Put
variable {J : Type}

/-- The row an alignment of generation `gen` stores for an answer. -/
def Answer.stored (a : Answer J) (gen : Nat) (impl epoch : String) : Stored J where
  version := a.version
  state := a.state
  needVersion := none
  impl := impl
  epoch := epoch
  data := a.data
  alignedGen := some gen
  minReadSeq := a.minReadSeq

/-- `put` of `alignTo` overwrites without comparing versions, except rows written during this
alignment: those only by a newer one. -/
def put (gen : Nat) (impl epoch : String) (rows : Rows J) (a : Answer J) : Rows J :=
  match rows.lookup a.id with
  | none => rows.insert a.id (a.stored gen impl epoch)
  | some r =>
    if r.alignedGen ≠ some gen ∨ r.version < a.version then
      rows.insert a.id (a.stored gen impl epoch)
    else rows

/-- After a put the record's row is the answer's, or the old one, which this alignment had marked
and which is at least as new; every other row is as before. -/
theorem put_cases (gen : Nat) (impl epoch : String) (rows : Rows J) (a : Answer J) :
    (put gen impl epoch rows a = rows.insert a.id (a.stored gen impl epoch)) ∨
      (put gen impl epoch rows a = rows ∧
        ∃ r, rows.lookup a.id = some r ∧ r.alignedGen = some gen ∧ a.version ≤ r.version) := by
  unfold put
  cases hrow : rows.lookup a.id with
  | none => exact .inl rfl
  | some r =>
    by_cases hover : r.alignedGen ≠ some gen ∨ r.version < a.version
    · exact .inl (by simp only [hover, if_true])
    refine .inr ⟨by simp only [hover, if_false], r, rfl, ?_⟩
    push Not at hover
    exact hover

end Put
end BeSdk.Projection

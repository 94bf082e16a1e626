import BeSdk.Library.Runs
import BeSdk.Projection.Rows
import Mathlib.Data.List.Induction

/-!
# The latest input of a record

Inputs of one record may arrive in any order and more than once.  The state table orders them by
version and, at one version, a deletion over a full input over a partial one (`Input.key`): an input
is ignored exactly when the row already stands at or above it (`decideRow_ignores_iff`).  So a row
that starts with nothing holds the greatest input it has received (`Latest`), whatever came first.
-/

namespace BeSdk.Projection

open Runs List

/-- The states at one version, the later one over the earlier. -/
def RowState.rank : RowState → Nat
  | .incomplete => 0
  | .complete => 1
  | .tombstone => 2

variable {s s' : RowState}

theorem RowState.rank_inj (h : s.rank = s'.rank) : s = s' := by
  cases s <;> cases s' <;> first | rfl | cases h

/-- The place of a version and a state in the order of inputs. -/
def place (v : Int) (s : RowState) : Int ×ₗ Nat := toLex (v, s.rank)

theorem place_le_iff {v v' : Int} : place v s ≤ place v' s' ↔ v < v' ∨ v = v' ∧ s.rank ≤ s'.rank :=
  Prod.Lex.toLex_le_toLex

theorem place_inj {v v' : Int} (h : place v s = place v' s') : v = v' ∧ s = s' := by
  have h' : (v, s.rank) = (v', s'.rank) := h
  exact ⟨congrArg Prod.fst h', RowState.rank_inj (congrArg Prod.snd h')⟩

variable {r : Row} {kind : Kind} {v : Int}

/-- The table ignores an input exactly when it is at or below the row. -/
theorem decideRow_ignores_iff (hkind : kind ≠ .purged) (hold : r.old = false)
    (hneed : r.state = .incomplete → r.needVersion = r.version) :
    (decideRow (some r) kind v).2 = .ignore ↔ place v kind.state ≤ place r.version r.state := by
  rw [place_le_iff]
  unfold decideRow
  rw [if_neg hkind]
  simp only [hold]
  cases hstate : r.state with
  | complete =>
    cases kind with
    | purged => exact absurd rfl hkind
    | _ =>
      simp [RowState.rank, Kind.state]
      split <;> simp <;> omega
  | incomplete =>
    rw [hneed hstate]
    cases kind with
    | purged => exact absurd rfl hkind
    | _ =>
      simp [RowState.rank, Kind.state]
      split <;> simp <;> omega
  | tombstone =>
    cases kind with
    | purged => exact absurd rfl hkind
    | _ =>
      simp [RowState.rank, Kind.state, fresh]
      split <;> simp <;> omega

theorem state_of_merge {cur : Option Row} (h : (decideRow cur kind v).2 = .mergeAndFetch) :
    (decideRow cur kind v).1.state = .incomplete := by
  have hfresh : ∀ {onFull onDelete : RowAction}, onDelete ≠ .mergeAndFetch →
      onFull ≠ .mergeAndFetch → (fresh kind v onFull onDelete).2 ≠ .mergeAndFetch := by
    intro onFull onDelete hdelete hfull
    cases kind <;> simp [fresh, hdelete, hfull]
  unfold decideRow at h ⊢
  split at h
  · cases h
  split at h
  · exact absurd h (hfresh (by simp) (by simp))
  split_ifs at h ⊢
  all_goals first
    | rfl
    | cases h
    | exact absurd h (hfresh (by simp) (by simp))

section Apply
variable {J : Type} {mark : Option Nat} {stored : Option (Stored J)}
  {i g : Input J} {row row' : Stored J}

/-- The place of an input in the order of the record's inputs. -/
def Input.place (i : Input J) : Int ×ₗ Nat := Projection.place i.version i.kind.state

theorem full_of_state (hkind : i.kind ≠ .purged) (h : i.kind.state = .complete) :
    i.kind = .full := by
  cases hi : i.kind <;> rw [hi] at h hkind <;> simp_all [Kind.state]

structure Latest (seen : List (Input J)) (row : Stored J) : Prop where
  greatest : ∃ g ∈ seen, (∀ i ∈ seen, i.place ≤ g.place) ∧ row.Holds g
  need : row.needVersion = if row.state = .incomplete then some row.version else none
  data : row.state = .complete → ∃ i ∈ seen, i.kind = .full ∧ i.version = row.version ∧
    row.data = some i.data

variable {seen : List (Input J)}

theorem Latest.wellFormed (h : Latest seen row) : row.WellFormed := by
  intro hincomplete
  rw [h.need, if_pos hincomplete]

/-- An input at or below the greatest changes nothing. -/
theorem Latest.append_le (h : Latest seen row)
    (hle : ∀ g ∈ seen, (∀ i ∈ seen, i.place ≤ g.place) → row.Holds g → i.place ≤ g.place) :
    Latest (seen ++ [i]) row where
  greatest := by
    obtain ⟨g, hg, hgreatest, hholds⟩ := h.greatest
    refine ⟨g, mem_append_left _ hg, ?_, hholds⟩
    rw [forall_mem_append, forall_mem_singleton]
    exact ⟨hgreatest, hle g hg hgreatest hholds⟩
  need := h.need
  data := fun hstate => by
    obtain ⟨j, hj, hfull⟩ := h.data hstate
    exact ⟨j, mem_append_left _ hj, hfull⟩

/-- What the inputs of a record have in common. -/
structure Input.Of (id impl epoch : String) (i : Input J) : Prop where
  record : i.recordID = id
  kind : i.kind ≠ .purged
  impl : i.impl = impl
  epoch : i.epoch = epoch

variable {src : SourceRow} {rows : Rows J} {id impl epoch : String}

/-- The inputs' instance and epoch are the adopted ones, or none are adopted yet. -/
def SourceRow.Takes (src : SourceRow) (impl epoch : String) : Prop :=
  src.impl = "" ∨ src.impl = impl ∧ src.epoch = epoch ∧ (parseEpoch epoch).isSome

theorem skips_eq_none (hsrc : src.Takes impl epoch) (hi : i.Of id impl epoch) :
    src.skips i = some none := by
  unfold SourceRow.skips
  rcases hsrc with hnone | ⟨rfl, rfl, hepoch⟩
  · rw [if_pos hnone]
  split
  · rfl
  rw [if_neg (not_not.2 hi.impl), hi.epoch, compareEpochs_self hepoch]

theorem Latest.agree {seen' : List (Input J)} (h : Latest seen row) (h' : Latest seen' row')
    (hmem : ∀ i, i ∈ seen' ↔ i ∈ seen) :
    row'.version = row.version ∧ row'.state = row.state ∧ row'.needVersion = row.needVersion := by
  obtain ⟨g, hg, hgreatest, hholds⟩ := h.greatest
  obtain ⟨g', hg', hgreatest', hholds'⟩ := h'.greatest
  have hplace : g'.place = g.place :=
    le_antisymm (hgreatest g' ((hmem g').1 hg')) (hgreatest' g ((hmem g).2 hg))
  obtain ⟨hversion, hstate⟩ := place_inj hplace
  have hversion' : row'.version = row.version := by rw [hholds.version, hholds'.version, hversion]
  have hstate' : row'.state = row.state := by rw [hholds.state, hholds'.state, hstate]
  refine ⟨hversion', hstate', ?_⟩
  rw [h.need, h'.need, hversion', hstate']

variable [EmptyCollection J] [Append J]

/-- A complete row has the data of the input that made it. -/
theorem data_of_receive (h : receive mark stored i = some row) (hstate : row.state = .complete) :
    row.data = some i.data := by
  unfold receive at h
  split at h
  · cases h
  simp only at h
  split at h <;> cases h
  have hmerge : (decideRow (stored.map (·.row i)) i.kind i.version).2 ≠ .mergeAndFetch := by
    intro hmerge
    have hincomplete := state_of_merge hmerge
    have hcomplete : (decideRow (stored.map (·.row i)) i.kind i.version).1.state =
        .complete := hstate
    rw [hincomplete] at hcomplete
    cases hcomplete
  simp only [write] at hstate ⊢
  rw [if_neg hmerge, if_pos (.inl hstate)]

section
variable (hkind : i.kind ≠ .purged)
include hkind

/-- A row that a stream wrote ignores an input exactly when it is at or below the row's own. -/
theorem receive_eq_none_iff (hholds : row.Holds g) (hwf : row.WellFormed) (himpl : g.impl = i.impl)
    (hepoch : g.epoch = i.epoch) : receive mark (some row) i = none ↔ i.place ≤ g.place := by
  have hshield : (some row).any (·.shields i.seq) = false := by
    simp [Stored.shields, hholds.minReadSeq]
  have hsame : row.SameSource i := ⟨hholds.impl.trans himpl, hholds.epoch.trans hepoch⟩
  have hneed : (row.row i).state = .incomplete → (row.row i).needVersion = (row.row i).version := by
    intro hincomplete
    have hrow : row.needVersion = some row.version := hwf hincomplete
    simp [Stored.row, hrow]
  have hplace : Projection.place (row.row i).version (row.row i).state = g.place := by
    simp only [Stored.row, hholds.version, hholds.state, Input.place]
  rw [Input.place, ← hplace, ← decideRow_ignores_iff hkind (Stored.row_old.2 hsame) hneed, receive,
    hshield]
  simp

section
variable (hwf : ∀ old, stored = some old → old.WellFormed) (h : receive mark stored i = some row)
include hwf h

theorem needVersion_of_receive :
    row.needVersion = if row.state = .incomplete then some row.version else none := by
  obtain ⟨-, -, hwf', -⟩ := receive_some hkind hwf h
  split
  · next hincomplete => exact hwf' hincomplete
  rename_i hnot
  unfold receive at h
  split at h
  · cases h
  simp only at h
  split at h <;> cases h
  exact if_neg hnot

theorem latest_of_receive (hseen : ∀ i' ∈ seen, i'.place ≤ i.place) : Latest (seen ++ [i]) row := by
  obtain ⟨hholds, -⟩ := receive_some hkind hwf h
  refine ⟨⟨i, by simp, ?_, hholds⟩, needVersion_of_receive hkind hwf h, ?_⟩
  · rw [forall_mem_append, forall_mem_singleton]
    exact ⟨hseen, le_refl _⟩
  intro hstate
  have hfull := full_of_state hkind (hholds.state.symm.trans hstate)
  exact ⟨i, by simp, hfull, hholds.version.symm, data_of_receive h hstate⟩

end
end

theorem latest_append (mark : Option Nat) (hseen : ∀ i ∈ seen, i.Of id impl epoch)
    (hi : i.Of id impl epoch)
    (hstored : stored = none ∧ seen = [] ∨ ∃ row, stored = some row ∧ Latest seen row) :
    ∃ row, (match receive mark stored i with
      | none => stored
      | some row => some row) = some row ∧ Latest (seen ++ [i]) row := by
  rcases hstored with ⟨rfl, rfl⟩ | ⟨row, rfl, hlatest⟩
  · cases hreceive : receive mark none i with
    | none =>
      obtain ⟨r, ⟨⟩, -⟩ := receive_none hi.kind (by simp) hreceive
    | some row => exact ⟨row, rfl, latest_of_receive hi.kind (by simp) hreceive (by simp)⟩
  have hwf : ∀ old, some row = some old → old.WellFormed := by
    rintro old ⟨⟩
    exact hlatest.wellFormed
  have hiff : ∀ g ∈ seen, row.Holds g → (receive mark (some row) i = none ↔ i.place ≤ g.place) := by
    intro g hg hholds
    refine receive_eq_none_iff hi.kind hholds hlatest.wellFormed ?_ ?_
    · exact (hseen g hg).impl.trans hi.impl.symm
    exact (hseen g hg).epoch.trans hi.epoch.symm
  cases hreceive : receive mark (some row) i with
  | none => exact ⟨row, rfl, hlatest.append_le fun g hg _ hholds => (hiff g hg hholds).1 hreceive⟩
  | some row' =>
    refine ⟨row', rfl, latest_of_receive hi.kind hwf hreceive ?_⟩
    obtain ⟨g, hg, hgreatest, hholds⟩ := hlatest.greatest
    have hlt : ¬ i.place ≤ g.place := by
      rw [← hiff g hg hholds, hreceive]
      simp
    exact fun i' hi' => (hgreatest i' hi').trans (not_le.1 hlt).le

def applyStep (s : SourceRow × Rows J) (i : Input J) : Option (SourceRow × Rows J) :=
  (apply s.1 s.2 i).map fun out => (out.1, out.2.1)

theorem applyStep_eq (rows : Rows J) (hsrc : src.Takes impl epoch) (hi : i.Of id impl epoch) :
    ∃ rows', applyStep (src, rows) i = some (src, rows') ∧
      rows'.lookup id = (match receive src.mark (rows.lookup id) i with
        | none => rows.lookup id
        | some row => some row) ∧ ∀ id', id' ≠ id → rows'.lookup id' = rows.lookup id' := by
  obtain rfl := hi.record
  simp only [applyStep, apply, skips_eq_none hsrc hi]
  cases hreceive : receive src.mark (rows.lookup i.recordID) i with
  | none => exact ⟨rows, rfl, rfl, fun _ _ => rfl⟩
  | some row =>
    exact ⟨rows.insert i.recordID row, rfl, AList.lookup_insert .., fun id' hne =>
      AList.lookup_insert_ne hne⟩

theorem run_latest (hsrc : src.Takes impl epoch) (hrow : rows.lookup id = none)
    (inputs : List (Input J)) (hinputs : ∀ i ∈ inputs, i.Of id impl epoch) :
    ∃ rows', run applyStep (src, rows) inputs = some (src, rows') ∧
      (rows'.lookup id = none ∧ inputs = [] ∨
        ∃ row, rows'.lookup id = some row ∧ Latest inputs row) ∧
      ∀ id', id' ≠ id → rows'.lookup id' = rows.lookup id' := by
  induction inputs using List.reverseRecOn with
  | nil => exact ⟨rows, rfl, .inl ⟨hrow, rfl⟩, fun _ _ => rfl⟩
  | append_singleton seen i ih =>
    rw [forall_mem_append, forall_mem_singleton] at hinputs
    obtain ⟨hseen, hi⟩ := hinputs
    obtain ⟨rows₁, hrun, hstored, hothers⟩ := ih hseen
    obtain ⟨rows', hstep, hlookup, hothers'⟩ := applyStep_eq rows₁ hsrc hi
    obtain ⟨row, hrow', hlatest⟩ := latest_append src.mark hseen hi hstored
    refine ⟨rows', run_trans hrun ((run_singleton _ _).trans hstep), ?_, ?_⟩
    · exact .inr ⟨row, hlookup.trans hrow', hlatest⟩
    exact fun id' hne => (hothers' id' hne).trans (hothers id' hne)

/-- The inputs of one record leave the row of the greatest, by version and then a deletion over a
full input over a partial one, in whatever order and however often they come. -/
theorem greatest_input_wins (src : SourceRow) (rows : Rows J) (id impl epoch : String)
    (hsrc : src.Takes impl epoch) (hrow : rows.lookup id = none) (inputs : List (Input J))
    (hinputs : ∀ i ∈ inputs, i.Of id impl epoch) (hne : inputs ≠ []) :
    ∃ rows' row, run applyStep (src, rows) inputs = some (src, rows') ∧
      rows'.lookup id = some row ∧
      (∃ g ∈ inputs, (∀ i ∈ inputs, i.place ≤ g.place) ∧ row.version = g.version ∧
        row.state = g.kind.state) ∧
      (row.state = .incomplete → row.needVersion = some row.version) ∧
      (row.state = .complete → ∃ i ∈ inputs, i.kind = .full ∧ i.version = row.version ∧
        row.data = some i.data) ∧
      -- and the other orders
      ∀ inputs' : List (Input J), (∀ i, i ∈ inputs' ↔ i ∈ inputs) →
        ∃ rows'' row', run applyStep (src, rows) inputs' = some (src, rows'') ∧
          rows''.lookup id = some row' ∧ row'.version = row.version ∧ row'.state = row.state ∧
          row'.needVersion = row.needVersion ∧
          -- the data too, where the full inputs of a version agree on it
          (row.state = .complete → (∀ i ∈ inputs, ∀ i' ∈ inputs, i.kind = .full → i'.kind = .full →
            i.version = i'.version → i.data = i'.data) → row'.data = row.data) := by
  have hlatest : ∀ inputs : List (Input J), (∀ i ∈ inputs, i.Of id impl epoch) → inputs ≠ [] →
      ∃ rows' row, run applyStep (src, rows) inputs = some (src, rows') ∧
        rows'.lookup id = some row ∧ Latest inputs row := by
    intro inputs hinputs hne
    obtain ⟨rows', hrun, hstored, -⟩ := run_latest hsrc hrow inputs hinputs
    rcases hstored with ⟨-, hnil⟩ | ⟨row, hlookup, hlatest⟩
    · exact absurd hnil hne
    exact ⟨rows', row, hrun, hlookup, hlatest⟩
  obtain ⟨rows', row, hrun, hlookup, h⟩ := hlatest inputs hinputs hne
  refine ⟨rows', row, hrun, hlookup, ?_, h.wellFormed, h.data, ?_⟩
  · obtain ⟨g, hg, hgreatest, hholds⟩ := h.greatest
    exact ⟨g, hg, hgreatest, hholds.version, hholds.state⟩
  intro inputs' hmem
  have hne' : inputs' ≠ [] := by
    obtain ⟨i, hi⟩ := exists_mem_of_ne_nil _ hne
    exact ne_nil_of_mem ((hmem i).2 hi)
  obtain ⟨rows'', row', hrun', hlookup', h'⟩ :=
    hlatest inputs' (fun i hi => hinputs i ((hmem i).1 hi)) hne'
  obtain ⟨hversion, hstate, hneed⟩ := h.agree h' hmem
  refine ⟨rows'', row', hrun', hlookup', hversion, hstate, hneed, fun hcomplete hagree => ?_⟩
  obtain ⟨i, hi, hfull, hv, hdata⟩ := h.data hcomplete
  obtain ⟨i', hi', hfull', hv', hdata'⟩ := h'.data (hstate.trans hcomplete)
  rw [hdata, hdata', hagree i hi i' ((hmem i').1 hi') hfull hfull'
    (hv.trans (hversion.symm.trans hv'.symm))]

end Apply

/-- An account's inputs out of order: its deletion at version 3, then the read of version 2 and a
change of version 3. -/
def lateInputs : List (Input (List String)) :=
  [⟨"acc-1", .delete, 3, "impl-1", "1.1", [], 7⟩,
    ⟨"acc-1", .full, 2, "impl-1", "1.1", ["name"], 5⟩,
    ⟨"acc-1", .partialFields, 3, "impl-1", "1.1", ["mail"], 6⟩]

theorem late_inputs_leave_a_tombstone : ∃ rows' row,
    run applyStep (⟨"impl-1", "1.1", 4, .aligned⟩, (∅ : Rows (List String))) lateInputs =
      some (⟨"impl-1", "1.1", 4, .aligned⟩, rows') ∧ rows'.lookup "acc-1" = some row ∧
      ∃ g ∈ lateInputs, (∀ i ∈ lateInputs, i.place ≤ g.place) ∧ row.version = g.version ∧
        row.state = g.kind.state := by
  have hinputs : ∀ i ∈ lateInputs, i.Of "acc-1" "impl-1" "1.1" := by
    intro i hi
    simp only [lateInputs, mem_cons, not_mem_nil, or_false] at hi
    rcases hi with rfl | rfl | rfl <;> exact ⟨rfl, by simp, rfl, rfl⟩
  obtain ⟨rows', row, hrun, hlookup, hgreatest, -⟩ :=
    greatest_input_wins ⟨"impl-1", "1.1", 4, .aligned⟩ ∅ "acc-1" "impl-1" "1.1"
      (.inr ⟨rfl, rfl, by decide⟩) rfl lateInputs hinputs (by simp [lateInputs])
  exact ⟨rows', row, hrun, hlookup, hgreatest⟩

end BeSdk.Projection

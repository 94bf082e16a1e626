import BeSdk.Library.Tables
import BeSdk.Tiering.RowValues

/-!
# The parents of a class's tables

A row of a child table belongs to the row of its parent table whose key it names, and so, over a
chain of parents, to one root.  The chain rests on the order of the child tables: a parent stands
before its children (`Hierarchy`, which the class's Check and distinct names give).
-/

namespace BeSdk.Tiering.Rows

open BeSdk.Tiering.Classes List
open Function

variable {τ : Type} (F : Formats τ) (cl : Class)

/-- What Check and distinct table names say of the parents: each child has one, with a key of one
column, and a chain of parents ends at the root. -/
structure Hierarchy : Prop where
  nodup : (cl.tables.map Table.name).Nodup
  root_pk : cl.root.pk ≠ ""
  single : ∀ t ∈ cl.tables, t.pk ≠ "" → t.keyColumns = [t.pk]
  depth : ∀ ch ∈ cl.children, (cl.depth ch).isSome
  parent : ∀ ch ∈ cl.children, cl.underRoot ch = false →
    ∃ p ∈ cl.children, cl.child ch.parent = some p ∧ p.pk ≠ ""
  under : ∀ ch ∈ cl.children, cl.underRoot ch = true → cl.child ch.parent = none

variable {cl} {ch p : Child}

theorem mem_of_child {name : String} (h : cl.child name = some p) : p ∈ cl.children :=
  mem_of_find?_eq_some h

theorem name_of_child {name : String} (h : cl.child name = some p) : p.name = name := by
  simpa using find?_some h

theorem depthFrom_succ (fuel d : Nat) (ch : Child) :
    cl.depthFrom fuel (d + 1) ch = (cl.depthFrom fuel d ch).map (· + 1) := by
  induction fuel generalizing d ch with
  | zero => rfl
  | succ fuel ih =>
    rw [Class.depthFrom, Class.depthFrom]
    split
    · rfl
    · cases cl.child ch.parent with
      | none => rfl
      | some next => exact ih (d + 1) next

theorem depthFrom_mono {fuel d m : Nat} (h : cl.depthFrom fuel d ch = some m) :
    cl.depthFrom (fuel + 1) d ch = some m := by
  induction fuel generalizing d ch with
  | zero => cases h
  | succ fuel ih =>
    rw [Class.depthFrom] at h ⊢
    cases hunder : cl.underRoot ch with
    | true => simpa [hunder] using h
    | false =>
      rw [hunder, if_neg Bool.false_ne_true] at h
      rw [if_neg Bool.false_ne_true]
      cases hnext : cl.child ch.parent with
      | none =>
        rw [hnext] at h
        cases h
      | some next =>
        rw [hnext] at h
        exact ih h

theorem depth_parent (hch : cl.underRoot ch = false) (hp : cl.child ch.parent = some p) {m : Nat}
    (hm : cl.depth ch = some m) : ∃ n, cl.depth p = some n ∧ m = n + 1 := by
  unfold Class.depth at hm ⊢
  cases hfuel : cl.children.length with
  | zero =>
    rw [hfuel] at hm
    cases hm
  | succ fuel =>
    rw [hfuel, Class.depthFrom, hch, if_neg Bool.false_ne_true, hp] at hm
    obtain ⟨n, hn, rfl⟩ := Option.map_eq_some_iff.1 ((depthFrom_succ ..).symm.trans hm)
    exact ⟨n, depthFrom_mono hn, rfl⟩

namespace Hierarchy

variable (h : Hierarchy cl)
include h

theorem nodup_children : (cl.children.map fun ch => ch.name).Nodup := by
  have hnodup := h.nodup
  rw [Class.tables, map_cons, map_map] at hnodup
  exact (nodup_cons.1 hnodup).2

section
variable (hch : ch ∈ cl.children)
include hch

theorem name_ne_root : ch.name ≠ cl.root.name := by
  intro hname
  have hnodup := h.nodup
  rw [Class.tables, map_cons, map_map] at hnodup
  exact (nodup_cons.1 hnodup).1 (mem_map.2 ⟨ch, hch, hname⟩)

theorem eq_of_name (hp : p ∈ cl.children) (hname : p.name = ch.name) : p = ch :=
  inj_on_of_nodup_map h.nodup_children hp hch hname

/-- A child is under the root, or under a child that stands less deep. -/
theorem cases : cl.underRoot ch = true ∧ cl.child ch.parent = none ∨
      cl.underRoot ch = false ∧ ∃ p ∈ cl.children, cl.child ch.parent = some p ∧ p.pk ≠ "" ∧
        (cl.depth p).getD 0 < (cl.depth ch).getD 0 := by
  cases hunder : cl.underRoot ch with
  | true => exact .inl ⟨rfl, h.under ch hch hunder⟩
  | false =>
    obtain ⟨p, hp, hchild, hpk⟩ := h.parent ch hch hunder
    obtain ⟨m, hm⟩ := Option.isSome_iff_exists.1 (h.depth ch hch)
    obtain ⟨n, hn, rfl⟩ := depth_parent hunder hchild hm
    refine .inr ⟨rfl, p, hp, hchild, hpk, ?_⟩
    rw [hn, hm, Option.getD_some, Option.getD_some]
    exact Nat.lt_succ_self n

theorem depth_lt (hp : cl.child ch.parent = some p) :
    (cl.depth p).getD 0 < (cl.depth ch).getD 0 := by
  rcases h.cases hch with ⟨-, hnone⟩ | ⟨-, p', -, hp', -, hlt⟩
  · rw [hp] at hnone
    cases hnone
  · cases hp.symm.trans hp'
    exact hlt

theorem parent_pk (hp : cl.child ch.parent = some p) : p.pk ≠ "" := by
  rcases h.cases hch with ⟨-, hnone⟩ | ⟨-, p', -, hp', hpk, -⟩
  · rw [hp] at hnone
    cases hnone
  · cases hp.symm.trans hp'
    exact hpk

end
end Hierarchy

theorem checkChild_eq_nil (h : cl.checkChild ch = []) :
    (ch.typeOf ch.fk).isSome ∧ (cl.depth ch).isSome ∧
      ∃ parent, cl.parent ch = some parent ∧ parent.pk ≠ "" := by
  unfold Class.checkChild at h
  obtain ⟨hfk, hparent⟩ := append_eq_nil_iff.1 h
  cases hp : cl.parent ch with
  | none =>
    rw [hp] at hparent
    cases hparent
  | some parent =>
    rw [hp] at hparent
    obtain ⟨hpk, hdepth⟩ := append_eq_nil_iff.1 hparent
    rw [errorIf_eq_nil, Option.isNone_eq_false_iff] at hfk hdepth
    exact ⟨hfk, hdepth, parent, rfl, by simpa using hpk⟩

variable {registries : List String}

theorem checkTable_name {t : Table} (h : Class.checkTable registries t = []) : t.name ≠ "" := by
  intro hname
  simp only [Class.checkTable, append_eq_nil_iff, errorIf_eq_nil] at h
  simp [hname, plainIdent] at h

theorem checkTable_keyColumns {t : Table}
    (h : Class.checkTable registries t = []) (hpk : t.pk ≠ "") : t.keyColumns = [t.pk] := by
  have hkey : t.key = [] := by
    by_contra hne
    simp only [Class.checkTable, append_eq_nil_iff, errorIf_eq_nil] at h
    simp [hpk, hne] at h
  rw [Table.keyColumns, if_neg (not_not.2 hkey)]

theorem hierarchy {n : Int} (hcheck : cl.check n registries = [])
    (hnodup : (cl.tables.map Table.name).Nodup) : Hierarchy cl := by
  obtain ⟨-, -, htables, hroot, hchildren, -⟩ := Class.check_eq_nil.1 hcheck
  have hnames : (cl.root.name :: cl.children.map fun ch => ch.name).Nodup := by
    simpa [Class.tables, comp_def] using hnodup
  obtain ⟨hrootname, hchildnames⟩ := nodup_cons.1 hnames
  refine ⟨hnodup, hroot, fun t ht => checkTable_keyColumns (htables t ht),
    fun ch hch => (checkChild_eq_nil (hchildren ch hch)).2.1, ?_, ?_⟩
  · intro ch hch hunder
    obtain ⟨-, -, parent, hparent, hpk⟩ := checkChild_eq_nil (hchildren ch hch)
    rw [Class.parent, hunder, if_neg Bool.false_ne_true] at hparent
    obtain ⟨o, ho, rfl⟩ := Option.map_eq_some_iff.1 hparent
    have hmem := mem_of_find?_eq_some ho
    obtain ⟨hname, -⟩ : o.name = ch.parent ∧ o.name ≠ ch.name := by simpa using find?_some ho
    -- the child of that name is this one
    cases hchild : cl.child ch.parent with
    | none =>
      have hnone := find?_eq_none.1 hchild o hmem
      simp [hname] at hnone
    | some p =>
      have hp := mem_of_find?_eq_some hchild
      have hpo : p = o :=
        inj_on_of_nodup_map hchildnames hp hmem ((name_of_child hchild).trans hname.symm)
      exact ⟨p, hp, rfl, hpo ▸ hpk⟩
  intro ch hch hunder
  cases hchild : cl.child ch.parent with
  | none => rfl
  | some p =>
    have hp := mem_of_find?_eq_some hchild
    have hname := name_of_child hchild
    rcases (by simpa [Class.underRoot] using hunder : ch.parent = "" ∨
      ch.parent = cl.root.name) with hempty | hroot
    · refine absurd (hname.trans hempty) (checkTable_name (htables p.toTable ?_))
      exact mem_cons_of_mem _ (mem_map.2 ⟨p, hp, rfl⟩)
    exact absurd (mem_map.2 ⟨p, hp, hname.trans hroot⟩) hrootname

section
variable (h : Hierarchy cl) (hch : ch ∈ cl.children)
include h hch

theorem Hierarchy.parent_ne (hp : cl.child ch.parent = some p) : p.name ≠ ch.name := by
  intro hname
  cases h.eq_of_name hch (mem_of_child hp) hname
  exact absurd (h.depth_lt hch hp) (Nat.lt_irrefl _)

theorem Hierarchy.parent_eq_of_none
    (hnone : cl.child ch.parent = none) : cl.parent ch = some cl.root := by
  rcases h.cases hch with ⟨hunder, -⟩ | ⟨-, p, -, hp, -⟩
  · rw [Class.parent, if_pos hunder]
  rw [hnone] at hp
  cases hp

theorem Hierarchy.parent_eq_of_some
    (hp : cl.child ch.parent = some p) : cl.parent ch = some p.toTable := by
  rcases h.cases hch with ⟨-, hnone⟩ | ⟨hunder, -⟩
  · rw [hp] at hnone
    cases hnone
  rw [Class.parent, hunder, if_neg Bool.false_ne_true]
  -- the child of that name, which is not the child itself
  have hmem := mem_of_child hp
  have hname := name_of_child hp
  cases hfind : cl.children.find? fun o => o.name = ch.parent ∧ o.name ≠ ch.name with
  | none =>
    have hnot := find?_eq_none.1 hfind p hmem
    simp [hname, hname ▸ h.parent_ne hch hp] at hnot
  | some o =>
    have ho : o.name = ch.parent ∧ o.name ≠ ch.name := by simpa using find?_some hfind
    cases h.eq_of_name hmem (mem_of_find?_eq_some hfind) (ho.1.trans hname.symm)
    rfl

end
end BeSdk.Tiering.Rows

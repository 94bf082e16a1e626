import BeSdk.Tiering.Hierarchy

/-!
# Online rows and their aggregates

The online tables of a class as the database has them, and `rootExpr` of `tiering/class.go`, the
expression that finds the root of a child's row.

Two notions of equality meet in it.  A parent is looked up by the database's `=`, and so is a
foreign key checked; the lookup ends in the text of a key under the root, which is compared with
the texts of the unit's members.  For most types these agree.  A `numeric` or a `jsonb` has several
texts for one value, so a key type is given by both (`KeyType`), and an aggregate is told by `=`
alone (`Belongs`).
-/

namespace BeSdk.Tiering.Online

open BeSdk.Tiering.Classes List Option
open BeSdk.Tiering.Rows (Hierarchy depth_parent mem_of_child name_of_child)

/-- The values of key columns: their text and the database's equality. -/
structure KeyType (κ : Type) where
  -- `::text`
  text : κ → String
  -- `=`
  same : κ → κ → Bool
  same_symm : ∀ {a b}, same a b = true → same b a = true
  same_trans : ∀ {a b c}, same a b = true → same b c = true → same a c = true

/-- A row of a table at its place; a column that is null has no value. -/
structure Row (κ : Type) where
  ctid : Nat
  values : List (String × κ)
deriving DecidableEq

def Row.value {κ : Type} (r : Row κ) (col : String) : Option κ := r.values.lookup col

abbrev Db (κ : Type) := String → List (Row κ)

variable {κ : Type} (V : KeyType κ) (cl : Class)

/-- The row's key is the other row's, as the database compares them. -/
def refers (ch : Child) (t : Table) (r q : Row κ) : Bool :=
  match r.value ch.fk, q.value t.pk with
  | some a, some b => V.same a b
  | _, _ => false

/-- The lookups of rootExpr, as many as there are levels. -/
def rootTextFrom (db : Db κ) : Nat → Child → Row κ → Option String
  | 0, _, _ => none
  | level + 1, ch, r =>
    if cl.underRoot ch then (r.value ch.fk).map V.text
    else (cl.child ch.parent).bind fun p =>
      ((db p.name).find? fun q => refers V ch p.toTable r q).bind (rootTextFrom db level p)

/-- rootExpr is the text of the root key of a child's row. -/
def rootText (db : Db κ) (ch : Child) (r : Row κ) : Option String :=
  rootTextFrom V cl db ((cl.depth ch).getD 0) ch r

/-- The row of the child table belongs to the aggregate of the root's row. -/
inductive Belongs (db : Db κ) : Child → Row κ → Row κ → Prop where
  | root {ch : Child} {r root : Row κ} (hch : cl.child ch.parent = none)
      (hroot : root ∈ db cl.root.name) (href : refers V ch cl.root r root = true) :
      Belongs db ch r root
  | child {ch p : Child} {r q root : Row κ} (hch : cl.child ch.parent = some p)
      (hq : q ∈ db p.name) (href : refers V ch p.toTable r q = true)
      (hbelongs : Belongs db p q root) : Belongs db ch r root

/-- A key names one row of a table, and each key of a child's row names a row of its parent's
table. -/
structure Intact (db : Db κ) : Prop where
  places : ∀ name, ((db name).map Row.ctid).Nodup
  keys : ∀ t ∈ cl.tables, t.pk ≠ "" → ∀ q ∈ db t.name, ∀ q' ∈ db t.name, ∀ a b,
    q.value t.pk = some a → q'.value t.pk = some b → V.same a b = true → q = q'
  parents : ∀ ch ∈ cl.children, ∀ r ∈ db ch.name, (r.value ch.fk).isSome →
    ∃ t, cl.parent ch = some t ∧ ∃ q ∈ db t.name, refers V ch t r q = true

variable {V cl} {db db' : Db κ} {ch p : Child} {t : Table} {r q q' root root' : Row κ}

theorem refers_iff : refers V ch t r q = true ↔
    ∃ a b, r.value ch.fk = some a ∧ q.value t.pk = some b ∧ V.same a b = true := by
  unfold refers
  split
  · next a b ha hb => simp [ha, hb]
  rename_i hne
  refine iff_of_false Bool.false_ne_true ?_
  rintro ⟨a, b, ha, hb, -⟩
  exact hne a b ha hb

theorem depth_of_under (hch : ch ∈ cl.children) (hunder : cl.underRoot ch = true) :
    cl.depth ch = some 1 := by
  unfold Class.depth
  cases hlength : cl.children.length with
  | zero => exact absurd hch (by simp [length_eq_zero_iff.1 hlength])
  | succ fuel => rw [Class.depthFrom, if_pos hunder]

theorem rootText_of_none (h : Hierarchy cl) (hch : ch ∈ cl.children)
    (hnone : cl.child ch.parent = none) : rootText V cl db ch r = (r.value ch.fk).map V.text := by
  rcases h.cases hch with ⟨hunder, -⟩ | ⟨-, p, -, hp, -⟩
  · rw [rootText, depth_of_under hch hunder, getD_some, rootTextFrom, if_pos hunder]
  rw [hnone] at hp
  cases hp

/-- Below another child the root is that of the parent's row. -/
theorem rootText_of_some (h : Hierarchy cl) (hch : ch ∈ cl.children)
    (hp : cl.child ch.parent = some p) : rootText V cl db ch r =
      ((db p.name).find? fun q => refers V ch p.toTable r q).bind (rootText V cl db p) := by
  rcases h.cases hch with ⟨-, hnone⟩ | ⟨hunder, -⟩
  · rw [hp] at hnone
    cases hnone
  obtain ⟨m, hm⟩ := isSome_iff_exists.1 (h.depth ch hch)
  obtain ⟨n, hn, rfl⟩ := depth_parent hunder hp hm
  rw [rootText, hm, getD_some, rootTextFrom, hunder, if_neg Bool.false_ne_true, hp, bind_some]
  refine bind_congr fun q _ => ?_
  rw [rootText, hn, getD_some]

theorem root_mem : cl.root ∈ cl.tables := mem_cons_self

theorem child_mem (hch : ch ∈ cl.children) : ch.toTable ∈ cl.tables :=
  mem_cons_of_mem _ (mem_map.2 ⟨ch, hch, rfl⟩)

section
variable (hdb : Intact V cl db)
include hdb

theorem Intact.eq_of_refers (ht : t ∈ cl.tables) (hpk : t.pk ≠ "")
    (hq : q ∈ db t.name) (hq' : q' ∈ db t.name) (href : refers V ch t r q = true)
    (href' : refers V ch t r q' = true) : q = q' := by
  obtain ⟨a, b, ha, hb, hab⟩ := refers_iff.1 href
  obtain ⟨a', b', ha', hb', hab'⟩ := refers_iff.1 href'
  cases ha.symm.trans ha'
  exact hdb.keys t ht hpk q hq q' hq' b b' hb hb' (V.same_trans (V.same_symm hab) hab')

theorem Intact.eq_of_refers_root (h : Hierarchy cl)
    (hq : q ∈ db cl.root.name) (hq' : q' ∈ db cl.root.name)
    (href : refers V ch cl.root r q = true) (href' : refers V ch cl.root r q' = true) : q = q' :=
  hdb.eq_of_refers root_mem h.root_pk hq hq' href href'

section
variable (h : Hierarchy cl) (hch : ch ∈ cl.children) (hp : cl.child ch.parent = some p)
  (hq : q ∈ db p.name)
include h hch hp hq

theorem Intact.eq_of_refers_child (hq' : q' ∈ db p.name) (href : refers V ch p.toTable r q = true)
    (href' : refers V ch p.toTable r q' = true) : q = q' :=
  hdb.eq_of_refers (child_mem (mem_of_child hp)) (h.parent_pk hch hp) hq hq' href href'

theorem Intact.find_parent (href : refers V ch p.toTable r q = true) :
    ((db p.name).find? fun q => refers V ch p.toTable r q) = some q := by
  cases hfind : (db p.name).find? fun q => refers V ch p.toTable r q with
  | none => exact absurd href (find?_eq_none.1 hfind q hq)
  | some q' =>
    have href' := find?_some hfind
    rw [hdb.eq_of_refers_child h hch hp (mem_of_find?_eq_some hfind) hq href' href]

end
end

theorem Belongs.eq_root (h : Hierarchy cl) (hdb : Intact V cl db) (hch : ch ∈ cl.children)
    (hroot : Belongs V cl db ch r root) (hroot' : Belongs V cl db ch r root') : root = root' := by
  induction hroot with
  | root hnone hmem href =>
    cases hroot' with
    | root _ hmem' href' => exact hdb.eq_of_refers_root h hmem hmem' href href'
    | child hp => cases hnone.symm.trans hp
  | child hp hq href _ ih =>
    cases hroot' with
    | root hnone => cases hnone.symm.trans hp
    | child hp' hq' href' hbelongs' =>
      cases hp.symm.trans hp'
      cases hdb.eq_of_refers_child h hch hp hq hq' href href'
      exact ih (mem_of_child hp) hbelongs'

/-- Among more rows a row belongs to the aggregate it did. -/
theorem Belongs.mono (hsub : ∀ name, db' name ⊆ db name) (hroot : Belongs V cl db' ch r root) :
    Belongs V cl db ch r root := by
  induction hroot with
  | root hnone hmem href => exact .root hnone (hsub _ hmem) href
  | child hp hq href _ ih => exact .child hp (hsub _ hq) href ih

/-- Among the rows that are left, parents included, a row belongs to the aggregate it did. -/
theorem Belongs.restrict (h : Hierarchy cl) (hdb : Intact V cl db) (hdb' : Intact V cl db')
    (hsub : ∀ name, db' name ⊆ db name) (hch : ch ∈ cl.children) (hr : r ∈ db' ch.name)
    (hroot : Belongs V cl db ch r root) : Belongs V cl db' ch r root := by
  induction hroot with
  | @root ch r root hnone hmem href =>
    obtain ⟨a, b, ha, -⟩ := refers_iff.1 href
    obtain ⟨t, ht, q, hq, hrefq⟩ := hdb'.parents ch hch r hr (by simp [ha])
    rw [h.parent_eq_of_none hch hnone] at ht
    cases ht
    cases hdb.eq_of_refers_root h (hsub _ hq) hmem hrefq href
    exact .root hnone hq hrefq
  | @child ch p r q root hp hq href _ ih =>
    obtain ⟨a, b, ha, -⟩ := refers_iff.1 href
    obtain ⟨t, ht, q', hq', hrefq⟩ := hdb'.parents ch hch r hr (by simp [ha])
    rw [h.parent_eq_of_some hch hp] at ht
    cases ht
    cases hdb.eq_of_refers_child h hch hp (hsub _ hq') hq hrefq href
    exact .child hp hq' hrefq (ih (mem_of_child hp) hq')

end BeSdk.Tiering.Online

import BeSdk.Library.Runs
import BeSdk.Tiering.Online
import Mathlib.Algebra.Order.BigOperators.Group.List

/-!
# Deleting a unit's online rows

`deleteOnline` of `tiering/release.go`: transactions one after the other, each deleting a batch of
the deepest table that still has rows of the unit, until there is none.  Which rows a batch takes is
the database's choice (`Limit`).

A row is found by the text of its root's key, which the lookups of `rootText` read from the rows
that are left.  So that these say what they said at the start, a parent must go after its children,
and this in turn rests on the children having been found.  The two are carried together
(`DeleteOk`): the rows left are intact, and no row of another aggregate is gone.  A transaction
keeps both (`deleteTx_ok`), as it deletes from a table only when no deeper one has rows of the
unit, and a child of a row that is found is found itself (`found_of_refers`).

The one link that is not made by the database is the last one, from a child's key under the root to
the members: `SameMembers` says that it is made alike.
-/

namespace BeSdk.Tiering.Online

open BeSdk.Tiering.Classes List Nat
open BeSdk.Tiering.Rows (Hierarchy mem_of_child name_of_child)
open Function Runs

variable {κ : Type}

/-- The rows that `LIMIT` lets through, whichever they are. -/
structure Limit (κ : Type) (batch : Nat) where
  take : List (Row κ) → List (Row κ)
  sublist : ∀ rows, (take rows).Sublist rows
  length : ∀ rows, (take rows).length = min batch rows.length

/-- ReleaseBatch bounds the rows one release transaction deletes. -/
def releaseBatch : Nat := 10000

def batchOf (batch : Int) : Nat := if batch ≤ 0 then releaseBatch else batch.toNat

variable (V : KeyType κ) (cl : Class) (members : List String)

def deepestFirst : List Child :=
  cl.children.insertionSort fun x y => (cl.depth y).getD 0 ≤ (cl.depth x).getD 0

/-- A child's row is of the unit, as the statement finds it. -/
def found (db : Db κ) (ch : Child) (r : Row κ) : Bool :=
  (rootText V cl db ch r).any fun root => root ∈ members

def foundRoot (r : Row κ) : Bool := (r.value cl.root.pk).any fun k => V.text k ∈ members

/-- The tables in the order of the statements, each with its condition. -/
def targets (db : Db κ) : List (String × (Row κ → Bool)) :=
  (deepestFirst cl).map (fun ch => (ch.name, found V cl members db ch)) ++
    [(cl.root.name, foundRoot V cl members)]

variable {batch : Nat} (limit : Limit κ batch)

def deleted (db : Db κ) (target : String × (Row κ → Bool)) : List (Row κ) :=
  limit.take ((db target.1).filter target.2)

/-- `DELETE FROM name WHERE ctid IN (…)`. -/
def delete (db : Db κ) (name : String) (gone : List (Row κ)) : Db κ :=
  update db name ((db name).filter fun r => r.ctid ∉ gone.map Row.ctid)

/-- The first statement that deletes a row, with the ones before it. -/
def firstDelete (db : Db κ) : List (String × (Row κ → Bool)) → Option (Db κ)
  | [] => none
  | target :: targets =>
    if 0 < (deleted limit db target).length then
      some (delete db target.1 (deleted limit db target))
    else firstDelete db targets

/-- One transaction; `none` when it finds no row left. -/
def deleteTx (db : Db κ) : Option (Db κ) := firstDelete limit db (targets V cl members db)

/-- A transaction, for the batch the database chooses. -/
def deleteStep (db : Db κ) (limit : Limit κ batch) : Option (Db κ) := deleteTx V cl members limit db

/-- The transactions from the `i`-th on, up to `fuel` of them; `none` when there are more. -/
def deleteOnline (limits : Nat → Limit κ batch) : Nat → Nat → Db κ → Option (Db κ)
  | 0, _, _ => none
  | fuel + 1, i, db =>
    match deleteTx V cl members (limits i) db with
    | none => some db
    | some db' => deleteOnline limits fuel (i + 1) db'

/-! ## One transaction -/

variable {V cl members limit} {db db' : Db κ} {ch p : Child} {r q root : Row κ}

theorem batchOf_pos (batch : Int) : 0 < batchOf batch := by
  unfold batchOf
  split
  · decide
  omega

theorem mem_deepestFirst : ch ∈ deepestFirst cl ↔ ch ∈ cl.children := mem_insertionSort _

variable (cl) in
theorem deepestFirst_sorted :
    (deepestFirst cl).Pairwise fun x y => (cl.depth y).getD 0 ≤ (cl.depth x).getD 0 := by
  have : Std.Total fun x y : Child => (cl.depth y).getD 0 ≤ (cl.depth x).getD 0 :=
    ⟨fun x y => le_total _ _⟩
  have : IsTrans Child fun x y => (cl.depth y).getD 0 ≤ (cl.depth x).getD 0 :=
    ⟨fun _ _ _ h h' => h'.trans h⟩
  exact pairwise_insertionSort _ _

theorem mem_before (h : Hierarchy cl) {before after : List Child}
    (heq : deepestFirst cl = before ++ p :: after) (hch : ch ∈ cl.children)
    (hp : cl.child ch.parent = some p) : ch ∈ before := by
  have hsorted := deepestFirst_sorted cl
  have hmem : ch ∈ before ++ p :: after := heq ▸ mem_deepestFirst.2 hch
  have hlt := h.depth_lt hch hp
  rw [heq, pairwise_append, pairwise_cons] at hsorted
  rcases mem_append.1 hmem with hbefore | hrest
  · exact hbefore
  rcases mem_cons.1 hrest with rfl | hafter
  · exact absurd hlt (Nat.lt_irrefl _)
  exact absurd hlt (Nat.not_lt_of_le (hsorted.2.1.1 ch hafter))

theorem deleted_eq_nil_iff (hbatch : 0 < batch) {target : String × (Row κ → Bool)} :
    (deleted limit db target).length = 0 ↔ ∀ r ∈ db target.1, target.2 r = false := by
  have hlength := limit.length ((db target.1).filter target.2)
  have hfilter : ((db target.1).filter target.2).length = 0 ↔
      ∀ r ∈ db target.1, target.2 r = false := by
    simp [length_eq_zero_iff, filter_eq_nil_iff]
  rw [← hfilter, deleted]
  omega

theorem mem_deleted {target : String × (Row κ → Bool)} (hr : r ∈ deleted limit db target) :
    r ∈ db target.1 ∧ target.2 r = true :=
  mem_filter.1 ((limit.sublist _).subset hr)

section
variable (hbatch : 0 < batch)
include hbatch

theorem firstDelete_eq_none_iff {ts : List (String × (Row κ → Bool))} :
    firstDelete limit db ts = none ↔ ∀ target ∈ ts, ∀ r ∈ db target.1, target.2 r = false := by
  induction ts with
  | nil => simp [firstDelete]
  | cons target ts ih =>
    have hnil : (deleted limit db target).length = 0 ↔ ∀ r ∈ db target.1, target.2 r = false :=
      deleted_eq_nil_iff hbatch
    rw [firstDelete, forall_mem_cons, ← hnil, ← ih]
    split
    · next hpos => simp [ne_nil_of_length_pos hpos]
    next hpos => simp [length_eq_zero_iff.1 (Nat.eq_zero_of_not_pos hpos)]

theorem firstDelete_eq_some {ts : List (String × (Row κ → Bool))}
    (h : firstDelete limit db ts = some db') : ∃ before target after,
      ts = before ++ target :: after ∧
      (∀ earlier ∈ before, ∀ r ∈ db earlier.1, earlier.2 r = false) ∧
      0 < (deleted limit db target).length ∧
      db' = delete db target.1 (deleted limit db target) := by
  induction ts with
  | nil => cases h
  | cons target ts ih =>
    rw [firstDelete] at h
    split at h
    next hpos =>
      cases h
      exact ⟨[], target, ts, rfl, by simp, hpos, rfl⟩
    rename_i hpos
    obtain ⟨before, target', after, rfl, hbefore, hrest⟩ := ih h
    refine ⟨target :: before, target', after, rfl, ?_, hrest⟩
    rw [forall_mem_cons]
    exact ⟨(deleted_eq_nil_iff hbatch).1 (Nat.eq_zero_of_not_pos hpos), hbefore⟩

/-- A transaction ends the deletion when no row of the unit is found. -/
theorem deleteTx_eq_none_iff : deleteTx V cl members limit db = none ↔
    (∀ ch ∈ cl.children, ∀ r ∈ db ch.name, found V cl members db ch r = false) ∧
      ∀ r ∈ db cl.root.name, foundRoot V cl members r = false := by
  rw [deleteTx, firstDelete_eq_none_iff hbatch, targets]
  simp only [forall_mem_append, forall_mem_map, forall_mem_singleton, mem_deepestFirst]

end

/-- What a transaction deletes: some rows of a child table, of whose children none is found, or of
the root's table when no other row is. -/
inductive Deletion (V : KeyType κ) (cl : Class) (members : List String) (db : Db κ) :
    String → List (Row κ) → Prop where
  | child {p : Child} {gone : List (Row κ)} (hp : p ∈ cl.children)
      (hgone : ∀ r ∈ gone, r ∈ db p.name ∧ found V cl members db p r = true)
      (hchildren : ∀ ch ∈ cl.children, cl.child ch.parent = some p → ∀ r ∈ db ch.name,
        found V cl members db ch r = false) : Deletion V cl members db p.name gone
  | root {gone : List (Row κ)}
      (hgone : ∀ r ∈ gone, r ∈ db cl.root.name ∧ foundRoot V cl members r = true)
      (hchildren : ∀ ch ∈ cl.children, ∀ r ∈ db ch.name, found V cl members db ch r = false) :
      Deletion V cl members db cl.root.name gone

theorem exists_deletion (h : Hierarchy cl) (hbatch : 0 < batch)
    (htx : deleteTx V cl members limit db = some db') : ∃ name gone,
      Deletion V cl members db name gone ∧ gone ≠ [] ∧ db' = delete db name gone := by
  obtain ⟨before, target, after, heq, hbefore, hpos, rfl⟩ := firstDelete_eq_some hbatch htx
  refine ⟨target.1, deleted limit db target, ?_, ne_nil_of_length_pos hpos, rfl⟩
  rcases eq_or_ne after [] with rfl | hafter
  · -- the last statement is the root's
    obtain ⟨hbefore', ⟨⟩⟩ := append_inj' heq rfl
    subst hbefore'
    refine .root (fun r hr => mem_deleted hr) fun ch hch => ?_
    exact hbefore _ (mem_map.2 ⟨ch, mem_deepestFirst.2 hch, rfl⟩)
  rw [targets, ← dropLast_append_getLast hafter, ← cons_append, ← append_assoc] at heq
  obtain ⟨hchildren, -⟩ := append_inj' heq rfl
  obtain ⟨l, l', hl, rfl, hl'⟩ := map_eq_append_iff.1 hchildren
  obtain ⟨p, after', rfl, rfl, -⟩ := map_eq_cons_iff.1 hl'
  have hp : p ∈ cl.children := mem_deepestFirst.1 (hl ▸ by simp)
  refine .child hp (fun r hr => mem_deleted hr) fun ch hch hparent => ?_
  exact hbefore _ (mem_map.2 ⟨ch, mem_before h hl hch hparent, rfl⟩)

/-! ## The rows that are left -/

variable {name : String} {gone : List (Row κ)}

theorem mem_delete (hplaces : ∀ name, ((db name).map Row.ctid).Nodup) {name' : String}
    (hgone : ∀ r ∈ gone, r ∈ db name) :
    r ∈ delete db name gone name' ↔ r ∈ db name' ∧ ¬ (name' = name ∧ r ∈ gone) := by
  by_cases hname : name' = name
  · subst hname
    have hctid : r ∈ db name' → (r.ctid ∈ gone.map Row.ctid ↔ r ∈ gone) := by
      intro hr
      constructor
      · intro hmem
        obtain ⟨r', hr', heq⟩ := mem_map.1 hmem
        exact inj_on_of_nodup_map (hplaces _) (hgone r' hr') hr heq ▸ hr'
      exact fun hmem => mem_map.2 ⟨r, hmem, rfl⟩
    rw [delete, update_self, mem_filter, decide_eq_true_eq]
    simp only [true_and]
    exact and_congr_right fun hr => not_congr (hctid hr)
  rw [delete, update_of_ne hname]
  simp [hname]

theorem places_delete (hplaces : ∀ name, ((db name).map Row.ctid).Nodup) (name : String)
    (gone : List (Row κ)) (name' : String) : ((delete db name gone name').map Row.ctid).Nodup := by
  by_cases hname : name' = name
  · subst hname
    rw [delete, update_self]
    exact (hplaces name').sublist (filter_sublist.map _)
  rw [delete, update_of_ne hname]
  exact hplaces name'

variable (V cl members) in
/-- The key of a row under the root is one of the members' exactly when the key of its root is. -/
def SameMembers (db : Db κ) : Prop :=
  ∀ ch ∈ cl.children, cl.underRoot ch = true → ∀ r ∈ db ch.name, ∀ root ∈ db cl.root.name,
    refers V ch cl.root r root = true →
      ((r.value ch.fk).any (fun k => V.text k ∈ members) ↔ foundRoot V cl members root = true)

variable (V cl members) in
/-- The row is of the unit: it is a member, or belongs to one. -/
def OfUnit (db : Db κ) (name : String) (r : Row κ) : Prop :=
  (name = cl.root.name ∧ foundRoot V cl members r = true) ∨
    ∃ ch ∈ cl.children, name = ch.name ∧
      ∃ root, Belongs V cl db ch r root ∧ foundRoot V cl members root = true

theorem SameMembers.mono (hsame : SameMembers V cl members db)
    (hsub : ∀ name, db' name ⊆ db name) : SameMembers V cl members db' :=
  fun ch hch hunder r hr root hroot => hsame ch hch hunder r (hsub _ hr) root (hsub _ hroot)

section
variable (h : Hierarchy cl)
include h

theorem found_of_none (hch : ch ∈ cl.children) (hnone : cl.child ch.parent = none) :
    found V cl members db ch r = (r.value ch.fk).any fun k => V.text k ∈ members := by
  rw [found, rootText_of_none h hch hnone, Option.any_map]

theorem underRoot_of_none (hch : ch ∈ cl.children)
    (hnone : cl.child ch.parent = none) : cl.underRoot ch = true := by
  rcases h.cases hch with ⟨hunder, -⟩ | ⟨-, p, -, hp, -⟩
  · exact hunder
  cases hnone.symm.trans hp

/-- A child of a row that is found is found, and the other way around. -/
theorem found_of_refers (hdb : Intact V cl db) (hch : ch ∈ cl.children)
    (hp : cl.child ch.parent = some p) (hq : q ∈ db p.name)
    (href : refers V ch p.toTable r q = true) :
    found V cl members db ch r = found V cl members db p q := by
  rw [found, rootText_of_some h hch hp, hdb.find_parent h hch hp hq href, Option.bind_some, found]

/-- The rows that are found are those of the unit. -/
theorem found_iff (hdb : Intact V cl db) (hsame : SameMembers V cl members db)
    (hch : ch ∈ cl.children) (hr : r ∈ db ch.name) : found V cl members db ch r = true ↔
      ∃ root, Belongs V cl db ch r root ∧ foundRoot V cl members root = true := by
  -- up the chain of parents
  induction hd : (cl.depth ch).getD 0 using Nat.strong_induction_on generalizing ch r with
  | _ d ih =>
    cases hparent : cl.child ch.parent with
    | none =>
      have hunder := underRoot_of_none h hch hparent
      rw [found_of_none h hch hparent]
      constructor
      · intro hmember
        obtain ⟨k, hk, -⟩ := (Option.any_eq_true _ _).1 hmember
        obtain ⟨t, ht, root, hroot, href⟩ := hdb.parents ch hch r hr (by simp [hk])
        rw [h.parent_eq_of_none hch hparent] at ht
        cases ht
        exact ⟨root, .root hparent hroot href, (hsame ch hch hunder r hr root hroot href).1 hmember⟩
      rintro ⟨root, hbelongs, hmember⟩
      cases hbelongs with
      | root _ hroot href => exact (hsame ch hch hunder r hr root hroot href).2 hmember
      | child hp => cases hparent.symm.trans hp
    | some p =>
      have hp := mem_of_child hparent
      have hlt : (cl.depth p).getD 0 < d := hd ▸ h.depth_lt hch hparent
      constructor
      · intro hfound
        obtain ⟨s, hs, hmember⟩ := (Option.any_eq_true _ _).1 hfound
        rw [rootText_of_some h hch hparent] at hs
        obtain ⟨q, hq, -⟩ := Option.bind_eq_some_iff.1 hs
        have hqmem := mem_of_find?_eq_some hq
        have href := find?_some hq
        rw [found_of_refers h hdb hch hparent hqmem href] at hfound
        obtain ⟨root, hbelongs, hroot⟩ := (ih _ hlt hp hqmem rfl).1 hfound
        exact ⟨root, .child hparent hqmem href hbelongs, hroot⟩
      rintro ⟨root, hbelongs, hroot⟩
      cases hbelongs with
      | root hnone => cases hnone.symm.trans hparent
      | child hp' hq href hbelongs =>
        cases hparent.symm.trans hp'
        rw [found_of_refers h hdb hch hparent hq href]
        exact (ih _ hlt hp hq rfl).2 ⟨root, hbelongs, hroot⟩

end

/-! ## Every transaction -/

variable (V cl) in
/-- Of a row that a transaction deletes no child is left after it. -/
def ParentsLast (db db' : Db κ) : Prop :=
  ∀ ch ∈ cl.children, ∀ t, cl.parent ch = some t → ∀ q ∈ db t.name, q ∉ db' t.name →
    ∀ r ∈ db' ch.name, refers V ch t r q = false

variable (V cl members) in
/-- The rows that are left of those at the start. -/
structure DeleteOk (db₀ db : Db κ) : Prop where
  sub : ∀ name, db name ⊆ db₀ name
  intact : Intact V cl db
  kept : ∀ name, ∀ r ∈ db₀ name, ¬ OfUnit V cl members db₀ name r → r ∈ db name

theorem Deletion.mem (hdel : Deletion V cl members db name gone) : ∀ r ∈ gone, r ∈ db name := by
  cases hdel with
  | child _ hgone _ | root hgone _ => exact fun r hr => (hgone r hr).1

theorem delete_sub (name : String) (gone : List (Row κ)) (name' : String) :
    delete db name gone name' ⊆ db name' := by
  by_cases hname : name' = name
  · subst hname
    rw [delete, update_self]
    exact filter_subset_self _
  rw [delete, update_of_ne hname]
  exact fun _ hr => hr

section
variable (h : Hierarchy cl) (hdb : Intact V cl db) (hsame : SameMembers V cl members db)
  (hdel : Deletion V cl members db name gone)
include h hdb hsame hdel

/-- A child of a row that goes would have been found before it. -/
theorem Deletion.parentsLast : ParentsLast V cl db (delete db name gone) := by
  intro ch hch t ht q hq hgone r hleft
  rw [← Bool.not_eq_true]
  intro href
  have hr : r ∈ db ch.name := delete_sub _ _ _ hleft
  obtain ⟨hname, hqgone⟩ : t.name = name ∧ q ∈ gone := by
    by_contra hnot
    exact hgone ((mem_delete hdb.places hdel.mem).2 ⟨hq, hnot⟩)
  cases hparent : cl.child ch.parent with
  | none =>
    rw [h.parent_eq_of_none hch hparent] at ht
    cases ht
    cases hdel with
    | child hp => exact h.name_ne_root hp hname.symm
    | root hgone hchildren =>
      have hunder := underRoot_of_none h hch hparent
      have hmember := (hsame ch hch hunder r hr q hq href).2 (hgone q hqgone).2
      rw [← found_of_none h hch hparent, hchildren ch hch r hr] at hmember
      cases hmember
  | some p =>
    rw [h.parent_eq_of_some hch hparent] at ht
    cases ht
    have hp := mem_of_child hparent
    cases hdel with
    | child hp' hgone hchildren =>
      cases h.eq_of_name hp' hp hname
      have hfound : found V cl members db ch r = found V cl members db p q :=
        found_of_refers h hdb hch hparent hq href
      rw [(hgone q hqgone).2, hchildren ch hch hparent r hr] at hfound
      cases hfound
    | root => exact h.name_ne_root hp hname

theorem Deletion.ofUnit : ∀ r ∈ gone, OfUnit V cl members db name r := by
  intro r hr
  cases hdel with
  | child hp hgone _ =>
    obtain ⟨hmem, hfound⟩ := hgone r hr
    exact .inr ⟨_, hp, rfl, (found_iff h hdb hsame hp hmem).1 hfound⟩
  | root hgone _ => exact .inl ⟨rfl, (hgone r hr).2⟩

end

theorem OfUnit.mono (hsub : ∀ name, db' name ⊆ db name)
    (hr : OfUnit V cl members db' name r) : OfUnit V cl members db name r := by
  refine hr.imp_right ?_
  rintro ⟨ch, hch, hname, root, hbelongs, hroot⟩
  exact ⟨ch, hch, hname, root, hbelongs.mono hsub, hroot⟩

theorem intact_delete (hdb : Intact V cl db)
    (hlast : ParentsLast V cl db (delete db name gone)) : Intact V cl (delete db name gone) where
  places := places_delete hdb.places name gone
  keys := fun t ht hpk q hq q' hq' =>
    hdb.keys t ht hpk q (delete_sub _ _ _ hq) q' (delete_sub _ _ _ hq')
  parents := by
    intro ch hch r hr hkey
    obtain ⟨t, ht, q, hq, href⟩ := hdb.parents ch hch r (delete_sub _ _ _ hr) hkey
    refine ⟨t, ht, q, ?_, href⟩
    by_contra hgone
    rw [hlast ch hch t ht q hq hgone r hr] at href
    cases href

theorem deleteTx_ok (h : Hierarchy cl) (hbatch : 0 < batch) {db₀ : Db κ}
    (hsame : SameMembers V cl members db₀) (hok : DeleteOk V cl members db₀ db)
    (htx : deleteTx V cl members limit db = some db') :
    DeleteOk V cl members db₀ db' ∧ ParentsLast V cl db db' := by
  obtain ⟨name, gone, hdel, -, rfl⟩ := exists_deletion h hbatch htx
  have hsame' := hsame.mono hok.sub
  have hlast := hdel.parentsLast h hok.intact hsame'
  refine ⟨⟨fun name' r hr => hok.sub _ (delete_sub _ _ _ hr), intact_delete hok.intact hlast, ?_⟩,
    hlast⟩
  intro name' r hr hother
  rw [mem_delete hok.intact.places hdel.mem]
  refine ⟨hok.kept name' r hr hother, ?_⟩
  rintro ⟨rfl, hgone⟩
  exact hother ((hdel.ofUnit h hok.intact hsame' r hgone).mono hok.sub)

/-- When no row is found, those of the unit are gone. -/
theorem DeleteOk.final (h : Hierarchy cl) (hbatch : 0 < batch) {db₀ : Db κ} (hdb₀ : Intact V cl db₀)
    (hsame : SameMembers V cl members db₀) (hok : DeleteOk V cl members db₀ db)
    (htx : deleteTx V cl members limit db = none) (name : String) (r : Row κ) :
    r ∈ db name ↔ r ∈ db₀ name ∧ ¬ OfUnit V cl members db₀ name r := by
  obtain ⟨hchildren, hroots⟩ := (deleteTx_eq_none_iff hbatch).1 htx
  refine ⟨fun hr => ⟨hok.sub name hr, ?_⟩, fun ⟨hr, hother⟩ => hok.kept name r hr hother⟩
  rintro (⟨rfl, hmember⟩ | ⟨ch, hch, rfl, root, hbelongs, hmember⟩)
  · rw [hroots r hr] at hmember
    cases hmember
  have hleft := hbelongs.restrict h hdb₀ hok.intact hok.sub hch hr
  have hfound := (found_iff h hok.intact (hsame.mono hok.sub) hch hr).2 ⟨root, hleft, hmember⟩
  rw [hchildren ch hch r hr] at hfound
  cases hfound

/-! ## The whole deletion -/

variable (cl) in
def total (db : Db κ) : Nat := (cl.tables.map fun t => (db t.name).length).sum

theorem Deletion.exists_table
    (hdel : Deletion V cl members db name gone) : ∃ t ∈ cl.tables, t.name = name := by
  cases hdel with
  | child hp => exact ⟨_, child_mem hp, rfl⟩
  | root => exact ⟨_, root_mem, rfl⟩

/-- A transaction that is not the last one deletes a row. -/
theorem total_lt (h : Hierarchy cl) (hbatch : 0 < batch)
    (htx : deleteTx V cl members limit db = some db') : total cl db' < total cl db := by
  obtain ⟨name, gone, hdel, hne, rfl⟩ := exists_deletion h hbatch htx
  refine sum_lt_sum _ _ ?_ ?_
  · intro t _
    by_cases hname : t.name = name
    · rw [hname, delete, update_self]
      exact length_filter_le _ _
    rw [delete, update_of_ne hname]
  obtain ⟨t, ht, rfl⟩ := hdel.exists_table
  obtain ⟨r, hr⟩ := exists_mem_of_ne_nil _ hne
  refine ⟨t, ht, ?_⟩
  rw [delete, update_self]
  refine length_filter_lt_length_iff_exists.2 ⟨r, hdel.mem r hr, ?_⟩
  simpa using ⟨r, hr, rfl⟩

theorem exists_deleteOnline (h : Hierarchy cl) (hbatch : 0 < batch) (limits : Nat → Limit κ batch)
    {fuel : Nat} (hfuel : total cl db < fuel) (i : Nat) :
    ∃ fin, deleteOnline V cl members limits fuel i db = some fin := by
  induction fuel generalizing i db with
  | zero => exact absurd hfuel (not_lt_zero _)
  | succ fuel ih =>
    rw [deleteOnline]
    cases htx : deleteTx V cl members (limits i) db with
    | none => exact ⟨db, rfl⟩
    | some db' =>
      have hlt := total_lt h hbatch htx
      exact ih (by omega) (i + 1)

/-- It ends after some transactions with one that finds nothing. -/
theorem run_of_deleteOnline {limits : Nat → Limit κ batch} {fuel i : Nat} {fin : Db κ}
    (hfin : deleteOnline V cl members limits fuel i db = some fin) :
    ∃ ls : List (Limit κ batch), run (deleteStep V cl members) db ls = some fin ∧
      ∃ limit : Limit κ batch, deleteTx V cl members limit fin = none := by
  induction fuel generalizing i db with
  | zero => cases hfin
  | succ fuel ih =>
    rw [deleteOnline] at hfin
    cases htx : deleteTx V cl members (limits i) db with
    | none =>
      rw [htx] at hfin
      cases hfin
      exact ⟨[], rfl, limits i, htx⟩
    | some db' =>
      rw [htx] at hfin
      obtain ⟨ls, hrun, hend⟩ := ih hfin
      exact ⟨limits i :: ls, run_cons_eq_some.2 ⟨db', htx, hrun⟩, hend⟩

theorem run_ok (h : Hierarchy cl) (hbatch : 0 < batch) (hdb : Intact V cl db)
    (hsame : SameMembers V cl members db) {ls : List (Limit κ batch)}
    (hrun : run (deleteStep V cl members) db ls = some db') : DeleteOk V cl members db db' := by
  refine run_invariant_of_step (fun _ _ _ hok htx => (deleteTx_ok h hbatch hsame hok htx).1) ?_ hrun
  exact ⟨fun _ _ hr => hr, hdb, fun _ _ hr _ => hr⟩

/-- A row under the root whose key is none of the members' is never deleted. -/
theorem run_kept (h : Hierarchy cl) (hbatch : 0 < batch) (hch : ch ∈ cl.children)
    (hnone : cl.child ch.parent = none)
    (hkey : ((r.value ch.fk).any fun k => V.text k ∈ members) = false)
    (hplaces : ∀ name, ((db name).map Row.ctid).Nodup) (hr : r ∈ db ch.name)
    {ls : List (Limit κ batch)} (hrun : run (deleteStep V cl members) db ls = some db') :
    r ∈ db' ch.name := by
  refine (run_invariant_of_step (P := fun db => (∀ name, ((db name).map Row.ctid).Nodup) ∧
    r ∈ db ch.name) ?_ ⟨hplaces, hr⟩ hrun).2
  rintro db limit db' ⟨hplaces, hr⟩ htx
  obtain ⟨name, gone, hdel, -, rfl⟩ := exists_deletion h hbatch htx
  refine ⟨places_delete hplaces name gone, (mem_delete hplaces hdel.mem).2 ⟨hr, ?_⟩⟩
  rintro ⟨hname, hgone⟩
  cases hdel with
  | child hp hfound _ =>
    cases h.eq_of_name hp hch hname
    have hr := (hfound r hgone).2
    rw [found_of_none h hch hnone, hkey] at hr
    cases hr
  | root => exact h.name_ne_root hch hname

def Limit.first (κ : Type) (batch : Nat) : Limit κ batch where
  take := List.take batch
  sublist := take_sublist batch
  length := fun _ => length_take

/-- The rows of the unit and no others are deleted, in whatever order the batches take them, and a
row always after its children, exactly when the keys of the rows under the root are among the
members' as their roots' are. -/
theorem unit_deleted_iff (V : KeyType κ) (cl : Class) (n : Int) (registries : List String)
    (hcheck : cl.check n registries = []) (hnodup : (cl.tables.map Table.name).Nodup)
    (batch : Int) (members : List String) (db : Db κ) (hdb : Intact V cl db) :
    (∀ limits : Nat → Limit κ (batchOf batch), ∃ fuel fin,
      deleteOnline V cl members limits fuel 0 db = some fin ∧
        ∀ name r, r ∈ fin name ↔ r ∈ db name ∧ ¬ OfUnit V cl members db name r) ∧
    (∀ (ls : List (Limit κ (batchOf batch))) db₁, run (deleteStep V cl members) db ls = some db₁ →
      ∀ (limit : Limit κ (batchOf batch)) db₂, deleteTx V cl members limit db₁ = some db₂ →
        ParentsLast V cl db₁ db₂) ↔ SameMembers V cl members db := by
  have h : Hierarchy cl := Rows.hierarchy hcheck hnodup
  have hbatch := batchOf_pos batch
  constructor
  · rintro ⟨hall, -⟩ ch hch hunder r hr root hroot href
    have hnone := h.under ch hch hunder
    obtain ⟨fuel, fin, hfin, hleft⟩ := hall fun _ => .first κ _
    obtain ⟨ls, hrun, limit, hend⟩ := run_of_deleteOnline hfin
    have hbelongs : Belongs V cl db ch r root := .root hnone hroot href
    constructor
    · -- the row is found, so that it is gone at the end
      intro hkey
      by_contra hmember
      have hother : ¬ OfUnit V cl members db ch.name r := by
        rintro (⟨hname, -⟩ | ⟨ch', hch', hname, root', hbelongs', hmember'⟩)
        · exact h.name_ne_root hch hname
        · cases h.eq_of_name hch' hch hname
          exact hmember (hbelongs'.eq_root h hdb hch hbelongs ▸ hmember')
      have hgone := ((deleteTx_eq_none_iff hbatch).1 hend).1 ch hch r
        ((hleft ch.name r).2 ⟨hr, hother⟩)
      rw [found_of_none h hch hnone, hkey] at hgone
      cases hgone
    -- the row is of the unit, so that it was found
    intro hmember
    by_contra hkey
    have hkept := run_kept h hbatch hch hnone (Bool.not_eq_true _ ▸ hkey) hdb.places hr hrun
    exact ((hleft ch.name r).1 hkept).2 (.inr ⟨ch, hch, rfl, root, hbelongs, hmember⟩)
  intro hsame
  constructor
  · intro limits
    obtain ⟨fin, hfin⟩ := exists_deleteOnline h hbatch limits (lt_succ_self (total cl db)) 0
    obtain ⟨ls, hrun, limit, hend⟩ := run_of_deleteOnline hfin
    exact ⟨_, fin, hfin, (run_ok h hbatch hdb hsame hrun).final h hbatch hdb hsame hend⟩
  intro ls db₁ hrun limit db₂ htx
  exact (deleteTx_ok h hbatch hsame (run_ok h hbatch hdb hsame hrun) htx).2

/-- Keys with their texts; those of type `character` are equal without their last blanks. -/
def spelled : KeyType (Nat × String) where
  text := Prod.snd
  same := fun a b => a.1 = b.1
  same_symm := by simp [eq_comm]
  same_trans := by
    intro a b c hab hbc
    simp_all

/-- Orders with a text as key, their lines and the lines' taxes. -/
def codedOrders : Class where
  name := "orders"
  category := .completedHistory
  root := { name := "orders", pk := "id", columns := [("id", .text), ("done_at", .timestamptz)] }
  children :=
    [{ name := "lines", pk := "id", fk := "order_id",
       columns := [("id", .int8), ("order_id", .text)] },
     { name := "taxes", key := ["line_id", "code"], fk := "line_id", parent := "lines",
       columns := [("line_id", .int8), ("code", .text)] }]
  anchor := "done_at"
  created := "done_at"
  terminal := "r.done_at IS NOT NULL"
  residenceDays := 90
  retention := { minDays := 3650, maxDays := 3650, basis := "law" }
  routes := [.postgres]
  schemaVersion := "1"
  holdOperation := "orders.hold"
  approveOperation := "orders.approve"

/-- Order 1 with a line and its tax; the line has the order's key in a text of its own. -/
def oneOrder (key : String) : Db (Nat × String)
  | "orders" => [⟨0, [("id", (1, "A1"))]⟩]
  | "lines" => [⟨0, [("id", (5, "5")), ("order_id", (1, key))]⟩]
  | "taxes" => [⟨0, [("line_id", (5, "5"))]⟩]
  | _ => []

theorem oneOrder_intact (key : String) : Intact spelled codedOrders (oneOrder key) where
  places := by
    intro name
    unfold oneOrder
    split <;> simp
  keys := by
    intro t _ _ q hq q' hq' _ _ _ _ _
    unfold oneOrder at hq hq'
    split at hq <;> simp_all
  parents := by
    intro ch hch r hr _
    simp only [codedOrders, mem_cons, not_mem_nil, or_false] at hch
    rcases hch with rfl | rfl
    · refine ⟨_, rfl, _, mem_singleton.2 rfl, ?_⟩
      cases mem_singleton.1 hr
      rfl
    refine ⟨_, rfl, _, mem_singleton.2 rfl, ?_⟩
    cases mem_singleton.1 hr
    rfl

theorem order_deleted : (∀ limits : Nat → Limit (Nat × String) (batchOf 100), ∃ fuel fin,
      deleteOnline spelled codedOrders ["A1"] limits fuel 0 (oneOrder "A1") = some fin ∧
        ∀ name r, r ∈ fin name ↔ r ∈ oneOrder "A1" name ∧
          ¬ OfUnit spelled codedOrders ["A1"] (oneOrder "A1") name r) ∧
    (∀ (ls : List (Limit (Nat × String) (batchOf 100))) db₁,
      run (deleteStep spelled codedOrders ["A1"]) (oneOrder "A1") ls = some db₁ →
        ∀ (limit : Limit (Nat × String) (batchOf 100)) db₂,
          deleteTx spelled codedOrders ["A1"] limit db₁ = some db₂ →
            ParentsLast spelled codedOrders db₁ db₂) := by
  refine (unit_deleted_iff spelled codedOrders 30 [] (by decide) (by decide) 100 ["A1"]
    (oneOrder "A1") (oneOrder_intact "A1")).2 ?_
  intro ch hch hunder r hr root hroot _
  simp only [codedOrders, mem_cons, not_mem_nil, or_false] at hch
  rcases hch with rfl | rfl
  · cases mem_singleton.1 hr
    cases mem_singleton.1 hroot
    exact Iff.rfl
  cases hunder

/-- Where it has another one, the order is deleted and its line stays. -/
theorem line_left_behind : codedOrders.check 30 [] = [] ∧
    (codedOrders.tables.map Table.name).Nodup ∧
    Intact spelled codedOrders (oneOrder "A1 ") ∧
    Belongs spelled codedOrders (oneOrder "A1 ") codedOrders.children[0]
      ⟨0, [("id", (5, "5")), ("order_id", (1, "A1 "))]⟩ ⟨0, [("id", (1, "A1"))]⟩ ∧
    (deleteOnline spelled codedOrders ["A1"] (fun _ => .first _ (batchOf 100)) 2 0
      (oneOrder "A1 ")).map (fun fin => (fin "orders", fin "lines")) =
        some ([], [⟨0, [("id", (5, "5")), ("order_id", (1, "A1 "))]⟩]) := by
  refine ⟨by decide, by decide, oneOrder_intact "A1 ", ?_, by decide⟩
  exact .root rfl (mem_singleton.2 rfl) rfl

end BeSdk.Tiering.Online

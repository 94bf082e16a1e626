import Mathlib.Data.List.Induction
import Mathlib.Data.List.Sort

/-!
# Lists read element by element

Lists that are read through a partial function, and lists that are sorted by a key.  Two questions
come up for both: whether every element came through, and whether it did once.

* `mapM` into `Option` is a `Forall₂` (`mapM_eq_some`), so that an element on either side has its
  partner on the other; it does not see the order (`exists_mapM_perm`).
* Two elements of one place in an order can be inserted either way round
  (`exists_orderedInsert_swap`).
-/

namespace Gather

open List Option

variable {α β : Type*}

variable {l : List α} {f : α → Option β}

theorem mapM_eq_some {l' : List β} :
    l.mapM f = some l' ↔ Forall₂ (fun a b => f a = some b) l l' := by
  induction l generalizing l' with
  | nil => cases l' <;> simp
  | cons a l ih =>
    simp only [mapM_cons, bind_eq_bind, bind_eq_some_iff, forall₂_cons_left_iff, ih]
    constructor
    · rintro ⟨b, hb, bs, hbs, h⟩
      cases h
      exact ⟨b, bs, hb, hbs, rfl⟩
    rintro ⟨b, bs, hb, hbs, rfl⟩
    exact ⟨b, hb, bs, hbs, rfl⟩

section Forall
variable {R S : α → β → Prop} {l : List α} {l' : List β}

section
variable (h : Forall₂ R l l')
include h

theorem exists_of_mem_left {a : α} (ha : a ∈ l) : ∃ b ∈ l', R a b := by
  induction h with
  | nil => cases ha
  | cons hab _ ih =>
    rcases mem_cons.1 ha with rfl | ha
    · exact ⟨_, mem_cons_self, hab⟩
    obtain ⟨b, hb, hf⟩ := ih ha
    exact ⟨b, mem_cons_of_mem _ hb, hf⟩

theorem exists_of_mem_right {b : β} (hb : b ∈ l') : ∃ a ∈ l, R a b :=
  exists_of_mem_left h.flip hb

theorem forall₂_imp_mem (himp : ∀ a b, a ∈ l → b ∈ l' → R a b → S a b) : Forall₂ S l l' := by
  induction h with
  | nil => exact .nil
  | cons hab _ ih =>
    refine .cons (himp _ _ mem_cons_self mem_cons_self hab) (ih ?_)
    intro a b ha hb
    exact himp a b (mem_cons_of_mem _ ha) (mem_cons_of_mem _ hb)

theorem map_eq_of_forall₂ {γ : Type*} {g : α → γ} {g' : β → γ}
    (heq : ∀ a b, R a b → g' b = g a) : l'.map g' = l.map g := by
  induction h with
  | nil => rfl
  | cons hab _ ih => rw [map_cons, map_cons, heq _ _ hab, ih]

end
end Forall

theorem exists_of_mem_mapM {l' : List β} (h : l.mapM f = some l')
    {b : β} (hb : b ∈ l') : ∃ a ∈ l, f a = some b :=
  exists_of_mem_right (mapM_eq_some.1 h) hb

variable {a : α}

theorem mem_of_mem_mapM {l' : List β} (h : l.mapM f = some l')
    (ha : a ∈ l) : ∃ b ∈ l', f a = some b :=
  exists_of_mem_left (mapM_eq_some.1 h) ha

/-- The entry of a key that is there once. -/
theorem lookup_eq_some_iff_mem [BEq α] [LawfulBEq α] {l : List (α × β)}
    (hnodup : (l.map Prod.fst).Nodup) {b : β} : l.lookup a = some b ↔ (a, b) ∈ l := by
  induction l with
  | nil => simp
  | cons p l ih =>
    obtain ⟨hp, hl⟩ := nodup_cons.1 hnodup
    rw [lookup_cons]
    by_cases ha : a = p.1
    · subst ha
      have hnot : (p.1, b) ∉ l := fun hmem => hp (mem_map.2 ⟨_, hmem, rfl⟩)
      simp [hnot, Prod.ext_iff, eq_comm]
    have hne : (a, b) ≠ p := fun heq => ha (congrArg Prod.fst heq)
    rw [beq_false_of_ne ha, mem_cons, or_iff_right hne]
    exact ih hl

variable {r : α → α → Prop}

theorem mapM_eq_some_filterMap (h : ∀ a ∈ l, (f a).isSome) : l.mapM f = some (l.filterMap f) := by
  induction l with
  | nil => rfl
  | cons a l ih =>
    obtain ⟨ha, hl⟩ := forall_mem_cons.1 h
    obtain ⟨b, hb⟩ := isSome_iff_exists.1 ha
    simp [hb, ih hl]

theorem mapM_isSome_iff : (l.mapM f).isSome ↔ ∀ a ∈ l, (f a).isSome := by
  constructor
  · intro h a ha
    obtain ⟨l', hl'⟩ := isSome_iff_exists.1 h
    obtain ⟨b, -, hb⟩ := mem_of_mem_mapM hl' ha
    simp [hb]
  intro h
  rw [mapM_eq_some_filterMap h]
  rfl

/-- At most one element of a list has a property that tells elements apart. -/
theorem filter_eq_toList_find? {p : α → Bool} (hnodup : l.Nodup)
    (h : ∀ a ∈ l, ∀ b ∈ l, p a = true → p b = true → a = b) : l.filter p = (l.find? p).toList := by
  induction l with
  | nil => rfl
  | cons a l ih =>
    obtain ⟨hmem, hnodup⟩ := nodup_cons.1 hnodup
    cases hp : p a with
    | true =>
      have hrest : l.filter p = [] := by
        rw [filter_eq_nil_iff]
        intro b hb hpb
        exact hmem (h a (by simp) b (by simp [hb]) hp hpb ▸ hb)
      simp [hp, hrest]
    | false =>
      have hrest := ih hnodup fun a ha b hb => h a (mem_cons_of_mem _ ha) b (mem_cons_of_mem _ hb)
      simp [hp, hrest]

/-- A variable that takes every element with a property ends with the last one. -/
theorem foldl_keep_last (p : α → Bool) (l : List α) (init : Option α) :
    l.foldl (fun m a => if p a then some a else m) init = (l.filter p).getLast?.or init := by
  induction l generalizing init with
  | nil => rfl
  | cons a l ih =>
    rw [foldl_cons, ih]
    cases hp : p a with
    | true =>
      rw [filter_cons_of_pos hp, getLast?_cons, if_pos rfl]
      cases (l.filter p).getLast? <;> rfl
    | false => rw [filter_cons_of_neg (by simp [hp]), if_neg Bool.false_ne_true]

def IsBest (lt : β → β → Prop) (s : β → Prop) : Option β → Prop
  | none => ∀ b, ¬ s b
  | some m => s m ∧ ∀ b, s b → ¬ lt b m

/-- A variable that takes every better value ends with the best one. -/
theorem foldl_best (lt : β → β → Prop) [DecidableRel lt] (hirrefl : ∀ b, ¬ lt b b)
    (htrans : ∀ a b c, lt a b → lt b c → lt a c) (p : α → Prop) [DecidablePred p] (f : α → β)
    (l : List α) : IsBest lt (fun b => ∃ a ∈ l, p a ∧ f a = b) (l.foldl (fun best a =>
      if p a ∧ best.all (fun b => lt (f a) b) then some (f a) else best) none) := by
  induction l using List.reverseRecOn with
  | nil => simp [IsBest]
  | append_singleton l a ih =>
    rw [foldl_append, foldl_cons, foldl_nil]
    simp only [mem_append, mem_singleton, or_and_right, exists_or, exists_eq_left]
    generalize l.foldl _ none = best at ih ⊢
    by_cases hp : p a
    · cases best with
      | none =>
        simp only [hp, true_and, all_none, if_true]
        refine ⟨.inr rfl, ?_⟩
        rintro b (hb | rfl)
        · exact absurd hb (ih b)
        exact hirrefl _
      | some m =>
        obtain ⟨hm, hbest⟩ := ih
        simp only [hp, true_and, all_some, decide_eq_true_eq]
        split
        next hlt =>
          refine ⟨.inr rfl, ?_⟩
          rintro b (hb | rfl)
          · exact fun hlt' => hbest b hb (htrans _ _ _ hlt' hlt)
          exact hirrefl _
        rename_i hlt
        refine ⟨.inl hm, ?_⟩
        rintro b (hb | rfl)
        · exact hbest b hb
        exact hlt
    simpa only [hp, false_and, or_false, if_false] using ih

/-- A list that can be read element by element, and then again with the element at hand, is read as
a whole. -/
theorem exists_mapM_zip {γ : Type*} {g : α → β → Option γ} {R : α → γ → Prop}
    (h : ∀ a ∈ l, ∃ b c, f a = some b ∧ g a b = some c ∧ R a c) :
    ∃ bs cs, l.mapM f = some bs ∧ ((l.zip bs).mapM fun p => g p.1 p.2) = some cs ∧
      Forall₂ R l cs := by
  simp only [mapM_eq_some]
  induction l with
  | nil => exact ⟨[], [], .nil, .nil, .nil⟩
  | cons a l ih =>
    obtain ⟨⟨b, c, hb, hc, hR⟩, htail⟩ := forall_mem_cons.1 h
    obtain ⟨bs, cs, hbs, hcs, hall⟩ := ih htail
    exact ⟨b :: bs, c :: cs, .cons hb hbs, .cons hc hcs, .cons hR hall⟩

theorem exists_mapM_mapM {γ : Type*} {g : β → Option γ} {R : α → γ → Prop}
    (h : ∀ a ∈ l, ∃ b c, f a = some b ∧ g b = some c ∧ R a c) :
    ∃ bs cs, l.mapM f = some bs ∧ bs.mapM g = some cs ∧ Forall₂ R l cs := by
  obtain ⟨bs, cs, hbs, hcs, hall⟩ := exists_mapM_zip (g := fun _ => g) h
  refine ⟨bs, cs, hbs, ?_, hall⟩
  rwa [← map_snd_zip (mapM_eq_some.1 hbs).length_eq.ge, mapM_map]

/-- An element that stands before all of a sorted list is inserted before those with its key. -/
theorem pairwise_orderedInsert {κ : Type*} [LinearOrder κ] (key : α → κ)
    (hl : l.Pairwise fun x y => key x < key y ∨ key x = key y ∧ r x y) (ha : ∀ b ∈ l, r a b) :
    (l.orderedInsert (fun x y => key x ≤ key y) a).Pairwise fun x y =>
      key x < key y ∨ key x = key y ∧ r x y := by
  induction l with
  | nil => exact pairwise_singleton _ _
  | cons b l ih =>
    obtain ⟨hb, hl'⟩ := pairwise_cons.1 hl
    obtain ⟨hab, ha'⟩ := forall_mem_cons.1 ha
    rw [orderedInsert_cons]
    split
    next hle =>
      refine pairwise_cons.2 ⟨?_, hl⟩
      intro c hc
      have hkey : key a ≤ key c := by
        rcases mem_cons.1 hc with rfl | hc'
        · exact hle
        rcases hb c hc' with hlt | ⟨heq, -⟩
        · exact hle.trans hlt.le
        exact hle.trans heq.le
      rcases hkey.lt_or_eq with hlt | heq
      · exact .inl hlt
      exact .inr ⟨heq, ha c hc⟩
    rename_i hlt
    refine pairwise_cons.2 ⟨?_, ih hl' ha'⟩
    intro c hc
    rcases (mem_orderedInsert _).1 hc with rfl | hc'
    · exact .inl (not_le.1 hlt)
    exact hb c hc'

/-- A sort by keys is stable: elements of one key stay in their order. -/
theorem pairwise_insertionSort {κ : Type*} [LinearOrder κ] (key : α → κ) (hl : l.Pairwise r) :
    (l.insertionSort fun x y => key x ≤ key y).Pairwise fun x y =>
      key x < key y ∨ key x = key y ∧ r x y := by
  induction l with
  | nil => exact Pairwise.nil
  | cons a l ih =>
    obtain ⟨ha, hl'⟩ := pairwise_cons.1 hl
    refine pairwise_orderedInsert key (ih hl') fun b hb => ha b ?_
    exact (perm_insertionSort _ l).mem_iff.1 hb

end Gather

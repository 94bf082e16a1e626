import BeSdk.Listing.Build

/-!
# Search columns

`search/search.go`: a column holds, for each of its values, the folded text, its full pinyin and its
initials, joined by U+001F, and a query matches when it is part of one of these.  The list asks the
database instead, with LIKE over the whole column.  Since a folded query has no U+001F, what it is
found in is a part.
-/

namespace BeSdk.Listing

open List

def sep : Char := '\x1f'

/-- Unicode and the protocol's table. -/
structure Folding where
  -- NFKC, then lower case
  normal : List Char → List Char
  -- Cc or Cf
  dropped : Char → Bool
  dropped_sep : dropped sep = true
  space : Char → Bool
  -- the pinyin of a character: its first letter, and the others
  pinyin : Char → Option (Char × List Char)

namespace Folding

variable (F : Folding)

def fold (s : String) : List Char := (F.normal s.toList).filter fun c => ¬ F.dropped c

/-- The three parts of a value. -/
def parts (v : String) : List (List Char) :=
  let f := F.fold v
  [f, f.flatMap fun r => ((F.pinyin r).map fun (i, p) => i :: p).getD [r],
    f.map fun r => ((F.pinyin r).map Prod.fst).getD r]

/-- Text is the search column of some field values. -/
def text (values : List String) : String :=
  String.ofList ([sep].intercalate (values.flatMap F.parts))

/-- Query normalizes a query; empty means no condition. -/
def query (q : String) : String :=
  String.ofList ((((F.fold q).dropWhile F.space).reverse.dropWhile F.space).reverse)

/-- Match reports whether q matches a search column. -/
def «match» (text q : String) : Bool :=
  let n := F.query q
  n = "" || (text.toList.splitOn sep).any fun part => n.toList <:+: part

end Folding

section
variable {α : Type*} {x : α} {n l r : List α}

/-- What has no separator is found on one side of it. -/
theorem infix_append_cons_iff (hx : x ∉ n) (hn : n ≠ []) :
    n <:+: l ++ x :: r ↔ n <:+: l ∨ n <:+: r := by
  constructor
  · intro h
    rcases infix_append_iff_ne_nil.1 h with h | h | ⟨l₁, l₂, -, hne, rfl, -, hprefix⟩
    · exact .inl h
    · rcases infix_cons_iff.1 h with hprefix | h
      · rcases prefix_cons_iff.1 hprefix with rfl | ⟨t, rfl, -⟩
        · exact absurd rfl hn
        exact absurd mem_cons_self hx
      exact .inr h
    rcases prefix_cons_iff.1 hprefix with rfl | ⟨t, rfl, -⟩
    · exact absurd rfl hne
    exact absurd (mem_append_right _ mem_cons_self) hx
  rintro (h | h)
  · exact h.trans (prefix_append ..).isInfix
  exact h.trans ((suffix_cons ..).trans (suffix_append ..)).isInfix

theorem infix_intercalate_iff (hx : x ∉ n) (hn : n ≠ []) {ls : List (List α)} :
    n <:+: [x].intercalate ls ↔ ∃ l ∈ ls, n <:+: l := by
  induction ls with
  | nil => simp [hn]
  | cons l ls ih =>
    cases ls with
    | nil => simp
    | cons l' ls =>
      rw [intercalate_cons_cons, append_assoc, singleton_append, infix_append_cons_iff hx hn, ih]
      simp

end

theorem like_likePattern (n t : String) :
    Like.like (likePattern n).toList t.toList = true ↔ n.toList <:+: t.toList := by
  have hpattern : (likePattern n).toList = '%' :: (Like.escape n.toList ++ ['%']) := by
    simp [likePattern, Authz.likeEscape]
  rw [hpattern, Like.like, any_eq_true, infix_iff_prefix_suffix]
  simp only [mem_tails, Like.like_escape]
  constructor
  · rintro ⟨t', hsuffix, t'', rfl, -⟩
    exact ⟨_, prefix_append _ _, hsuffix⟩
  rintro ⟨_, ⟨t'', rfl⟩, hsuffix⟩
  exact ⟨_, hsuffix, t'', rfl, Like.like_percent t''⟩

theorem Folding.sep_not_mem_query (F : Folding) (q : String) : sep ∉ (F.query q).toList := by
  intro h
  rw [query, String.toList_ofList, mem_reverse] at h
  have htrim := mem_reverse.1 ((dropWhile_sublist _).subset h)
  have hfold := (dropWhile_sublist _).subset htrim
  simpa [F.dropped_sep] using (mem_filter.1 hfold).2

/-- LIKE over the column answers as Match does, and what is found is found in a part of a value. -/
theorem like_eq_match (F : Folding) (values : List String) (q : String) :
    Like.like (likePattern (F.query q)).toList (F.text values).toList = F.match (F.text values) q ∧
    sep ∉ (F.query q).toList ∧ (F.query q ≠ "" → (F.match (F.text values) q = true ↔
      ∃ v ∈ values, ∃ part ∈ F.parts v, (F.query q).toList <:+: part)) := by
  have hsep := F.sep_not_mem_query q
  by_cases hempty : F.query q = ""
  · refine ⟨?_, hsep, absurd hempty⟩
    rw [Bool.eq_iff_iff, like_likePattern, Folding.match, hempty]
    simp
  have hne : (F.query q).toList ≠ [] := by simpa using hempty
  have hmatch : F.match (F.text values) q = true ↔
      (F.query q).toList <:+: (F.text values).toList := by
    have hsplit : [sep].intercalate ((F.text values).toList.splitOn sep) =
        (F.text values).toList := intercalate_splitOn sep
    rw [← hsplit, infix_intercalate_iff hsep hne]
    simp [Folding.match, hempty]
  refine ⟨by rw [Bool.eq_iff_iff, like_likePattern, hmatch], hsep, fun _ => ?_⟩
  rw [hmatch, Folding.text, String.toList_ofList, infix_intercalate_iff hsep hne]
  constructor
  · rintro ⟨part, hpart, hinfix⟩
    obtain ⟨v, hv, hpart⟩ := mem_flatMap.1 hpart
    exact ⟨v, hv, part, hpart, hinfix⟩
  rintro ⟨v, hv, part, hpart, hinfix⟩
  exact ⟨part, mem_flatMap.2 ⟨v, hv, hpart⟩, hinfix⟩

/-- Unicode for ASCII texts. -/
def ascii : Folding where
  normal s := s.map Char.toLower
  dropped c := c.toNat < 32
  dropped_sep := by decide
  space c := c = ' '
  pinyin _ := none

/-- The wildcards of a query stand for themselves. -/
theorem like_eq_match_of_wildcards :
    let text := ascii.text ["x", "15%_\\ab"]
    let q := "5%_\\A"
    Like.like (likePattern (ascii.query q)).toList text.toList = ascii.match text q ∧
      ascii.match text q = true ∧ ascii.match (ascii.text ["15a\\ab"]) q = false :=
  ⟨(like_eq_match ascii _ _).1, by decide +kernel, by decide +kernel⟩

end BeSdk.Listing

import Mathlib.Data.List.Infix

/-!
# LIKE patterns

`LIKE pattern ESCAPE '\'`: `%` stands for any text, `_` for one character, and the character after a
backslash for itself.  A text escaped by `escape` matches itself and nothing else, so a pattern that
ends in `%` after it matches exactly the texts it begins (`like_escape_append`).
-/

namespace Like

/-- The text matches the pattern.  (A pattern that ends in its escape character is refused by the
database; here it stands for itself.) -/
def like : List Char → List Char → Bool
  | [], t => t.isEmpty
  | '%' :: p, t => t.tails.any fun t' => like p t'
  | '_' :: p, t => t.any (fun _ => true) && like p t.tail
  | '\\' :: c :: p, t => t.head? = some c && like p t.tail
  | c :: p, t => t.head? = some c && like p t.tail

/-- The backslash before every character with a meaning of its own. -/
def escape (s : List Char) : List Char :=
  s.flatMap fun c => if c = '\\' ∨ c = '%' ∨ c = '_' then ['\\', c] else [c]

theorem like_plain {c : Char} (hplain : ¬ (c = '\\' ∨ c = '%' ∨ c = '_')) (p t : List Char) :
    like (c :: p) t = (t.head? = some c && like p t.tail) := by
  push Not at hplain
  obtain ⟨hback, hpercent, hunder⟩ := hplain
  rw [like]
  · exact hpercent
  · exact hunder
  exact fun _ _ h _ => hback h

theorem head_tail_iff {c : Char} {p t : List Char} :
    (t.head? = some c && like p t.tail) = true ↔ ∃ t', t = c :: t' ∧ like p t' = true := by
  cases t with
  | nil => simp
  | cons c' t =>
    simp only [List.head?_cons, Option.some.injEq, List.tail_cons, Bool.and_eq_true,
      decide_eq_true_eq, List.cons.injEq]
    constructor
    · rintro ⟨rfl, h⟩
      exact ⟨t, ⟨rfl, rfl⟩, h⟩
    rintro ⟨t', ⟨rfl, rfl⟩, h⟩
    exact ⟨rfl, h⟩

theorem like_escape (s p t : List Char) :
    like (escape s ++ p) t = true ↔ ∃ t', t = s ++ t' ∧ like p t' = true := by
  induction s generalizing t with
  | nil => simp [escape]
  | cons c s ih =>
    have hstep : like (escape (c :: s) ++ p) t =
        (t.head? = some c && like (escape s ++ p) t.tail) := by
      by_cases hplain : c = '\\' ∨ c = '%' ∨ c = '_'
      · simp [escape, hplain, like]
      have happend : escape (c :: s) ++ p = c :: (escape s ++ p) := by simp [escape, hplain]
      rw [happend, like_plain hplain]
    rw [hstep, head_tail_iff]
    constructor
    · rintro ⟨t', rfl, hlike⟩
      obtain ⟨t'', rfl, hrest⟩ := (ih t').1 hlike
      exact ⟨t'', rfl, hrest⟩
    rintro ⟨t', rfl, hlike⟩
    exact ⟨s ++ t', rfl, (ih _).2 ⟨t', rfl, hlike⟩⟩

theorem like_percent (t : List Char) : like ['%'] t = true := by
  simp only [like, List.any_eq_true]
  exact ⟨[], by simp, rfl⟩

/-- **Beginnings.**  An escaped text and a plain character before a final `%`. -/
theorem like_escape_append {c : Char} (hplain : ¬ (c = '\\' ∨ c = '%' ∨ c = '_'))
    (s t : List Char) : like (escape s ++ [c, '%']) t = true ↔ s ++ [c] <+: t := by
  rw [like_escape]
  constructor
  · rintro ⟨t', rfl, hlike⟩
    rw [like_plain hplain, head_tail_iff] at hlike
    obtain ⟨t'', rfl, -⟩ := hlike
    exact ⟨t'', by simp⟩
  rintro ⟨t', rfl⟩
  refine ⟨c :: t', by simp, ?_⟩
  rw [like_plain hplain, head_tail_iff]
  exact ⟨t', rfl, like_percent t'⟩

end Like

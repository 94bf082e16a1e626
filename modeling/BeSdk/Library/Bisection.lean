import Mathlib.Tactic.Ring

/-!
# Halving an interval

A search that halves an interval of whole numbers as long as it is longer than one: where the
predicate holds in the middle the search goes on above it, otherwise below.  Nothing is assumed of
the predicate, so the search need not end where the predicate first fails.

What can be said without that: the end lies in the interval (`search_mem`), it is a number where the
predicate fails right after one where it holds (`search_crosses`), and it is a given number exactly
when the predicate tells, of each number in the middle on the way there, on which side of that
number it lies (`search_eq_iff`).
-/

namespace Bisection

def middle (lo hi : Int) : Int := lo + (hi - lo) / 2

/-- The loop, for as many turns as there is fuel. -/
def loop (p : Int → Bool) : Nat → Int → Int → Int
  | 0, _, hi => hi
  | fuel + 1, lo, hi =>
    if 1 < hi - lo then
      if p (middle lo hi) then loop p fuel (middle lo hi) hi else loop p fuel lo (middle lo hi)
    else hi

/-- The numbers in the middle on the way to `x`. -/
def path (x : Int) : Nat → Int → Int → List Int
  | 0, _, _ => []
  | fuel + 1, lo, hi =>
    if 1 < hi - lo then
      middle lo hi ::
        if middle lo hi < x then path x fuel (middle lo hi) hi else path x fuel lo (middle lo hi)
    else []

/-- Turns that suffice for an interval. -/
def turns (lo hi : Int) : Nat := (hi - lo).toNat.log2 + 1

def search (p : Int → Bool) (lo hi : Int) : Int := loop p (turns lo hi) lo hi

/-- The numbers that a search which ends at `x` asks the predicate of. -/
def probes (x lo hi : Int) : List Int := path x (turns lo hi) lo hi

section Loop
variable {p : Int → Bool} {fuel : Nat} {lo hi x : Int}

theorem lt_middle (h : 1 < hi - lo) : lo < middle lo hi ∧ middle lo hi < hi := by
  unfold middle
  omega

theorem halves_le (h : (hi - lo).toNat ≤ 2 ^ (fuel + 1)) :
    (hi - middle lo hi).toNat ≤ 2 ^ fuel ∧ (middle lo hi - lo).toNat ≤ 2 ^ fuel := by
  rw [pow_succ] at h
  unfold middle
  omega

theorem loop_mem (h : lo < hi) : lo < loop p fuel lo hi ∧ loop p fuel lo hi ≤ hi := by
  induction fuel generalizing lo hi with
  | zero => exact ⟨h, le_rfl⟩
  | succ fuel ih =>
    unfold loop
    split_ifs with hlong hp
    · obtain ⟨hlt, hlt'⟩ := lt_middle hlong
      obtain ⟨hge, hle⟩ := ih hlt'
      exact ⟨hlt.trans hge, hle⟩
    · obtain ⟨hlt, hlt'⟩ := lt_middle hlong
      obtain ⟨hge, hle⟩ := ih hlt
      exact ⟨hge, hle.trans hlt'.le⟩
    exact ⟨h, le_rfl⟩

theorem loop_crosses (hfuel : (hi - lo).toNat ≤ 2 ^ fuel) (h : lo < hi) (hlo : p lo = true)
    (hhi : p hi = false) : p (loop p fuel lo hi - 1) = true ∧ p (loop p fuel lo hi) = false := by
  induction fuel generalizing lo hi with
  | zero =>
    have hone : hi - 1 = lo := by
      rw [pow_zero] at hfuel
      omega
    exact ⟨hone ▸ hlo, hhi⟩
  | succ fuel ih =>
    obtain ⟨habove, hbelow⟩ := halves_le hfuel
    unfold loop
    split_ifs with hlong hp
    · exact ih habove (lt_middle hlong).2 hp hhi
    · exact ih hbelow (lt_middle hlong).1 hlo (Bool.eq_false_of_not_eq_true hp)
    have hone : hi - 1 = lo := by omega
    exact ⟨hone ▸ hlo, hhi⟩

theorem loop_eq_iff (hfuel : (hi - lo).toNat ≤ 2 ^ fuel) (hlo : lo < x) (hhi : x ≤ hi) :
    loop p fuel lo hi = x ↔ ∀ m ∈ path x fuel lo hi, (p m = true ↔ m < x) := by
  induction fuel generalizing lo hi with
  | zero =>
    rw [pow_zero] at hfuel
    have hx : hi = x := by omega
    simp [loop, path, hx]
  | succ fuel ih =>
    obtain ⟨habove, hbelow⟩ := halves_le hfuel
    unfold loop path
    by_cases hlong : 1 < hi - lo
    · obtain ⟨hlt, hlt'⟩ := lt_middle hlong
      rw [if_pos hlong, if_pos hlong, List.forall_mem_cons]
      -- on the wrong side of the middle the loop does not come to `x` any more
      by_cases hp : p (middle lo hi) = true <;> by_cases hx : middle lo hi < x
      · rw [if_pos hp, if_pos hx, ih habove hx hhi]
        simp [hp, hx]
      · rw [if_pos hp]
        have hend : middle lo hi < loop p fuel (middle lo hi) hi := (loop_mem hlt').1
        have hne : loop p fuel (middle lo hi) hi ≠ x := by omega
        simp [hp, hx, hne]
      · rw [if_neg hp]
        have hend : loop p fuel lo (middle lo hi) ≤ middle lo hi := (loop_mem hlt).2
        have hne : loop p fuel lo (middle lo hi) ≠ x := by omega
        simp [hp, hx, hne]
      rw [if_neg hp, if_neg hx, ih hbelow hlo (not_lt.1 hx)]
      simp [hp, hx]
    have hx : hi = x := by omega
    rw [if_neg hlong, if_neg hlong]
    simp [hx]

end Loop

variable {p : Int → Bool} {lo hi x : Int}

theorem length_le_turns (lo hi : Int) : (hi - lo).toNat ≤ 2 ^ turns lo hi := Nat.lt_log2_self.le

theorem search_mem (h : lo < hi) : lo < search p lo hi ∧ search p lo hi ≤ hi := loop_mem h

theorem search_crosses (h : lo < hi) (hlo : p lo = true) (hhi : p hi = false) :
    p (search p lo hi - 1) = true ∧ p (search p lo hi) = false :=
  loop_crosses (length_le_turns lo hi) h hlo hhi

theorem search_eq_iff (hlo : lo < x) (hhi : x ≤ hi) :
    search p lo hi = x ↔ ∀ m ∈ probes x lo hi, (p m = true ↔ m < x) :=
  loop_eq_iff (length_le_turns lo hi) hlo hhi

end Bisection

import BeSdk.Authz.View
import BeSdk.Events.Resend
import BeSdk.Library.Texts
import Mathlib.Data.List.TakeDrop

/-!
# The orders on epochs

Four functions put epochs in order: `Point.Less` over `events.ParseEpoch`, `compareEpochs` and
`cmpEpoch` over `epochKey` in `projection`, and `epochBefore` in `authz`.  Each reads texts in its
own way; of the texts that `Epoch.String` writes they read the same two numbers.
-/

namespace BeSdk

open Projection List Nat Texts

/-- `Epoch.String`, for numbers that are not negative. -/
def Epoch.string (e : Epoch) : String :=
  String.ofList (toDigits 10 e.generation.toNat ++ '.' :: toDigits 10 e.timeline.toNat)

/-- Both numbers are non-negative ones of 64 bits. -/
structure Epoch.Counts (e : Epoch) : Prop where
  generation : 0 ≤ e.generation ∧ e.generation < 2 ^ 63
  timeline : 0 ≤ e.timeline ∧ e.timeline < 2 ^ 63

section
variable {n : Nat} {cs : List Char}

theorem le_ofDigitChars (cs : List Char) (n : Nat) : n ≤ ofDigitChars 10 cs n := by
  induction cs generalizing n with
  | nil => exact Nat.le_refl n
  | cons c cs ih =>
    rw [ofDigitChars_cons]
    exact le_trans (by omega) (ih _)

theorem parseDigits_eq (hcs : ∀ c ∈ cs, c.isDigit = true) (h : ofDigitChars 10 cs n < 2 ^ 64) :
    parseDigits cs n = .ok (ofDigitChars 10 cs n) := by
  induction cs generalizing n with
  | nil => rfl
  | cons c cs ih =>
    rw [forall_mem_cons] at hcs
    rw [ofDigitChars_cons, Nat.mul_comm] at h ⊢
    have hlt := lt_of_le_of_lt (le_ofDigitChars cs _) h
    rw [parseDigits, if_pos hcs.1, if_pos hlt, ih hcs.2 h]

variable (h : n < 2 ^ 63)
include h

theorem parseUint_toDigits : parseUint (toDigits 10 n) = .ok n := by
  have hof : ofDigitChars 10 (toDigits 10 n) 0 = n := ofDigitChars_ten_toDigits
  rw [parseUint, if_neg toDigits_ne_nil, parseDigits_eq (isDigit_toDigits n) (by omega), hof]

theorem parseInt_toDigits : parseInt (toDigits 10 n) = n := by
  have hclamp : clamp false (toDigits 10 n) = n := by
    simp only [clamp, parseUint_toDigits h]
    omega
  unfold parseInt
  split
  · next heq => exact absurd (isDigit_toDigits n '-' (heq ▸ mem_cons_self)) (by decide)
  · next heq => exact absurd (isDigit_toDigits n '+' (heq ▸ mem_cons_self)) (by decide)
  exact hclamp

theorem parseCount_toDigits : Events.parseCount (toDigits 10 n) = some (n : Int) := by
  have hof : ofDigitChars 10 (toDigits 10 n) 0 = n := ofDigitChars_ten_toDigits
  rw [ofDigitChars] at hof
  simp only [Events.parseCount, hof, h, and_self, if_true]

omit h

variable {e : Epoch}

/-- What the functions that read a text read of an epoch's. -/
theorem Epoch.Counts.read (h : e.Counts) : epochKey e.string = (e.generation, e.timeline) ∧
    parseEpoch e.string = some (e.generation.toNat, e.timeline.toNat) ∧
    Events.parseEpoch e.string = .ok e := by
  obtain ⟨g, t⟩ := e
  obtain ⟨⟨hpos, hg⟩, hpos', ht⟩ := h
  lift g to Nat using hpos
  lift t to Nat using hpos'
  replace hg : g < 2 ^ 63 := by dsimp only at hg; omega
  replace ht : t < 2 ^ 63 := by dsimp only at ht; omega
  have htext : (Epoch.string ⟨g, t⟩).toList = toDigits 10 g ++ '.' :: toDigits 10 t :=
    String.toList_ofList
  have hdot : ∀ c ∈ toDigits 10 g, decide (c ≠ '.') = true := by
    intro c hc
    rw [decide_eq_true_eq]
    rintro rfl
    cases isDigit_toDigits g _ hc
  have htake := congrArg (takeWhile (· ≠ '.')) htext
  have hdrop := congrArg (dropWhile (· ≠ '.')) htext
  rw [takeWhile_append_of_pos hdot, takeWhile_cons_of_neg (by decide), append_nil] at htake
  rw [dropWhile_append_of_pos hdot, dropWhile_cons_of_neg (by decide)] at hdrop
  have hcut : cut (Epoch.string ⟨g, t⟩) = (toDigits 10 g, toDigits 10 t, true) := by
    simp only [cut, htake, hdrop]
  refine ⟨?_, ?_, ?_⟩
  · simp only [epochKey, hcut, parseInt_toDigits hg, parseInt_toDigits ht]
  · simp only [parseEpoch, hcut, parseUint_toDigits hg, parseUint_toDigits ht, Int.toNat_natCast]
  simp only [Events.parseEpoch, span_eq_takeWhile_dropWhile, htake, hdrop, parseCount_toDigits hg,
    parseCount_toDigits ht]

end

/-- The four orders on the texts of two epochs are the order of the epochs. -/
theorem epoch_orders_agree (e o : Epoch) (he : e.Counts) (ho : o.Counts) (seq : Nat) :
    (Events.parseEpoch e.string = .ok e ∧ Events.parseEpoch o.string = .ok o ∧
      Events.Point.less ⟨e, seq⟩ ⟨o, seq⟩ = decide (e < o)) ∧
    compareEpochs e.string o.string = some (compare e o) ∧
    cmpEpoch (epochKey e.string) (epochKey o.string) = compare e o ∧
    Authz.epochBefore e.string o.string = decide (e < o) ∧ (e.string = o.string ↔ e = o) := by
  obtain ⟨hkey, hparse, hevents⟩ := he.read
  obtain ⟨hkey', hparse', hevents'⟩ := ho.read
  have hcmp : cmpEpoch (e.generation, e.timeline) (o.generation, o.timeline) = compare e o := by
    rw [LinearOrder.compare_eq_compareOfLessAndEq, compareOfLessAndEq, cmpEpoch]
    simp only [Epoch.lt_iff, Epoch.ext_iff]
    split_ifs <;> first | rfl | omega
  refine ⟨⟨hevents, hevents', by simp [Events.Point.less]⟩, ?_, by rw [hkey, hkey', hcmp], ?_,
    fun heq => ?_, fun h => h ▸ rfl⟩
  · obtain ⟨⟨hg, -⟩, ht, -⟩ := he
    obtain ⟨⟨hg', -⟩, ht', -⟩ := ho
    rw [← hcmp, cmpEpoch]
    simp only [compareEpochs, hparse, hparse', compare, compareOfLessAndEq]
    split_ifs <;> first | rfl | omega
  · rw [Authz.epochBefore, hkey, hkey', Bool.eq_iff_iff, decide_eq_true_eq, Epoch.lt_iff]
    split_ifs <;> simp only [decide_eq_true_eq] <;> omega
  rw [heq, hevents'] at hevents
  exact (Except.ok.inj hevents).symm

theorem epoch_orders_agree_timelines :
    Authz.epochBefore (Epoch.string ⟨1, 9⟩) (Epoch.string ⟨1, 10⟩) =
      decide ((⟨1, 9⟩ : Epoch) < ⟨1, 10⟩) :=
  (epoch_orders_agree ⟨1, 9⟩ ⟨1, 10⟩ ⟨by decide, by decide⟩ ⟨by decide, by decide⟩ 0).2.2.2.1

end BeSdk

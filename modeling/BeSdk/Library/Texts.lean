import Mathlib.Data.List.GetD
import Mathlib.Data.String.Basic

/-!
# Texts of numbers and bytes

Hexadecimal digits and base64, as the usual libraries write and read them.  A number is written with
a fixed count of digits and is read again up to the numbers that take more; bytes are written three
by three in four digits, the last ones padded, and are read again (`readGroups_base64`).
-/

namespace Texts

open List Option Nat

/-! ## Decimal digits -/

/-- The number of decimal digits, of which there is at least one. -/
def readNat (ds : List Char) : Option Nat :=
  if ds ≠ [] ∧ ds.all Char.isDigit then some (Nat.ofDigitChars 10 ds 0) else none

/-- The integer of decimal digits after an optional sign. -/
def readInt (s : String) : Option Int :=
  match s.toList with
  | '-' :: ds => (readNat ds).map fun n : Nat => -(n : Int)
  | '+' :: ds => (readNat ds).map fun n : Nat => (n : Int)
  | ds => (readNat ds).map fun n : Nat => (n : Int)

theorem isDigit_toDigits (n : Nat) : ∀ c ∈ toDigits 10 n, c.isDigit = true := fun _ hc =>
  isDigit_of_mem_toDigits (by decide) (by decide) hc

theorem readNat_toDigits (n : Nat) : readNat (toDigits 10 n) = some n := by
  have hdigits := all_eq_true.2 (isDigit_toDigits n)
  rw [readNat, if_pos ⟨toDigits_ne_nil, hdigits⟩, ofDigitChars_ten_toDigits]

theorem readInt_digits {s : String} (h : ∀ c ∈ s.toList, c.isDigit = true) :
    readInt s = (readNat s.toList).map fun n : Nat => (n : Int) := by
  rw [readInt]
  split
  · next heq => exact absurd (h '-' (heq ▸ mem_cons_self)) (by decide)
  · next heq => exact absurd (h '+' (heq ▸ mem_cons_self)) (by decide)
  rfl

theorem readInt_repr (n : Int) : readInt n.repr = some n := by
  cases n with
  | ofNat m =>
    rw [Int.repr, readInt_digits, toList_repr, readNat_toDigits]
    · rfl
    rw [toList_repr]
    exact isDigit_toDigits m
  | negSucc m =>
    have hminus : "-".toList = ['-'] := rfl
    rw [Int.repr, readInt, String.toList_append, toList_repr, hminus, singleton_append]
    simp only [readNat_toDigits, map_some]
    rfl

/-! ## Fields of digits -/

def pad (w n : Nat) : List Char :=
  List.replicate (w - (Nat.toDigits 10 n).length) '0' ++ Nat.toDigits 10 n

variable {w n : Nat}

theorem isDigit_of_mem_pad {c : Char} (h : c ∈ pad w n) : c.isDigit = true := by
  rcases mem_append.1 h with h | h
  · rw [eq_of_mem_replicate h]
    rfl
  exact isDigit_toDigits n c h

theorem length_pad (hw : 0 < w) (h : n < 10 ^ w) : (pad w n).length = w := by
  have hle := (length_toDigits_le_iff (b := 10) (by decide) hw).2 h
  rw [pad, length_append, length_replicate]
  omega

theorem lt_length_pad (hw : 0 < w) (h : 10 ^ w ≤ n) : w < (pad w n).length := by
  have hnot := mt (length_toDigits_le_iff (b := 10) (n := n) (by decide) hw).1 (by omega)
  rw [pad, length_append, length_replicate]
  omega

theorem ofDigitChars_pad (w n : Nat) : ofDigitChars 10 (pad w n) 0 = n := by
  rw [pad, ofDigitChars_append, ofDigitChars_replicate_zero, Nat.mul_zero,
    ofDigitChars_ten_toDigits]

/-- The number of so many digits, and what comes after them. -/
def readField (w : Nat) (cs : List Char) : Option (Nat × List Char) :=
  if (cs.take w).length = w ∧ (cs.take w).all Char.isDigit then
    some (Nat.ofDigitChars 10 (cs.take w) 0, cs.drop w)
  else none

theorem readField_pad (hw : 0 < w) (h : n < 10 ^ w) (cs : List Char) :
    readField w (pad w n ++ cs) = some (n, cs) := by
  have htake : (pad w n ++ cs).take w = pad w n := take_left' (length_pad hw h)
  have hall : (pad w n).all Char.isDigit = true := all_eq_true.2 fun c hc => isDigit_of_mem_pad hc
  rw [readField, htake, if_pos ⟨length_pad hw h, hall⟩, ofDigitChars_pad,
    drop_left' (length_pad hw h)]

/-- A number with more digits leaves one of them. -/
theorem readField_pad_of_le (hw : 0 < w) (h : 10 ^ w ≤ n) (cs : List Char) :
    ∃ m c rest, readField w (pad w n ++ cs) = some (m, c :: rest) ∧ c.isDigit = true := by
  have hlt := lt_length_pad hw h
  have htake : (pad w n ++ cs).take w = (pad w n).take w := take_append_of_le_length (le_of_lt hlt)
  have hdrop : (pad w n ++ cs).drop w = (pad w n).drop w ++ cs :=
    drop_append_of_le_length (le_of_lt hlt)
  have hall : ((pad w n).take w).all Char.isDigit = true :=
    all_eq_true.2 fun c hc => isDigit_of_mem_pad (mem_of_mem_take hc)
  have hlength : ((pad w n).take w).length = w := by
    rw [length_take]
    omega
  cases hrest : (pad w n).drop w with
  | nil =>
    have := congrArg length hrest
    rw [length_drop, length_nil] at this
    omega
  | cons c rest =>
    have hc : c ∈ pad w n := mem_of_mem_drop (hrest ▸ mem_cons_self)
    refine ⟨ofDigitChars 10 ((pad w n).take w) 0, c, rest ++ cs, ?_, isDigit_of_mem_pad hc⟩
    rw [readField, htake, if_pos ⟨hlength, hall⟩, hdrop, hrest, cons_append]

def readChar (c : Char) : List Char → Option (List Char)
  | d :: cs => if d = c then some cs else none
  | [] => none

@[simp] theorem readChar_cons (c : Char) (cs : List Char) : readChar c (c :: cs) = some cs :=
  if_pos rfl

/-! ## Hexadecimal digits -/

def hexDigit (d : Nat) : Char := "0123456789abcdef".toList.getD d '0'

/-- The value of a digit, also of a capital one. -/
def hexValue (c : Char) : Option Nat :=
  if '0' ≤ c ∧ c ≤ '9' then some (c.toNat - '0'.toNat)
  else if 'a' ≤ c ∧ c ≤ 'f' then some (c.toNat - 'a'.toNat + 10)
  else if 'A' ≤ c ∧ c ≤ 'F' then some (c.toNat - 'A'.toNat + 10)
  else none

/-- The last `n` digits of a number. -/
def hexDigits : Nat → Nat → List Char
  | 0, _ => []
  | n + 1, x => hexDigits n (x / 16) ++ [hexDigit (x % 16)]

def readHex (l : List Char) : Option Nat :=
  l.foldlM (fun acc c => (hexValue c).map fun d => acc * 16 + d) 0

theorem hexValue_hexDigit {d : Nat} (h : d < 16) : hexValue (hexDigit d) = some d := by
  revert d
  decide

theorem hexDigit_ne_hyphen {d : Nat} (h : d < 16) : hexDigit d ≠ '-' := by
  revert d
  decide

theorem readHex_hexDigits (n x : Nat) : readHex (hexDigits n x) = some (x % 16 ^ n) := by
  induction n generalizing x with
  | zero => simp [hexDigits, readHex, mod_one]
  | succ n ih =>
    have hlast := hexValue_hexDigit (mod_lt x (by decide : 16 > 0))
    have hfold : readHex (hexDigits n (x / 16) ++ [hexDigit (x % 16)]) =
        some ((x / 16) % 16 ^ n * 16 + x % 16) := by
      rw [readHex, foldlM_append]
      have hfirst := ih (x / 16)
      rw [readHex] at hfirst
      rw [hfirst]
      simp [hlast]
    rw [hexDigits, hfold, pow_succ', mod_mul]
    congr 1
    omega

@[simp] theorem length_hexDigits (n x : Nat) : (hexDigits n x).length = n := by
  induction n generalizing x with
  | zero => rfl
  | succ n ih => simp [hexDigits, ih]

theorem hyphen_not_mem_hexDigits (n x : Nat) : '-' ∉ hexDigits n x := by
  induction n generalizing x with
  | zero => simp [hexDigits]
  | succ n ih =>
    simp only [hexDigits, mem_append, mem_singleton, not_or]
    exact ⟨ih _, (hexDigit_ne_hyphen (mod_lt x (by decide))).symm⟩

/-- The characters in groups of the lengths, with a hyphen after each; the rest is the last. -/
def hyphenate : List Nat → List Char → List Char
  | [], l => l
  | n :: ns, l => l.take n ++ '-' :: hyphenate ns (l.drop n)

theorem filter_hyphenate (ns : List Nat) {l : List Char} (hl : '-' ∉ l) :
    (hyphenate ns l).filter (fun c => c ≠ '-') = l := by
  have hself : ∀ m : List Char, '-' ∉ m → m.filter (fun c => c ≠ '-') = m := fun m hm =>
    filter_eq_self.2 fun c hc => decide_eq_true fun heq => hm (heq ▸ hc)
  induction ns generalizing l with
  | nil => exact hself l hl
  | cons n ns ih =>
    rw [hyphenate, filter_append, filter_cons_of_neg (by simp),
      hself _ fun hmem => hl (mem_of_mem_take hmem),
      ih fun hmem => hl (mem_of_mem_drop hmem), take_append_drop]

/-! ## base64 -/

def base64Digit (d : Nat) : Char :=
  "ABCDEFGHIJKLMNOPQRSTUVWXYZabcdefghijklmnopqrstuvwxyz0123456789+/".toList.getD d 'A'

def base64Value (c : Char) : Option Nat :=
  "ABCDEFGHIJKLMNOPQRSTUVWXYZabcdefghijklmnopqrstuvwxyz0123456789+/".toList.idxOf? c

theorem base64Value_base64Digit {d : Nat} (h : d < 64) : base64Value (base64Digit d) = some d := by
  revert d
  decide

/-- Bytes three by three in four digits, the last ones padded. -/
def base64 : List UInt8 → List Char
  | [] => []
  | [a] => [base64Digit (a.toNat / 4), base64Digit (a.toNat % 4 * 16), '=', '=']
  | [a, b] =>
    [base64Digit (a.toNat / 4), base64Digit (a.toNat % 4 * 16 + b.toNat / 16),
      base64Digit (b.toNat % 16 * 4), '=']
  | a :: b :: c :: bytes =>
    base64Digit (a.toNat / 4) :: base64Digit (a.toNat % 4 * 16 + b.toNat / 16) ::
      base64Digit (b.toNat % 16 * 4 + c.toNat / 64) :: base64Digit (c.toNat % 64) :: base64 bytes

def readGroups : List Char → Option (List UInt8)
  | [] => some []
  | [w, x, '=', '='] =>
    (base64Value w).bind fun w => (base64Value x).map fun x => [UInt8.ofNat (w * 4 + x / 16)]
  | [w, x, y, '='] =>
    (base64Value w).bind fun w => (base64Value x).bind fun x => (base64Value y).map fun y =>
      [UInt8.ofNat (w * 4 + x / 16), UInt8.ofNat (x % 16 * 16 + y / 4)]
  | w :: x :: y :: z :: rest =>
    (base64Value w).bind fun w => (base64Value x).bind fun x => (base64Value y).bind fun y =>
      (base64Value z).bind fun z => (readGroups rest).map fun bytes =>
        UInt8.ofNat (w * 4 + x / 16) :: UInt8.ofNat (x % 16 * 16 + y / 4) ::
          UInt8.ofNat (y % 4 * 64 + z) :: bytes
  | _ => none

theorem base64Digit_ne {c : Char} (hc : base64Value c = none) (d : Nat) : base64Digit d ≠ c := by
  rintro rfl
  by_cases hd : d < 64
  · rw [base64Value_base64Digit hd] at hc
    cases hc
  have hlength : "ABCDEFGHIJKLMNOPQRSTUVWXYZabcdefghijklmnopqrstuvwxyz0123456789+/".toList.length
      = 64 := by decide
  rw [base64Digit, getD_eq_default _ _ (by omega)] at hc
  exact absurd hc (by decide)

theorem base64Digit_ne_pad (d : Nat) : base64Digit d ≠ '=' := base64Digit_ne (by decide) d

theorem readGroups_base64 (bytes : List UInt8) : readGroups (base64 bytes) = some bytes := by
  induction bytes using base64.induct with
  | case1 => rfl
  | case2 a =>
    have ha := a.toNat_lt
    rw [base64, readGroups, base64Value_base64Digit (by omega), base64Value_base64Digit (by omega)]
    simp only [bind_some, map_some]
    rw [show a.toNat / 4 * 4 + a.toNat % 4 * 16 / 16 = a.toNat by omega, UInt8.ofNat_toNat]
  | case3 a b =>
    have ha := a.toNat_lt
    have hb := b.toNat_lt
    rw [base64, readGroups, base64Value_base64Digit (by omega),
      base64Value_base64Digit (by omega), base64Value_base64Digit (by omega)]
    simp only [bind_some, map_some]
    rw [show a.toNat / 4 * 4 + (a.toNat % 4 * 16 + b.toNat / 16) / 16 = a.toNat by omega,
      show (a.toNat % 4 * 16 + b.toNat / 16) % 16 * 16 + b.toNat % 16 * 4 / 4 = b.toNat by omega,
      UInt8.ofNat_toNat, UInt8.ofNat_toNat]
    exact fun h => absurd h (base64Digit_ne_pad _)
  | case4 a b c bytes ih =>
    have ha := a.toNat_lt
    have hb := b.toNat_lt
    have hc := c.toNat_lt
    rw [base64, readGroups, base64Value_base64Digit (by omega),
      base64Value_base64Digit (by omega), base64Value_base64Digit (by omega),
      base64Value_base64Digit (by omega), ih]
    simp only [bind_some, map_some]
    rw [show a.toNat / 4 * 4 + (a.toNat % 4 * 16 + b.toNat / 16) / 16 = a.toNat by omega,
      show (a.toNat % 4 * 16 + b.toNat / 16) % 16 * 16 +
        (b.toNat % 16 * 4 + c.toNat / 64) / 4 = b.toNat by omega,
      show (b.toNat % 16 * 4 + c.toNat / 64) % 4 * 64 + c.toNat % 64 = c.toNat by omega,
      UInt8.ofNat_toNat, UInt8.ofNat_toNat, UInt8.ofNat_toNat]
    · intro _ hpad
      exact absurd hpad (base64Digit_ne_pad _)
    intro hpad
    exact absurd hpad (base64Digit_ne_pad _)

/-- A character that is neither a digit nor padding is not written. -/
theorem not_mem_base64 {c : Char} (hc : base64Value c = none) (hpad : c ≠ '=') (b : List UInt8) :
    c ∉ base64 b := by
  have hdigit : ∀ d, c ≠ base64Digit d := fun d => (base64Digit_ne hc d).symm
  induction b using base64.induct with
  | case1 => simp [base64]
  | case2 a | case3 a b => simp [base64, hdigit, hpad]
  | case4 a b c bytes ih => simp [base64, hdigit, ih]

end Texts

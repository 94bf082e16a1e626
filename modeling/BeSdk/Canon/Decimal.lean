import Mathlib.Data.Nat.Digits.Defs

/-!
# Decimals

The decimals of the apd library as `canon` and `authz` use them, and the numbers they stand for,
which are also those of PostgreSQL's `numeric`: the rationals with the two infinities.  How a text
is read is the library's own business and a parameter wherever it matters; what `canon.Decimal`
refuses of a decimal that was read is modelled here.
-/

namespace BeSdk.Canon

/-- The rationals with both infinities. -/
abbrev Number := WithBot (WithTop ℚ)

inductive Form
  | finite | infinite | nan
deriving DecidableEq, Repr

structure Decimal where
  form : Form
  negative : Bool
  coeff : Nat
  exponent : Int
deriving DecidableEq, Repr

namespace Decimal

variable (d : Decimal)

/-- The number of a decimal; one that is none has no order, and gets zero. -/
def value : Number :=
  match d.form, d.negative with
  | .finite, false => (((d.coeff : ℚ) * 10 ^ d.exponent : ℚ) : WithTop ℚ)
  | .finite, true => ((-((d.coeff : ℚ) * 10 ^ d.exponent) : ℚ) : WithTop ℚ)
  | .infinite, false => ((⊤ : WithTop ℚ) : Number)
  | .infinite, true => ⊥
  | .nan, _ => ((0 : ℚ) : WithTop ℚ)

def cmp (x : Decimal) : Ordering := compare d.value x.value

/-- What `canon.Decimal` accepts: a finite decimal that has, when it is reduced, at most 38 digits
and 18 of them in the fraction. -/
def accepted : Bool :=
  let digits := Nat.digits 10 d.coeff
  let zeros := (digits.takeWhile (· = 0)).length
  d.form = .finite ∧ (d.coeff = 0 ∨
    (digits.length - zeros ≤ 38 ∧ -(d.exponent + (zeros : Int)) ≤ 18))

end Decimal
end BeSdk.Canon

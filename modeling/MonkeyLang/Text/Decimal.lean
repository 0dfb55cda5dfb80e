/-
Decimal fractions and the binary numbers nearest to them.

* `Decimal`: digits times a power of ten, with a sign;
* `Decimal.nearest`: the binary number with 53 digits nearest to a positive
  quotient, of two equally near ones the even one;
* `Binary`: such a number with a sign, or beyond all of them;
* `Binary.floor?`, `Binary.ceil?`: the integers next to it.
-/

namespace MonkeyLang

/-- A decimal fraction: `digits` times ten to the power `exponent`. -/
structure Decimal where
  negative : Bool
  digits : Nat
  exponent : Int
deriving DecidableEq, Repr

/-- A binary number: `digits` times two to the power `exponent`; or one
that is too large. -/
inductive Binary where
  | finite (negative : Bool) (digits : Nat) (exponent : Int)
  | infinite (negative : Bool)
  | notANumber
deriving DecidableEq, Repr

namespace Decimal

/-! ### The nearest binary number -/

/-- The smallest exponent of a binary number. -/
def minExponent : Int := -1074

/-- A quotient divided by a power of two, as numerator and denominator. -/
def scale (num den : Nat) (e : Int) : Nat × Nat :=
  if 0 ≤ e then (num, den <<< e.toNat) else (num <<< (-e).toNat, den)

/-- A quotient rounded to the nearest integer, a half to the even one. -/
def roundDiv (num den : Nat) : Nat :=
  let q := num / den
  let twice := 2 * (num % den)
  if den < twice ∨ (den = twice ∧ q % 2 = 1) then q + 1 else q

/-- The exponent with which a positive quotient has 53 binary digits, or
the smallest one if that is larger. -/
def binaryExponent (num den : Nat) : Int :=
  let e : Int := (num.log2 : Int) - den.log2 - 52
  let (n, d) := scale num den e
  let full := if n < d <<< 52 then e - 1 else e
  if full < minExponent then minExponent else full

/-- The binary number nearest to a positive quotient: digits and
exponent. -/
def nearest (num den : Nat) : Nat × Int :=
  let e := binaryExponent num den
  let (n, d) := scale num den e
  (roundDiv n d, e)

/-- The number of decimal digits of a number. -/
def size (n : Nat) : Nat := (toString n).length

/-- The binary number nearest to a decimal fraction.  Fractions that are
far too large or too small are told by the place of their first digit. -/
def toBinary (x : Decimal) : Binary :=
  let place := (size x.digits : Int) + x.exponent
  if x.digits = 0 ∨ place < -400 then .finite x.negative 0 0
  else if 400 < place then .infinite x.negative
  else
    let power := Nat.pow 10 x.exponent.natAbs
    let (m, e) :=
      if 0 ≤ x.exponent then nearest (x.digits * power) 1
      else nearest x.digits power
    if 0 ≤ e ∧ 1 <<< 1024 ≤ m <<< e.toNat then .infinite x.negative
    else .finite x.negative m e

end Decimal

namespace Binary

/-- Whether a number is zero. -/
def isZero : Binary → Bool
  | finite _ m _ => m = 0
  | _ => false

/-! ### Integers next to a binary number -/

/-- The largest integer that is not larger, if the number is finite. -/
def floor? : Binary → Option Int
  | finite negative m e =>
    let n : Int := if negative then -(m : Int) else m
    some (if 0 ≤ e then n <<< e.toNat else n >>> (-e).toNat)
  | _ => none

/-- The smallest integer that is not smaller, if the number is finite. -/
def ceil? : Binary → Option Int
  | finite negative m e => ((finite (!negative) m e).floor?).map (-·)
  | _ => none

end Binary

end MonkeyLang

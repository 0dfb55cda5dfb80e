/-
The integers of the language: signed numbers of 64 bits.

* `minInteger`, `maxInteger`: the ends of their range;
* `wrap`: the integer of the range with the same low 64 bits;
* `wrap_eq_bmod`: it is the remainder of least absolute value;
* `wrap_bounds`, `wrap_eq_self`: it is in the range, and it is the number
  itself if that is;
* `Integer.quotient`: the quotient rounded toward zero, taken of the absolute
  values and given a sign; `Integer.quotient_eq_tdiv`: it is the usual one.
-/

namespace MonkeyLang

/-- How many integers the language has: two to the power 64. -/
def integerCount : Nat := 18446744073709551616

/-- The smallest integer of the language. -/
def minInteger : Int := -9223372036854775808

/-- The largest integer of the language, and the largest literal. -/
def maxInteger : Int := 9223372036854775807

/-- The signed 64-bit integer with the same low 64 bits. -/
def wrap (n : Int) : Int := (n - minInteger) % integerCount + minInteger

/-- It is the remainder of least absolute value. -/
theorem wrap_eq_bmod (n : Int) : wrap n = n.bmod integerCount := by
  simp only [wrap, Int.bmod, minInteger, integerCount]
  omega

/-- A number wraps to one of 64 bits. -/
theorem wrap_bounds (n : Int) : minInteger ≤ wrap n ∧ wrap n ≤ maxInteger := by
  simp only [wrap, minInteger, maxInteger, integerCount]
  omega

/-- An integer of 64 bits stays as it is. -/
theorem wrap_eq_self {n : Int} (hlow : minInteger ≤ n)
    (hhigh : n ≤ maxInteger) : wrap n = n := by
  simp only [minInteger, maxInteger] at hlow hhigh
  simp only [wrap, minInteger, integerCount]
  omega

namespace Integer

/-- The quotient rounded toward zero: that of the absolute values, with a sign
in front if one of the numbers is negative and the other one is not. -/
def quotient (a b : Int) : Int :=
  let q : Int := a.natAbs / b.natAbs
  if a < 0 ↔ b < 0 then q else -q

theorem quotient_eq_tdiv (a b : Int) : quotient a b = a.tdiv b := by
  have hpos (n : Nat) : ¬ Int.ofNat n < 0 :=
    Int.not_lt.mpr (Int.zero_le_ofNat n)
  have hneg (n : Nat) : Int.negSucc n < 0 := Int.negSucc_lt_zero n
  unfold quotient
  cases a with
  | ofNat m =>
      cases b with
      | ofNat n => exact (if_pos (iff_of_false (hpos m) (hpos n))).trans rfl
      | negSucc n => exact (if_neg fun h => hpos m (h.mpr (hneg n))).trans rfl
  | negSucc m =>
      cases b with
      | ofNat n => exact (if_neg fun h => hpos n (h.mp (hneg m))).trans rfl
      | negSucc n => exact (if_pos (iff_of_true (hneg m) (hneg n))).trans rfl

end Integer

end MonkeyLang

/-
Texts of whole numbers.

* `Numeral.value`: the positional value of a list of digit values;
* `Numeral.digits?`: digits of any script, single underscores allowed
  between two of them;
* `Numeral.read?`: a whole number as it is written: white space around it,
  an optional sign, then at most `Numeral.maxDigits` digits.
-/
import MonkeyLang.Text.Blank
import MonkeyLang.Text.Digit

namespace MonkeyLang.Numeral

/-! ### Digits -/

/-- The number whose decimal digits are these, the leftmost first. -/
def value (ds : List Nat) : Nat := ds.foldl (fun n d => 10 * n + d) 0

/-- The values of the digits of a text that is nothing but digits, with
single underscores allowed between two of them. -/
def digits? : List Char → Option (List Nat)
  | [] => none
  | [c] => (Digit.value? c).map ([·])
  | c :: '_' :: cs => do return (← Digit.value? c) :: (← digits? cs)
  | c :: cs => do return (← Digit.value? c) :: (← digits? cs)

/-! ### Whole numbers -/

/-- The most digits that a number may have. -/
def maxDigits : Nat := 4300

/-- An unsigned number with at most `maxDigits` digits, leading zeros
counted. -/
def natural? (cs : List Char) : Option Nat := do
  let ds ← digits? cs
  if ds.length ≤ maxDigits then some (value ds) else none

/-- The whole number that a text denotes, if it denotes one. -/
def read? (s : String) : Option Int :=
  match Blank.trim Blank.isSpace s.toList with
  | '+' :: cs => (natural? cs).map Int.ofNat
  | '-' :: cs => (natural? cs).map fun n => -(n : Int)
  | cs => (natural? cs).map Int.ofNat

end MonkeyLang.Numeral

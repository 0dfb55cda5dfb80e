/-
JSON values.

* `Json`: the values; a number is an integer, a decimal fraction or one of
  three words;
* `Json.isTruthy`: whether a value counts as true: null, `false`, zero and
  what is empty do not.
-/
import MonkeyLang.Bindings
import MonkeyLang.Text.Decimal

namespace MonkeyLang

/-- JSON values.  The keys of an object are listed in the order in which
they were first given. -/
inductive Json where
  | null
  | boolean (b : Bool)
  | integer (n : Int)
  | decimal (x : Decimal)
  | infinity (negative : Bool)
  | notANumber
  | string (s : String)
  | array (items : List Json)
  | object (fields : List (String × Json))
deriving Inhabited, Repr

namespace Json

/-- Whether a value counts as true. -/
def isTruthy : Json → Bool
  | null => false
  | boolean b => b
  | integer n => n ≠ 0
  | decimal x => !x.toBinary.isZero
  | infinity _ | notANumber => true
  | string s => s ≠ ""
  | array items => !items.isEmpty
  | object fields => !fields.isEmpty

end Json

end MonkeyLang

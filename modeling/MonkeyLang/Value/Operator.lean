/-
The operators of the language on values.

* `Operator.onIntegers`, `Operator.onStrings`: operators between two
  integers and between two strings;
* `Value.prefixOp`, `Value.infixOp`: an operator applied to values;
* `Value.index`: the value that an array or a hash has at an index.
-/
import MonkeyLang.Integer
import MonkeyLang.Value.Alike
import MonkeyLang.Value.Table

namespace MonkeyLang

namespace Operator

/-- An operator between two integers.  Sums, differences, products and
quotients wrap around; a quotient is rounded toward zero. -/
def onIntegers (op : String) (a b : Int) : Except Fault Value :=
  match op with
  | "+" => .ok (.integer (wrap (a + b)))
  | "-" => .ok (.integer (wrap (a - b)))
  | "*" => .ok (.integer (wrap (a * b)))
  | "/" =>
    if b = 0 then .error .divisionByZero
    else .ok (.integer (wrap (Integer.quotient a b)))
  | "<" => .ok (.boolean (a < b))
  | ">" => .ok (.boolean (a > b))
  | "==" => .ok (.boolean (a = b))
  | "!=" => .ok (.boolean (a ≠ b))
  | _ => .error (.unknownInfix .integer op .integer)

/-- An operator between two strings: there is only joining. -/
def onStrings (op s t : String) : Except Fault Value :=
  match op with
  | "+" => .ok (.string (s ++ t))
  | _ => .error (.unknownInfix .string op .string)

end Operator

namespace Value

/-! ### Operators -/

/-- An operator before a value. -/
def prefixOp (op : String) (right : Value) : Except Fault Value :=
  match op with
  | "!" => .ok (.boolean (!right.isTruthy))
  | "-" =>
    match right with
    | integer n => .ok (integer (wrap (-n)))
    | v => .error (.unknownPrefix "-" v.kind)
  | _ => .error (.unknownPrefix op right.kind)

/-- An operator between two values.  Beyond integers and strings there are
only the two tests of equality. -/
def infixOp (op : String) (left right : Value) : Except Fault Value :=
  match left, right with
  | integer a, integer b => Operator.onIntegers op a b
  | string s, string t => Operator.onStrings op s t
  | _, _ =>
    match op with
    | "==" => .ok (.boolean (left.alike right))
    | "!=" => .ok (.boolean (!left.alike right))
    | _ =>
      if left.kind = right.kind then
        .error (.unknownInfix left.kind op right.kind)
      else .error (.typeMismatch left.kind op right.kind)

/-! ### Indexing -/

/-- The member of an array at an index; null beyond its ends. -/
def member (vs : List Value) (i : Int) : Value :=
  if 0 ≤ i then vs.getD i.toNat null else null

/-- The value that an array or a hash has at an index; null if it has
nothing there. -/
def index : Value → Value → Except Fault Value
  | array vs, integer i => .ok (member vs i)
  | hash es, key => do return (← Table.get? key es).getD null
  | left, _ => .error (.noIndex left.kind)

end Value

end MonkeyLang

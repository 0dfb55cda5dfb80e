/-
What can go wrong while a program runs.

* `Fault`: the causes;
* `Fault.message`: the wording of each.
-/
import MonkeyLang.Value.Kind

namespace MonkeyLang

/-- The causes for which a program gives an error. -/
inductive Fault where
  | identifierNotFound (name : String)
  | unknownPrefix (operator : String) (right : Value.Kind)
  | unknownInfix (left : Value.Kind) (operator : String) (right : Value.Kind)
  | typeMismatch (left : Value.Kind) (operator : String) (right : Value.Kind)
  | divisionByZero
  | noIndex (kind : Value.Kind)
  | unusableKey (kind : Value.Kind)
  | notAFunction (kind : Value.Kind)
  | argumentCount (want got : Nat)
  | builtinArgumentCount (got want : Nat)
  | notAnArray (builtin : Builtin) (kind : Value.Kind)
  | noLength (kind : Value.Kind)
  | quoteArgumentCount (got : Nat)
  | strayUnquote
  | notSyntax (kind? : Option Value.Kind)
deriving DecidableEq, Repr

/-- The wording of a cause. -/
def Fault.message : Fault → String
  | identifierNotFound name => "identifier not found: " ++ name
  | unknownPrefix op r => "unknown operator: " ++ op ++ r.label
  | unknownInfix l op r =>
    "unknown operator: " ++ l.label ++ " " ++ op ++ " " ++ r.label
  | typeMismatch l op r =>
    "type mismatch: " ++ l.label ++ " " ++ op ++ " " ++ r.label
  | divisionByZero => "division by zero"
  | noIndex kind => "index operator not supported: " ++ kind.label
  | unusableKey kind => "unusable as hash key: " ++ kind.label
  | notAFunction kind => "not a function: " ++ kind.label
  | argumentCount want got =>
    "wrong number of arguments: want=" ++ toString want ++ ", got=" ++
      toString got
  | builtinArgumentCount got want =>
    "wrong number of arguments. got=" ++ toString got ++ ", want=" ++
      toString want
  | notAnArray b kind =>
    "argument to `" ++ b.name ++ "` must be ARRAY, got " ++ kind.label
  | noLength kind => "argument to `len` not supported, got " ++ kind.label
  | quoteArgumentCount got =>
    "wrong number of arguments to `quote`. got=" ++ toString got ++ ", want=1"
  | strayUnquote => "unquote is not valid outside of quote"
  | notSyntax kind? =>
    "unquote: cannot convert " ++ (kind?.map (·.label)).getD "NOTHING" ++
      " to a syntax node"

end MonkeyLang

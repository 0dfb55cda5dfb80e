/-
What the parser reports about a text that is no program.

* `Diagnostic.Cause`: the three faults there are;
* `Diagnostic`: a fault and where it was met;
* `Diagnostic.message`: its wording.
-/
import MonkeyLang.Token

namespace MonkeyLang

/-- The faults of a text: a token of another kind than the one that has to
follow, a token that starts no expression, and digits that denote no
integer of the language. -/
inductive Diagnostic.Cause where
  | unexpected (want got : Token.Kind)
  | noExpression (kind : Token.Kind)
  | badInteger (text : String)
deriving DecidableEq, Repr

/-- A fault and the place of the token where it was met. -/
structure Diagnostic where
  cause : Diagnostic.Cause
  position : Position
deriving DecidableEq, Repr

namespace Diagnostic

/-- The wording of a fault. -/
def Cause.message : Cause → String
  | unexpected want got =>
    "expected next token to be " ++ want.label ++ ", got " ++ got.label ++
      " instead"
  | noExpression kind => "no prefix parse function for " ++ kind.label ++ " found"
  | badInteger text => "could not parse " ++ text ++ " as integer"

/-- The wording of a diagnostic. -/
def message (d : Diagnostic) : String := d.cause.message

end Diagnostic

end MonkeyLang

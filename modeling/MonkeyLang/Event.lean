/-
What a session reports about its work besides its results.

* `Event`: a traced rule, a rejected input, a macro defined or a call
  expanded;
* `Event.message`: the wording of an event;
* `Event.channel`: the name of the part of the system that it comes from.
-/
import MonkeyLang.Parser.Reader
import MonkeyLang.Tree.Text

namespace MonkeyLang

/-- What a session reports. -/
inductive Event where
  | traced (line : Trace.Line)
  | rejected (faults : Nat)
  | defined (name : String) (params : List Node)
  | expanded (call result : Node)
deriving Repr

namespace Event

/-- The wording of an event. -/
def message : Event → String
  | traced line => line.text
  | rejected n => "rejecting input with " ++ toString n ++ " parse error(s)"
  | defined name params =>
    "defined macro " ++ name ++ "(" ++
      String.intercalate ", " (params.map Node.text) ++ ")"
  | expanded call result => "expanded " ++ call.text ++ " into " ++ result.text

/-- The name of the part that an event comes from. -/
def channel : Event → String
  | traced _ => "monkey.reader.tracing"
  | rejected _ => "monkey.interpreter"
  | defined .. | expanded .. => "monkey.evaluation.macro_expansion"

end Event

end MonkeyLang

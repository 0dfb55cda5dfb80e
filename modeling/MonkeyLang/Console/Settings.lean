/-
Settings of the console, from environment variables.

* `Variable.flag`: what a variable says as a switch;
* `Variable.text`: what it says as a text;
* `Settings`: the settings, and `Settings.ofVariables` reads them;
* `LogLevel`: how much is logged.
-/
import MonkeyLang.Text.Blank
import MonkeyLang.Text.Uppercase

namespace MonkeyLang

/-! ### Variables -/

namespace Variable

/-- The words that switch something on. -/
def onWords : List String := ["1", "true", "yes", "on"]

/-- The words that switch something off. -/
def offWords : List String := ["0", "false", "no", "off"]

/-- The word of a variable, without blanks around it and in lower case.
Case matters for no letter but those of ASCII, since the words above have
only these. -/
def word (raw : String) : String :=
  String.ofList ((Blank.trim Blank.isBlank raw.toList).map Char.toLower)

/-- What a variable says as a switch.  An unset one, and one with another
word, say what holds otherwise. -/
def flag (raw : Option String) (otherwise : Bool) : Bool :=
  match raw.map word with
  | none => otherwise
  | some w =>
    if onWords.contains w then true
    else if offWords.contains w then false
    else otherwise

/-- What a variable says as a text.  An unset one and an empty one say what
holds otherwise. -/
def text (raw : Option String) (otherwise : String) : String :=
  match raw with
  | none | some "" => otherwise
  | some s => s

end Variable

/-! ### How much is logged -/

/-- From which weight on messages are logged. -/
inductive LogLevel where
  | unset | debug | info | warning | error | critical
deriving DecidableEq, Repr

namespace LogLevel

/-- The names of the levels; two levels have two. -/
def names : List (String × LogLevel) :=
  [("CRITICAL", critical), ("FATAL", critical), ("ERROR", error),
    ("WARN", warning), ("WARNING", warning), ("INFO", info),
    ("DEBUG", debug), ("NOTSET", unset)]

/-- The level with this name. -/
def ofName? (name : String) : Option LogLevel := names.lookup name

/-- Whether the messages of the least weight are logged. -/
def logsAll : LogLevel → Bool
  | unset | debug => true
  | _ => false

/-- The label of the messages of the least weight. -/
def debugLabel : String := "DEBUG"

end LogLevel

/-! ### Settings -/

/-- The settings of the console: whether the parser is traced, the name of
the log level, the prompt, whether values are colored, and the JSON text of
the options for showing them. -/
structure Settings where
  trace : Bool
  logLevel : String
  prompt : String
  color : Bool
  display : String
deriving DecidableEq, Repr

namespace Settings

/-- The settings where nothing is said. -/
def defaults : Settings := ⟨false, "WARNING", ">> ", true, ""⟩

/-- The settings that environment variables give. -/
def ofVariables (get : String → Option String) : Settings where
  trace := Variable.flag (get "MONKEY_TRACE") defaults.trace
  logLevel :=
    Uppercase.text (Variable.text (get "MONKEY_LOG_LEVEL") defaults.logLevel)
  prompt := Variable.text (get "MONKEY_PROMPT") defaults.prompt
  color := Variable.flag (get "MONKEY_COLOR") defaults.color
  display := Variable.text (get "MONKEY_PPRINT") defaults.display

end Settings

end MonkeyLang

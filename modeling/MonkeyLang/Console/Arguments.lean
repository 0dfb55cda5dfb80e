/-
Arguments of the command line.

* `Switch`: what an option asks for, and `Switch.names` what options are
  called;
* `Argument`: one argument by its form: plain, an option, or the two dashes
  behind which nothing is an option;
* `Arguments`: what the arguments ask for;
* `Arguments.read`: reads them over the settings, or says with which code
  the program ends instead.
-/
import MonkeyLang.Console.Settings
import MonkeyLang.Text.Digit

namespace MonkeyLang

/-! ### Options -/

/-- What an option asks for. -/
inductive Switch where
  | help | trace | logLevel | noColor
deriving DecidableEq, Repr

namespace Switch

/-- The names of the options. -/
def names : List (String × Switch) :=
  [("-h", help), ("--help", help), ("-t", trace), ("--trace", trace),
    ("--log-level", logLevel), ("--no-color", noColor)]

/-- The option with exactly this name. -/
def ofName? (name : String) : Option Switch := names.lookup name

/-- The options whose names start so; each name counts. -/
def startingWith (start : String) : List Switch :=
  (names.filter fun (name, _) => start.toList.isPrefixOf name.toList).map (·.2)

end Switch

/-- An argument by its form.  An option may be unknown, and may bring its
value with it; a short one may have further letters behind it. -/
inductive Argument where
  | plain (text : String)
  | dashes
  | option (switch : Switch) (value : Option String)
  | cluster (switch : Switch) (letters : List Char)
  | unknown
deriving DecidableEq, Repr

namespace Argument

/-! ### Forms of arguments -/

/-- Whether a text behind a dash is a number: digits, or digits behind a
point.  A line end behind it does not count. -/
def isNumber (cs : List Char) : Bool :=
  let cs := if cs.getLast? = some '\n' then cs.dropLast else cs
  match cs.dropWhile Digit.isDigit with
  | [] => !cs.isEmpty
  | '.' :: ds => !ds.isEmpty && ds.all Digit.isDigit
  | _ => false

/-- The part of a text before the first equals sign and the part behind it,
if there is one. -/
def splitEquals (cs : List Char) : List Char × Option (List Char) :=
  match cs.dropWhile (· != '=') with
  | [] => (cs, none)
  | _ :: value => (cs.takeWhile (· != '='), some value)

/-- The form of an argument that starts with a dash and is no option's
name.  What stands behind an equals sign is an option's value, or further
letters of a short one.  Long options may be shortened as long as only one
starts so; there is no form if several do. -/
def ofDashed? (s : String) : Option Argument :=
  let cs := s.toList
  let short := cs[1]? != some '-'
  let (start, value) := splitEquals cs
  match value, Switch.ofName? (String.ofList start) with
  | some value, some switch =>
    if short && !value.isEmpty then some (cluster switch value)
    else some (option switch (some (String.ofList value)))
  | _, _ =>
    let otherwise : Argument :=
      if isNumber cs.tail || cs.contains ' ' then plain s else unknown
    if short then
      match Switch.ofName? (String.ofList (cs.take 2)) with
      | some switch => some (cluster switch (cs.drop 2))
      | none => some otherwise
    else
      match Switch.startingWith (String.ofList start) with
      | [] => some otherwise
      | [switch] => some (option switch (value.map String.ofList))
      | _ => none

/-- The form of an argument before the two dashes, if it is clear. -/
def ofText? (s : String) : Option Argument :=
  match Switch.ofName? s, s.toList with
  | some switch, _ => some (option switch none)
  | none, '-' :: _ :: _ => ofDashed? s
  | none, _ => some (plain s)

/-- The forms of all arguments, if they are clear.  Behind the first two
dashes all are plain. -/
def ofTexts? : List String → Option (List Argument)
  | [] => some []
  | "--" :: ss => some (dashes :: ss.map plain)
  | s :: ss => do return (← ofText? s) :: (← ofTexts? ss)

/-- Whether an argument is an option. -/
def isOption : Argument → Bool
  | plain _ | dashes => false
  | _ => true

end Argument

/-! ### What the arguments ask for -/

/-- What the arguments ask for: a script to run, whether the parser is
traced, the name of the log level, if there is one, and whether values are
colored. -/
structure Arguments where
  script : Option String
  trace : Bool
  logLevel : Option String
  color : Bool
deriving DecidableEq, Repr

namespace Arguments

/-- The code with which the program ends when arguments are wrong. -/
def usageCode : Nat := 2

/-- The names of log levels that an argument may give. -/
def levels : List String := ["DEBUG", "INFO", "WARNING", "ERROR", "CRITICAL"]

/-- A line that says how the program is called. -/
def usage : String :=
  "usage: monkey [-h] [-t] [--log-level \x7b" ++
    String.intercalate "," levels ++ "\x7d] [--no-color] [script]"

/-- What the settings ask for. -/
def ofSettings (s : Settings) : Arguments :=
  ⟨none, s.trace, some s.logLevel, s.color⟩

/-- Obeys an option without a value; asking for help ends the program. -/
def obey (switch : Switch) (a : Arguments) : Except Nat Arguments :=
  match switch with
  | .help => .error 0
  | .trace => .ok { a with trace := true }
  | .noColor => .ok { a with color := false }
  | .logLevel => .error usageCode

/-- Sets the log level to one of those that an argument may give.  Two
dashes stand for no level at all. -/
def setLevel (name : String) (a : Arguments) : Except Nat Arguments :=
  if name = "--" then .ok { a with logLevel := none }
  else if levels.contains name then .ok { a with logLevel := some name }
  else .error usageCode

/-- The options that letters stand for, if each of them is one. -/
def spread? (letters : List Char) : Option (List Switch) :=
  letters.mapM fun c => Switch.ofName? (String.ofList ['-', c])

/-- Obeys options without values, in order. -/
def obeyAll (switches : List Switch) (a : Arguments) : Except Nat Arguments :=
  switches.foldlM (fun a switch => a.obey switch) a

/-- Reads the arguments behind the last option: a script, if none was read
yet, with the two dashes before or behind it.  Nothing may be left. -/
def readLast (read : Bool) (ws : List Argument) (a : Arguments) :
    Except Nat Arguments :=
  match read, ws with
  | _, [] => .ok a
  | false, [.dashes] => .ok a
  | false, [.plain s] | false, [.dashes, .plain s]
  | false, [.plain s, .dashes] => .ok { a with script := some s }
  | _, _ => .error usageCode

/-- Reads arguments in order.  `read` says that the script was read, and
`extra` that something was met that is neither an option nor the script,
which counts only at the end. -/
def readFrom (read extra : Bool) (a : Arguments) :
    List Argument → Except Nat Arguments
  | [] => if extra then .error usageCode else .ok a
  | .unknown :: ws => readFrom read true a ws
  | .option .logLevel none :: .plain name :: ws => do
    readFrom read extra (← setLevel name a) ws
  | .option .logLevel (some name) :: ws => do
    readFrom read extra (← setLevel name a) ws
  | .option switch none :: ws => do
    readFrom read extra (← a.obey switch) ws
  | .option _ (some _) :: _ => .error usageCode
  | .cluster switch letters :: ws =>
    match spread? letters with
    | none => .error usageCode
    | some switches => do
      readFrom read extra (← a.obeyAll (switch :: switches)) ws
  | w :: ws =>
    if ws.any Argument.isOption then
      match read, w with
      | false, .plain s => readFrom true extra { a with script := some s } ws
      | _, _ => readFrom read true a ws
    else if extra then .error usageCode
    else readLast read (w :: ws) a

/-- Reads the arguments over the settings, or gives the code with which the
program ends instead. -/
def read (argv : List String) (settings : Settings) : Except Nat Arguments :=
  match Argument.ofTexts? argv with
  | some ws => readFrom false false (ofSettings settings) ws
  | none => .error usageCode

end Arguments

end MonkeyLang

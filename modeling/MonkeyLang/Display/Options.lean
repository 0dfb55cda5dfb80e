/-
Options for showing values.

* `Display.Options`: options by name, as a user gives them;
* `Display.Options.defaults`: those that hold where the user says nothing;
* `Display.Options.ofText`: the options that a JSON text adds to the
  defaults;
* `Display.Limit`: a limit as the options give it;
* `Display.Style`: what the options mean.
-/
import MonkeyLang.Json.Read
import MonkeyLang.Value.Kind

namespace MonkeyLang.Display

/-! ### Colors -/

/-- The groups of types that have a color of their own. -/
inductive Paint where
  | integer | boolean | null | string | function | quote | error
deriving DecidableEq, Repr

namespace Paint

/-- All groups. -/
def all : List Paint :=
  [integer, boolean, null, string, function, quote, error]

/-- The group of a type, if it has a color. -/
def ofKind? : Value.Kind → Option Paint
  | .integer => some integer
  | .boolean => some boolean
  | .null => some null
  | .string => some string
  | .function | .builtin | .macroFn => some function
  | .quote => some quote
  | .error => some error
  | .array | .hash | .returned => none

/-- The name of the switch for a group's color. -/
def switch : Paint → String
  | integer => "color_integer"
  | boolean => "color_boolean"
  | null => "color_null"
  | string => "color_string"
  | function => "color_function"
  | quote => "color_quote"
  | error => "color_error"

/-- The sequence that starts a group's color. -/
def sequence : Paint → String
  | integer => "\x1b[94m"
  | boolean => "\x1b[93m"
  | null => "\x1b[90m"
  | string => "\x1b[92m"
  | function => "\x1b[95m"
  | quote => "\x1b[96m"
  | error => "\x1b[91m"

end Paint

/-- The sequence that ends a color. -/
def reset : String := "\x1b[0m"

/-! ### Options as they are given -/

/-- Options by name. -/
abbrev Options := Bindings String Json

namespace Options

/-- The longest line where nothing is said. -/
def defaultLineLength : Int := 80

/-- The deepest nesting where nothing is said. -/
def defaultDepth : Int := 5

/-- The options where nothing is said: all colors are on. -/
def defaults : Options :=
  [("max_line_length", .integer defaultLineLength),
    ("max_depth", .integer defaultDepth), ("enabled", .boolean true)] ++
    Paint.all.map fun p => (p.switch, .boolean true)

/-- Options in which the given ones replace those of `base`. -/
def merge (given base : Options) : Options :=
  given.foldl (fun os (name, value) => os.set name value) base

/-- The options that a JSON text adds to the defaults.  A text that is not
a JSON object adds nothing; one with a number that is too long is at
fault. -/
def ofText (text : String) : Except Json.Fault Options :=
  match Json.read text with
  | .ok (.object fields) => .ok (merge fields defaults)
  | .error .numberTooLong => .error .numberTooLong
  | _ => .ok defaults

/-- Whether a switch is on; one that is not given is. -/
def isOn (name : String) (os : Options) : Bool :=
  ((os.get? name).map Json.isTruthy).getD true

end Options

/-! ### What options mean -/

/-- A limit for numbers, as the options give it: the whole number next to
it on the side that decides, no limit at all, or something that numbers
cannot be compared with. -/
inductive Limit where
  | number (n : Int)
  | unlimited
  | invalid
deriving DecidableEq, Repr

namespace Limit

/-- The limit at a whole number, if there is one. -/
def ofInt? : Option Int → Limit
  | some n => number n
  | none => unlimited

/-- The limit up to which lengths are allowed. -/
def greatest : Json → Limit
  | .integer n => number n
  | .boolean b => number (if b then 1 else 0)
  | .decimal x =>
    match x.toBinary with
    | .infinite true => number (-1)
    | y => ofInt? y.floor?
  | .infinity true | .notANumber => number (-1)
  | .infinity false => unlimited
  | .null | .string _ | .array _ | .object _ => invalid

/-- The limit from which on depths are not allowed. -/
def least : Json → Limit
  | .integer n => number n
  | .boolean b => number (if b then 1 else 0)
  | .decimal x =>
    match x.toBinary with
    | .infinite true => number 0
    | y => ofInt? y.ceil?
  | .infinity true => number 0
  | .infinity false | .notANumber => unlimited
  | .null | .string _ | .array _ | .object _ => invalid

end Limit

/-- How values are shown: the greatest length of a line, from which depth
on values are left out, and which groups are colored. -/
structure Style where
  lineLength : Limit
  depth : Limit
  colored : Bool
  isPainted : Paint → Bool

namespace Style

/-- What options mean. -/
def ofOptions (os : Options) : Style where
  lineLength :=
    .greatest ((os.get? "max_line_length").getD (.integer Options.defaultLineLength))
  depth := .least ((os.get? "max_depth").getD (.integer Options.defaultDepth))
  colored := os.isOn "enabled"
  isPainted p := os.isOn p.switch

/-- Whether values at a depth are left out. -/
def omits (style : Style) (depth : Nat) : Bool :=
  match style.depth with
  | .number limit => decide (limit ≤ depth)
  | .unlimited | .invalid => false

/-- Whether a line of a length is not too long. -/
def fits (style : Style) (length : Nat) : Bool :=
  match style.lineLength with
  | .number limit => decide ((length : Int) ≤ limit)
  | .unlimited | .invalid => true

end Style

end MonkeyLang.Display

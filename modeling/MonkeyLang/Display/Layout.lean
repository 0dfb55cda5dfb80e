/-
Showing values on lines of limited length.

* `Style.paint`: the text of a value in its color;
* `layout`: a value with long arrays and hashes broken over lines, one
  member a line, and deep ones left out;
* `measures`: whether the length of a line decides how a value is shown;
* `shown?`: what is shown of a result, unless a limit is no number.
-/
import MonkeyLang.Display.Options
import MonkeyLang.Value.Text

namespace MonkeyLang.Display

/-! ### Colors -/

/-- The text of a value in the color of its type, if it has one. -/
def Style.paint (style : Style) (v : Value) : String :=
  if style.colored then
    match (Paint.ofKind? v.kind).filter style.isPainted with
    | some p => p.sequence ++ v.text ++ reset
    | none => v.text
  else v.text

/-! ### Lines -/

/-- What stands for a value that is left out. -/
def omission : String := "…"

/-- The blanks at the start of a line. -/
def margin (indent : Nat) : String := "".pushn ' ' (2 * indent)

/-- Parts between an opening and a closing sign: on one line if no part
has several lines and the text `plain` that they show fits, else one part
a line. -/
def enclosed (style : Style) (indent : Nat) (plain opening closing : String)
    (parts : List String) : String :=
  let line := opening ++ String.intercalate ", " parts ++ closing
  if !line.toList.contains '\n' && style.fits (plain.length + 2 * indent) then
    line
  else
    opening ++ "\n" ++
      String.intercalate ",\n" (parts.map (margin (indent + 1) ++ ·)) ++
      "\n" ++ margin indent ++ closing

mutual

/-- A value at a depth, on lines that start at an indentation. -/
def layout (style : Style) (depth indent : Nat) : Value → String
  | .array vs =>
    if style.omits depth then omission
    else
      enclosed style indent (Value.array vs).text "[" "]"
        (layouts style (depth + 1) (indent + 1) vs)
  | .hash es =>
    if style.omits depth then omission
    else
      enclosed style indent (Value.hash es).text "\x7b" "\x7d"
        (entryLayouts style (depth + 1) (indent + 1) es)
  | v => if style.omits depth then omission else style.paint v

/-- The members of an array. -/
def layouts (style : Style) (depth indent : Nat) : List Value → List String
  | [] => []
  | v :: vs => layout style depth indent v :: layouts style depth indent vs

/-- The entries of a hash. -/
def entryLayouts (style : Style) (depth indent : Nat) :
    List (HashKey × Value × Value) → List String
  | [] => []
  | (_, k, v) :: es =>
    (layout style depth indent k ++ ": " ++ layout style depth indent v) ::
      entryLayouts style depth indent es

end

/-! ### Limits that are no numbers -/

mutual

/-- Whether the length of a line is asked for when a value is shown: some
array or hash in it has no line end in any part. -/
def measures (style : Style) (depth indent : Nat) : Value → Bool
  | .array vs =>
    !style.omits depth &&
      (measuresAny style (depth + 1) (indent + 1) vs ||
        (layouts style (depth + 1) (indent + 1) vs).all fun part =>
          !part.toList.contains '\n')
  | .hash es =>
    !style.omits depth &&
      (measuresAnyEntry style (depth + 1) (indent + 1) es ||
        (entryLayouts style (depth + 1) (indent + 1) es).all fun part =>
          !part.toList.contains '\n')
  | _ => false

/-- Whether the length of a line is asked for in a member of an array. -/
def measuresAny (style : Style) (depth indent : Nat) : List Value → Bool
  | [] => false
  | v :: vs =>
    measures style depth indent v || measuresAny style depth indent vs

/-- Whether the length of a line is asked for in an entry of a hash. -/
def measuresAnyEntry (style : Style) (depth indent : Nat) :
    List (HashKey × Value × Value) → Bool
  | [] => false
  | (_, k, v) :: es =>
    measures style depth indent k || measures style depth indent v ||
      measuresAnyEntry style depth indent es

end

/-- Whether a value can be shown: each limit that is asked for is one for
numbers.  The depth of a value is always asked for. -/
def canShow (style : Style) (indent : Nat) (v : Value) : Bool :=
  style.depth ≠ .invalid &&
    (style.lineLength ≠ .invalid || !measures style 0 indent v)

/-- What is shown of a result, if it can be: nothing for no value. -/
def shown? (style : Style) (indent : Nat) : Option Value → Option String
  | some v =>
    if canShow style indent v then some (layout style 0 indent v) else none
  | none => some ""

end MonkeyLang.Display

/-
What stands at the cursor.

* `charAt`: the character at a place of a line, which may lie beyond it;
* `wordAt`: the word that contains or touches a place in a line, by walking
  from the place to both sides;
* `calleeBefore`: the name before the parenthesis that is open at the end
  of a text; `calleeAt`: the same by walking back from a place.
-/
import MonkeyLang.Text.Word

namespace MonkeyLang.Editor

open WordChar

/-- Why a place has no answer: it lies beyond the end of its line. -/
inductive PlaceFault where
  | beyondLine
deriving DecidableEq, Repr

/-! ### Words -/

/-- The run of word characters at the end of a text. -/
def runBefore (cs : List Char) : List Char :=
  (cs.reverse.takeWhile isWordChar).reverse

/-- The run of word characters at the start of a text. -/
def runAfter (cs : List Char) : List Char := cs.takeWhile isWordChar

/-- A run of characters as a word, if it is not empty. -/
def asWord (cs : List Char) : Option String :=
  if cs.isEmpty then none else some (String.ofList cs)

/-- The character at a place of a line. -/
def charAt (cs : List Char) (place : Nat) : Except PlaceFault Char :=
  match cs[place]? with
  | some c => .ok c
  | none => .error .beyondLine

/-- Where the word characters start that stand right before a place. -/
def wordStart (cs : List Char) : Nat → Except PlaceFault Nat
  | 0 => .ok 0
  | place + 1 => do
    if isWordChar (← charAt cs place) then wordStart cs place
    else return place + 1

/-- Where the word characters end that stand right behind a place, with at
most `n` characters to the end of the line. -/
def wordEnd (cs : List Char) (place : Nat) : Nat → Except PlaceFault Nat
  | 0 => .ok place
  | n + 1 => do
    if isWordChar (← charAt cs place) then wordEnd cs (place + 1) n
    else return place

/-- The word that contains or touches a place in a line. -/
def wordAt (cs : List Char) (place : Nat) :
    Except PlaceFault (Option String) := do
  let start ← wordStart cs place
  let stop ← wordEnd cs place (cs.length - place)
  return asWord ((cs.take stop).drop start)

/-! ### Calls -/

/-- Looks for the open parenthesis in a text that is given backwards;
`closed` parentheses have to be opened first. -/
def calleeFrom : Nat → List Char → Option String
  | _, [] => none
  | closed, ')' :: cs => calleeFrom (closed + 1) cs
  | 0, '(' :: cs => asWord (runBefore cs.reverse)
  | closed + 1, '(' :: cs => calleeFrom closed cs
  | closed, _ :: cs => calleeFrom closed cs

/-- The name before the innermost parenthesis that is open at the end of a
text, if there is one with a name. -/
def calleeBefore (text : List Char) : Option String :=
  calleeFrom 0 text.reverse

/-- The same by walking back from a place of the text, behind which there are
`closed` parentheses to be opened first. -/
def calleeAt (text : List Char) :
    Nat → Nat → Except PlaceFault (Option String)
  | _, 0 => .ok none
  | closed, place + 1 => do
    match closed, ← charAt text place with
    | closed, ')' => calleeAt text (closed + 1) place
    | 0, '(' => wordAt (text.take place) place
    | closed + 1, '(' => calleeAt text closed place
    | closed, _ => calleeAt text closed place

end MonkeyLang.Editor

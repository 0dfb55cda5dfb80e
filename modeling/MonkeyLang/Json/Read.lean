/-
Reading JSON texts.

* `Json.read`: the value that a text denotes, if it is one JSON value with
  nothing but blanks around it;
* `Json.Fault`: why a text has no value;
* the readers of the parts take the characters from the part on and give
  its value and the rest.
-/
import MonkeyLang.Json.Basic
import MonkeyLang.Text.Numeral

namespace MonkeyLang.Json

/-- Why a text has no value: it is no JSON, or a whole number in it has
more digits than a number may have.  The fault that is met first counts. -/
inductive Fault where
  | malformed
  | numberTooLong
deriving DecidableEq, Repr

/-- The value that is there; without one the text is no JSON. -/
def orMalformed {α : Type} : Option α → Except Fault α
  | some a => .ok a
  | none => .error .malformed

/-! ### Blanks and numbers -/

/-- A blank between the parts of a text. -/
def isBlank (c : Char) : Bool :=
  c = ' ' || c = '\t' || c = '\n' || c = '\r'

/-- The rest behind blanks. -/
def skipBlanks (cs : List Char) : List Char := cs.dropWhile isBlank

/-- The number that digits denote. -/
def digitsValue (ds : List Char) : Nat :=
  ds.foldl (fun n d => 10 * n + (d.toNat - '0'.toNat)) 0

/-- The digits at the start, at least one. -/
def digits? (cs : List Char) : Option (List Char × List Char) :=
  match cs.takeWhile Char.isDigit with
  | [] => none
  | ds => some (ds, cs.dropWhile Char.isDigit)

/-- The digits before the point: a number has no leading zeros. -/
def whole? : List Char → Option (List Char × List Char)
  | '0' :: cs => some (['0'], cs)
  | cs => digits? cs

/-- The digits behind the point, and whether there is a point. -/
def fraction : List Char → Bool × List Char × List Char
  | '.' :: cs =>
    match digits? cs with
    | some (ds, rest) => (true, ds, rest)
    | none => (false, [], '.' :: cs)
  | cs => (false, [], cs)

/-- The exponent behind its letter, with its sign. -/
def signedDigits? : List Char → Option (Int × List Char)
  | '-' :: cs => (digits? cs).map fun (ds, rest) => (-(digitsValue ds : Int), rest)
  | '+' :: cs => (digits? cs).map fun (ds, rest) => (digitsValue ds, rest)
  | cs => (digits? cs).map fun (ds, rest) => (digitsValue ds, rest)

/-- The exponent, if there is one. -/
def exponent : List Char → Option Int × List Char
  | [] => (none, [])
  | c :: cs =>
    if c = 'e' || c = 'E' then
      match signedDigits? cs with
      | some (e, rest) => (some e, rest)
      | none => (none, c :: cs)
    else (none, c :: cs)

/-- A number without its sign, if one stands here.  A whole number has at
most `Numeral.maxDigits` digits. -/
def number? (negative : Bool) (cs : List Char) :
    Option (Except Fault (Json × List Char)) := do
  let (ds, rest) ← whole? cs
  let (pointed, fs, rest) := fraction rest
  let (e?, rest) := exponent rest
  if pointed || e?.isSome then
    let x : Decimal :=
      ⟨negative, digitsValue (ds ++ fs), (e?.getD 0) - fs.length⟩
    return .ok (.decimal x, rest)
  else if Numeral.maxDigits < ds.length then return .error .numberTooLong
  else
    let n : Int := digitsValue ds
    return .ok (.integer (if negative then -n else n), rest)

/-! ### Strings -/

/-- The value of a hexadecimal digit. -/
def hexDigit? (c : Char) : Option Nat :=
  if c.isDigit then some (c.toNat - '0'.toNat)
  else if 'a' ≤ c ∧ c ≤ 'f' then some (c.toNat - 'a'.toNat + 10)
  else if 'A' ≤ c ∧ c ≤ 'F' then some (c.toNat - 'A'.toNat + 10)
  else none

/-- The number that four hexadecimal digits denote. -/
def hexValue? (a b c d : Char) : Option Nat := do
  return ((← hexDigit? a) * 16 + (← hexDigit? b)) * 256 +
    (← hexDigit? c) * 16 + (← hexDigit? d)

/-- The first half of a pair of code units. -/
def isHighHalf (n : Nat) : Bool := 0xD800 ≤ n && n < 0xDC00

/-- The second half of a pair of code units. -/
def isLowHalf (n : Nat) : Bool := 0xDC00 ≤ n && n < 0xE000

/-- The character of a code unit, a replacement for a lone half. -/
def unitChar (n : Nat) : Char :=
  if isHighHalf n || isLowHalf n then '\ufffd' else Char.ofNat n

/-- The character of a pair of code units. -/
def pairChar (high low : Nat) : Char :=
  Char.ofNat (0x10000 + (high - 0xD800) * 0x400 + (low - 0xDC00))

/-- The character of an escape of one letter. -/
def escape? : Char → Option Char
  | '"' => some '"'
  | '\\' => some '\\'
  | '/' => some '/'
  | 'b' => some '\x08'
  | 'f' => some '\x0c'
  | 'n' => some '\n'
  | 'r' => some '\r'
  | 't' => some '\t'
  | _ => none

/-- The code unit of an escape that stands at the start. -/
def unitEscape? : List Char → Option (Nat × List Char)
  | '\\' :: 'u' :: a :: b :: c :: d :: cs => (hexValue? a b c d).map (·, cs)
  | _ => none

/-- At most `n` steps of reading a string behind its opening quote. -/
def stringUpTo : Nat → List Char → Option (List Char × List Char)
  | 0, _ | _, [] => none
  | _ + 1, '"' :: cs => some ([], cs)
  | n + 1, '\\' :: 'u' :: cs => do
    let (high, rest) ← unitEscape? ('\\' :: 'u' :: cs)
    match if isHighHalf high then unitEscape? rest else none with
    | some (low, more) =>
      if isLowHalf low then
        let (s, after) ← stringUpTo n more
        return (pairChar high low :: s, after)
      else
        let (s, after) ← stringUpTo n rest
        return (unitChar high :: s, after)
    | none =>
      let (s, after) ← stringUpTo n rest
      return (unitChar high :: s, after)
  | n + 1, '\\' :: c :: cs => do
    let d ← escape? c
    let (s, rest) ← stringUpTo n cs
    return (d :: s, rest)
  | n + 1, c :: cs => do
    if c.toNat < 0x20 || c = '\\' then none
    else
      let (s, rest) ← stringUpTo n cs
      return (c :: s, rest)

/-- A string behind its opening quote. -/
def string? (cs : List Char) : Option (String × List Char) :=
  (stringUpTo cs.length cs).map fun (s, rest) => (String.ofList s, rest)

/-! ### Values -/

/-- The rest behind a word. -/
def word? (word : String) (cs : List Char) : Option (List Char) :=
  if word.toList.isPrefixOf cs then some (cs.drop word.length) else none

/-- A word that stands for a value. -/
def constant? (cs : List Char) : Option (Json × List Char) :=
  [("null", null), ("true", boolean true), ("false", boolean false),
    ("NaN", notANumber), ("Infinity", infinity false),
    ("-Infinity", infinity true)].findSome? fun (word, value) =>
      (word? word cs).map (value, ·)

/-- A value that has no values inside. -/
def scalar : List Char → Except Fault (Json × List Char)
  | '"' :: cs => do
    let (s, rest) ← orMalformed (string? cs)
    return (.string s, rest)
  | '-' :: cs =>
    (number? true cs).getD (orMalformed (constant? ('-' :: cs)))
  | cs => (number? false cs).getD (orMalformed (constant? cs))

mutual

/-- A value, at most `n` readers nested. -/
def valueUpTo : Nat → List Char → Except Fault (Json × List Char)
  | 0, _ => .error .malformed
  | n + 1, '[' :: cs =>
    match skipBlanks cs with
    | ']' :: rest => .ok (.array [], rest)
    | rest => do
      let (items, rest) ← itemsUpTo n rest
      return (.array items, rest)
  | n + 1, '\x7b' :: cs =>
    match skipBlanks cs with
    | '\x7d' :: rest => .ok (.object [], rest)
    | rest => do
      let (fields, rest) ← fieldsUpTo n [] rest
      return (.object fields, rest)
  | _ + 1, cs => scalar cs

/-- The items of an array and its closing bracket. -/
def itemsUpTo : Nat → List Char → Except Fault (List Json × List Char)
  | 0, _ => .error .malformed
  | n + 1, cs => do
    let (item, rest) ← valueUpTo n cs
    match skipBlanks rest with
    | ']' :: rest => return ([item], rest)
    | ',' :: rest =>
      let (items, rest) ← itemsUpTo n (skipBlanks rest)
      return (item :: items, rest)
    | _ => throw .malformed

/-- The fields of an object, added to those there are, and its closing
brace. -/
def fieldsUpTo : Nat → List (String × Json) → List Char →
    Except Fault (List (String × Json) × List Char)
  | n + 1, fs, '"' :: cs => do
    let (name, rest) ← orMalformed (string? cs)
    match skipBlanks rest with
    | ':' :: rest =>
      let (value, rest) ← valueUpTo n (skipBlanks rest)
      let fs := Bindings.set name value fs
      match skipBlanks rest with
      | '\x7d' :: rest => return (fs, rest)
      | ',' :: rest => fieldsUpTo n fs (skipBlanks rest)
      | _ => throw .malformed
    | _ => throw .malformed
  | _, _, _ => .error .malformed

end

/-- The value that a text denotes.  Each reader but the outermost two is
entered behind a character of its own, so that twice as many as characters
are enough. -/
def read (s : String) : Except Fault Json := do
  let cs := skipBlanks s.toList
  let (value, rest) ← valueUpTo (2 * cs.length + 2) cs
  if (skipBlanks rest).isEmpty then return value else throw .malformed

end MonkeyLang.Json

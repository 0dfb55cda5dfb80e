/-
A source text is cut into lexical pieces, from left to right and without
gap or overlap.

* `Piece`: newline, blanks, comment, string, digits, word, operator, or a
  single character that starts none of these;
* `Piece.first`: the piece at the start of a nonempty text, and the rest;
* `Piece.cut`: all pieces of a text;
* `text_first`: the first piece and the rest make up the text;
* `cut_cons`: cutting goes on with the rest;
* `flatMap_text_cut`: the pieces of a text, put together, are the text.
-/
import MonkeyLang.Text.Digit
import MonkeyLang.Token

namespace MonkeyLang

/-- The lexical pieces of a source text.  A string has the characters
between its quotes as they are written; it is closed when the second quote
is there. -/
inductive Piece where
  | newline
  | blanks (chars : List Char)
  | comment (chars : List Char)
  | string (body : List Char) (closed : Bool)
  | digits (chars : List Char)
  | word (chars : List Char)
  | operator (kind : Token.Kind)
  | illegal (char : Char)
deriving DecidableEq, Repr

namespace Piece

/-- The part of the source that a piece covers. -/
def text : Piece → List Char
  | newline => ['\n']
  | blanks cs => cs
  | comment cs => '/' :: '/' :: cs
  | string body closed => '"' :: body ++ if closed then ['"'] else []
  | digits cs => cs
  | word cs => cs
  | operator kind => kind.label.toList
  | illegal c => [c]

/-! ### Character classes -/

/-- A blank inside a line: space, tab, carriage return, form feed or
vertical tab. -/
def isBlank (c : Char) : Bool :=
  c = ' ' || c = '\t' || c = '\r' || c.toNat = 0x0C || c.toNat = 0x0B

/-- A character that can start a word: an ASCII letter or the underscore. -/
def isWordStart (c : Char) : Bool := c.isAlpha || c = '_'

/-- A character that can go on with a word: also an ASCII digit. -/
def isWordPart (c : Char) : Bool := c.isAlphanum || c = '_'

/-- A character inside a line. -/
def isInline (c : Char) : Bool := c != '\n'

/-! ### The first piece -/

/-- Reads a string literal behind its opening quote: its body, whether it
is closed, and the rest.  A backslash takes the next character with it; the
end of the text ends the string too.  There is no such literal when the
text ends in a backslash that takes nothing. -/
def stringBody : List Char → Option (List Char × Bool × List Char)
  | [] => some ([], false, [])
  | '"' :: cs => some ([], true, cs)
  | ['\\'] => none
  | '\\' :: c :: cs =>
    (stringBody cs).map fun (body, closed, rest) =>
      ('\\' :: c :: body, closed, rest)
  | c :: cs =>
    (stringBody cs).map fun (body, closed, rest) => (c :: body, closed, rest)

/-- Reads an operator or a delimiter that starts with `c`; of two that
start alike the longer one is taken. -/
def operator? : Char → List Char → Option (Token.Kind × List Char)
  | '=', '=' :: cs => some (.eq, cs)
  | '!', '=' :: cs => some (.notEq, cs)
  | c, cs => (Token.Kind.ofSymbol? c).map (·, cs)

/-- The first piece of a nonempty text, and the rest of the text. -/
def first (c : Char) (cs : List Char) : Piece × List Char :=
  if c = '\n' then (newline, cs)
  else if isBlank c then
    (blanks (c :: cs.takeWhile isBlank), cs.dropWhile isBlank)
  else if c = '/' ∧ cs.head? = some '/' then
    (comment (cs.tail.takeWhile isInline), cs.tail.dropWhile isInline)
  else if c = '"' then
    match stringBody cs with
    | some (body, closed, rest) => (string body closed, rest)
    | none => (illegal c, cs)
  else if Digit.isDigit c then
    (digits (c :: cs.takeWhile Digit.isDigit), cs.dropWhile Digit.isDigit)
  else if isWordStart c then
    (word (c :: cs.takeWhile isWordPart), cs.dropWhile isWordPart)
  else
    match operator? c cs with
    | some (kind, rest) => (operator kind, rest)
    | none => (illegal c, cs)

/-- A string literal covers what it was read from. -/
theorem text_stringBody {cs body rest : List Char} {closed : Bool}
    (h : stringBody cs = some (body, closed, rest)) :
    (string body closed).text ++ rest = '"' :: cs := by
  fun_induction stringBody cs generalizing body with
  | case1 => cases h; rfl
  | case2 => cases h; rfl
  | case3 => simp at h
  | case4 c cs ih =>
    obtain ⟨⟨b, k, r⟩, hb, he⟩ := Option.map_eq_some_iff.1 h
    cases he
    simpa [text] using ih hb
  | case5 c cs _ _ _ ih =>
    obtain ⟨⟨b, k, r⟩, hb, he⟩ := Option.map_eq_some_iff.1 h
    cases he
    simpa [text] using ih hb

/-- An operator covers what it was read from. -/
theorem text_operator? {c : Char} {cs rest : List Char} {kind : Token.Kind}
    (h : operator? c cs = some (kind, rest)) :
    (operator kind).text ++ rest = c :: cs := by
  unfold operator? at h
  split at h
  · cases h; rfl
  · cases h; rfl
  · obtain ⟨k, hk, he⟩ := Option.map_eq_some_iff.1 h
    cases he
    simp [text, Token.Kind.label_ofSymbol? hk]

/-- The first piece and the rest make up the text. -/
theorem text_first (c : Char) (cs : List Char) :
    (first c cs).1.text ++ (first c cs).2 = c :: cs := by
  unfold first
  split
  · next h => subst h; rfl
  split
  · simp [text]
  split
  · next h =>
    obtain ⟨rfl, hcs⟩ := h
    cases cs with
    | nil => simp at hcs
    | cons d ds =>
      simp only [List.head?_cons, Option.some.injEq] at hcs
      subst hcs
      simp [text]
  split
  · next h =>
    subst h
    split
    · next hs => exact text_stringBody hs
    · rfl
  split
  · simp [text]
  split
  · simp [text]
  split
  · next ho => exact text_operator? ho
  · rfl

/-- Every kind has a nonempty label. -/
theorem label_ne_nil (kind : Token.Kind) : kind.label.toList ≠ [] := by
  cases kind <;> decide

/-- No piece that is read is empty. -/
theorem text_first_ne_nil (c : Char) (cs : List Char) :
    (first c cs).1.text ≠ [] := by
  unfold first
  split
  · simp [text]
  split
  · simp [text]
  split
  · simp [text]
  split
  · split <;> simp [text]
  split
  · simp [text]
  split
  · simp [text]
  split
  · simpa [text] using label_ne_nil _
  · simp [text]

/-- The rest is shorter than the text. -/
theorem length_first_le (c : Char) (cs : List Char) :
    (first c cs).2.length ≤ cs.length := by
  have htext := congrArg List.length (text_first c cs)
  have hpos := List.length_pos_iff.2 (text_first_ne_nil c cs)
  simp only [List.length_append, List.length_cons] at htext
  omega

/-! ### All pieces -/

/-- Cuts at most `n` pieces off a text. -/
def cutUpTo : Nat → List Char → List Piece
  | 0, _ => []
  | _ + 1, [] => []
  | n + 1, c :: cs => (first c cs).1 :: cutUpTo n (first c cs).2

/-- The pieces of a text.  There are at most as many as characters. -/
def cut (cs : List Char) : List Piece := cutUpTo cs.length cs

/-- Once there is room for all characters, more room changes nothing. -/
theorem cutUpTo_eq_cut {n : Nat} {cs : List Char} (h : cs.length ≤ n) :
    cutUpTo n cs = cut cs := by
  induction n using Nat.strongRecOn generalizing cs with
  | ind n ih =>
    match n, cs with
    | 0, [] => rfl
    | n + 1, [] => rfl
    | n + 1, c :: cs =>
      have hle := length_first_le c cs
      have hn : cs.length ≤ n := by simpa using h
      rw [cut, List.length_cons, cutUpTo, cutUpTo, ih n (by omega) (by omega)]
      by_cases hc : cs.length < n + 1
      · rw [ih cs.length hc hle]
      · omega

/-- An empty text has no pieces. -/
@[simp] theorem cut_nil : cut [] = [] := rfl

/-- Cutting a nonempty text cuts off its first piece and goes on with the
rest. -/
theorem cut_cons (c : Char) (cs : List Char) :
    cut (c :: cs) = (first c cs).1 :: cut (first c cs).2 := by
  rw [cut, List.length_cons, cutUpTo, cutUpTo_eq_cut (length_first_le c cs)]

/-- The pieces of a text, put together, are the text. -/
theorem flatMap_text_cut (cs : List Char) : (cut cs).flatMap text = cs := by
  induction h : cs.length using Nat.strongRecOn generalizing cs with
  | ind n ih =>
    cases cs with
    | nil => rfl
    | cons c cs =>
      have hle := length_first_le c cs
      rw [cut_cons, List.flatMap_cons, ih _ (by simp at h; omega) _ rfl,
        text_first]

end Piece

end MonkeyLang

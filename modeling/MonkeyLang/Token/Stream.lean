/-
The tokens of a source text.

* `Position.after`: where a text ends that starts at a position; only the
  line feed starts a new line;
* `Piece.unescape`: the string that the body of a string literal denotes;
* `Piece.token?`: the token of a piece, if it has one; newlines, blanks and
  comments have none;
* `Token.stream`: the tokens of a text, with an end token behind them.
-/
import MonkeyLang.Token.Piece

namespace MonkeyLang

/-! ### Positions -/

/-- The position behind one character. -/
def Position.next (p : Position) (c : Char) : Position :=
  if c = '\n' then ⟨p.line + 1, 0⟩ else ⟨p.line, p.column + 1⟩

/-- The position behind a text that starts at `p`. -/
def Position.after (p : Position) (cs : List Char) : Position :=
  cs.foldl Position.next p

/-- The position behind two texts, one after the other. -/
theorem Position.after_append (p : Position) (cs ds : List Char) :
    p.after (cs ++ ds) = (p.after cs).after ds := List.foldl_append

namespace Piece

/-! ### The token of a piece -/

/-- The character that an escaped character stands for, if the escape has a
meaning. -/
def escape? : Char → Option Char
  | 'n' => some '\n'
  | 't' => some '\t'
  | 'r' => some '\r'
  | '"' => some '"'
  | '\\' => some '\\'
  | _ => none

/-- The string that the body of a literal denotes.  An escape without a
meaning stands for itself, backslash included. -/
def unescape : List Char → List Char
  | '\\' :: c :: cs =>
    match escape? c with
    | some d => d :: unescape cs
    | none => '\\' :: c :: unescape cs
  | c :: cs => c :: unescape cs
  | [] => []

/-- The token of a piece at a position.  Pieces that only lay the text out
have none. -/
def token? (p : Position) : Piece → Option Token
  | newline | blanks _ | comment _ => none
  | string body _ => some ⟨.string, String.ofList (unescape body), p⟩
  | digits cs => some ⟨.int, String.ofList cs, p⟩
  | word cs =>
    let text := String.ofList cs
    some ⟨Token.Kind.ofWord text, text, p⟩
  | operator kind => some ⟨kind, kind.label, p⟩
  | illegal c => some ⟨.illegal, c.toString, p⟩

/-- The tokens of pieces the first of which stands at `p`. -/
def tokens (p : Position) : List Piece → List Token
  | [] => []
  | piece :: rest =>
    (piece.token? p).toList ++ tokens (p.after piece.text) rest

/-- The tokens of two runs of pieces, one after the other. -/
theorem tokens_append (p : Position) (as bs : List Piece) :
    tokens p (as ++ bs) = tokens p as ++ tokens (p.after (as.flatMap text)) bs := by
  induction as generalizing p with
  | nil => rfl
  | cons a as ih => simp [tokens, ih, Position.after_append]

/-- A piece has no end token. -/
theorem kind_ne_eof {p : Position} {piece : Piece} {t : Token}
    (h : piece.token? p = some t) (hoperator : piece ≠ operator .eof) :
    t.kind ≠ .eof := by
  cases piece <;> simp only [token?, Option.some.injEq, reduceCtorEq] at h <;>
    subst h
  case string | digits | illegal => simp
  case operator kind => rintro rfl; exact hoperator rfl
  case word cs => exact Token.Kind.ofWord_ne_eof _

end Piece

/-! ### The stream -/

namespace Token

/-- The token that stands at the end of a stream. -/
def endAt (p : Position) : Token := ⟨.eof, "", p⟩

/-- The tokens of a source text and, last, the end token. -/
def stream (source : String) : List Token :=
  Piece.tokens .start (Piece.cut source.toList) ++
    [endAt (Position.start.after source.toList)]

end Token

end MonkeyLang

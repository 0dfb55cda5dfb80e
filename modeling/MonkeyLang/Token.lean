/-
Tokens of the Monkey language.

* `Token.Kind`: the kinds of tokens, each with the label under which
  messages and listings show it;
* `Token.Kind.ofWord`: the kind of a word, a keyword's or `ident`;
* `Token`: a kind, the text that stands for it and where it starts;
* `Token.Alike`: same kind and text, wherever the two tokens stand;
* `Token.Kind.ofLabel?_label`: a label names one kind only.
-/

namespace MonkeyLang

/-! ### Kinds -/

/-- The kinds of tokens: two special ones, names and literals, operators,
delimiters and keywords. -/
inductive Token.Kind where
  | illegal | eof
  | ident | int | string
  | assign | plus | minus | bang | asterisk | slash
  | lt | gt | eq | notEq
  | comma | semicolon | colon
  | lparen | rparen | lbrace | rbrace | lbracket | rbracket
  | function | letKey | trueKey | falseKey | ifKey | elseKey | returnKey
  | macroKey
deriving DecidableEq, Repr, Inhabited

namespace Token.Kind

/-- All kinds, in the order of their declaration. -/
def all : List Kind :=
  [illegal, eof, ident, int, string, assign, plus, minus, bang, asterisk,
   slash, lt, gt, eq, notEq, comma, semicolon, colon, lparen, rparen, lbrace,
   rbrace, lbracket, rbracket, function, letKey, trueKey, falseKey, ifKey,
   elseKey, returnKey, macroKey]

/-- The label of a kind: for operators and delimiters their own text. -/
def label : Kind → String
  | illegal => "ILLEGAL"
  | eof => "EOF"
  | ident => "IDENT"
  | int => "INT"
  | string => "STRING"
  | assign => "="
  | plus => "+"
  | minus => "-"
  | bang => "!"
  | asterisk => "*"
  | slash => "/"
  | lt => "<"
  | gt => ">"
  | eq => "=="
  | notEq => "!="
  | comma => ","
  | semicolon => ";"
  | colon => ":"
  | lparen => "("
  | rparen => ")"
  | lbrace => "\x7b"
  | rbrace => "\x7d"
  | lbracket => "["
  | rbracket => "]"
  | function => "FUNCTION"
  | letKey => "LET"
  | trueKey => "TRUE"
  | falseKey => "FALSE"
  | ifKey => "IF"
  | elseKey => "ELSE"
  | returnKey => "RETURN"
  | macroKey => "MACRO"

/-- The kind with this label. -/
def ofLabel? (s : String) : Option Kind := all.find? (·.label == s)

/-- A label names one kind only. -/
theorem ofLabel?_label (k : Kind) : ofLabel? k.label = some k := by
  cases k <;> decide

/-- The keywords and their kinds. -/
def keywords : List (String × Kind) :=
  [("fn", function), ("let", letKey), ("true", trueKey), ("false", falseKey),
   ("if", ifKey), ("else", elseKey), ("return", returnKey),
   ("macro", macroKey)]

/-- The kind of a word: that of the keyword it spells, else `ident`. -/
def ofWord (word : String) : Kind := (keywords.lookup word).getD ident

/-- What holds of names and of all keywords holds of all words. -/
theorem ofWord_of_keywords {P : Kind → Prop} (hident : P ident)
    (hkeywords : ∀ p ∈ keywords, P p.2) (word : String) : P (ofWord word) := by
  unfold ofWord
  cases h : keywords.lookup word with
  | none => exact hident
  | some k =>
    obtain ⟨_, _, heq, _⟩ := List.lookup_eq_some_iff.1 h
    exact hkeywords (word, k) (by simp [heq])

/-- No word spells the end of a text. -/
theorem ofWord_ne_eof (word : String) : ofWord word ≠ eof :=
  ofWord_of_keywords (P := (· ≠ eof)) nofun (by decide) word

/-- The kind of an operator or a delimiter of one character. -/
def ofSymbol? : Char → Option Kind
  | '=' => some assign
  | '+' => some plus
  | '-' => some minus
  | '!' => some bang
  | '*' => some asterisk
  | '/' => some slash
  | '<' => some lt
  | '>' => some gt
  | ',' => some comma
  | ';' => some semicolon
  | ':' => some colon
  | '(' => some lparen
  | ')' => some rparen
  | '\x7b' => some lbrace
  | '\x7d' => some rbrace
  | '[' => some lbracket
  | ']' => some rbracket
  | _ => none

/-- A symbol is the whole label of its kind. -/
theorem label_ofSymbol? {c : Char} {k : Kind} (h : ofSymbol? c = some k) :
    k.label.toList = [c] := by
  unfold ofSymbol? at h
  split at h <;> cases h <;> decide

end Token.Kind

/-! ### Tokens -/

/-- A place in a text: line and column, both counted from zero, the column
in characters. -/
structure Position where
  line : Nat
  column : Nat
deriving DecidableEq, Repr, Inhabited

/-- The start of a text. -/
def Position.start : Position := ⟨0, 0⟩

/-- A token: its kind, its text and where it starts.  The text of a string
token is the string that it denotes. -/
structure Token where
  kind : Token.Kind
  text : String
  position : Position
deriving DecidableEq, Repr, Inhabited

namespace Token

/-- A token that stands in no text, as new syntax has it. -/
def made (kind : Kind) (text : String) : Token := ⟨kind, text, .start⟩

/-- Two tokens are alike when they have the same kind and text; where they
stand does not count. -/
def Alike (s t : Token) : Prop := s.kind = t.kind ∧ s.text = t.text

instance (s t : Token) : Decidable (Alike s t) :=
  inferInstanceAs (Decidable (_ ∧ _))

/-- Being alike is reflexive. -/
theorem Alike.refl (t : Token) : Alike t t := ⟨rfl, rfl⟩

/-- Being alike is symmetric. -/
theorem Alike.symm {s t : Token} (h : Alike s t) : Alike t s :=
  ⟨h.1.symm, h.2.symm⟩

/-- Being alike is transitive. -/
theorem Alike.trans {s t u : Token} (h : Alike s t) (k : Alike t u) :
    Alike s u := ⟨h.1.trans k.1, h.2.trans k.2⟩

end Token

end MonkeyLang

/-
The ways of writing a tree as tokens.

* `Place.Demands`: where an expression must stand in parentheses: an operand
  that binds less strongly than its place asks for;
* `Writes`: some tokens write a phrase; parentheses that nothing demands may
  stand around any expression, as often as one likes;
* `Writes.kind_ne_eof`: none of these tokens ends the stream;
* `Phrase.Starts`: what the tokens of a phrase start with.
-/
import MonkeyLang.Parser.Grammar
import MonkeyLang.Proofs.Text.Numeral
import Mathlib.Tactic.Common

namespace MonkeyLang

/-! ### Tokens of expressions -/

namespace Token.Kind

/-- The operators that stand between two operands. -/
def isInfix : Token.Kind → Bool
  | eq | notEq | lt | gt | plus | minus | slash | asterisk => true
  | _ => false

/-- The operators that stand before their operand. -/
def isPrefix : Token.Kind → Bool
  | bang | minus => true
  | _ => false

/-- The kinds of tokens that an expression can start with. -/
def startsExpression : Token.Kind → Bool
  | ident | int | string | bang | minus | trueKey | falseKey | lparen | ifKey
  | function | macroKey | lbracket | lbrace => true
  | _ => false

/-- The kinds of tokens that end an expression wherever it stands. -/
def ends : Token.Kind → Bool
  | comma | semicolon | colon | rparen | rbrace | rbracket => true
  | _ => false

variable {k : Token.Kind}

lemma startsExpression_of_isPrefix (h : k.isPrefix = true) :
    k.startsExpression = true := by
  revert h
  cases k <;> decide

lemma ne_eof_of_isPrefix (h : k.isPrefix = true) : k ≠ .eof := by
  rintro rfl
  cases h

lemma ne_eof_of_isInfix (h : k.isInfix = true) : k ≠ .eof := by
  rintro rfl
  cases h

/-- What ends an expression does not go on with it. -/
lemma precedence_of_ends (h : k.ends = true) :
    k.precedence ≤ Grammar.lowest ∧ k ≠ .elseKey := by
  revert h
  cases k <;> decide

lemma not_bracket_of_isInfix (h : k.isInfix = true) :
    k ≠ .lparen ∧ k ≠ .lbracket := by
  constructor <;> rintro rfl <;> cases h

/-- Operators between operands bind more strongly than nothing and less than
operators before their operand. -/
lemma precedence_of_isInfix (h : k.isInfix = true) :
    Grammar.lowest < k.precedence ∧ k.precedence < Grammar.tight := by
  revert h
  cases k <;> decide

end Token.Kind

/-! ### Places -/

/-- Where an expression stands: on its own, left or right of an operator,
behind a prefix operator, or where it is called or indexed. -/
inductive Place where
  | free
  | left (operator : Token.Kind)
  | right (operator : Token.Kind)
  | operand
  | applied

/-- Whether an expression must stand in parentheses at a place.  Operators of
equal strength group to the left. -/
def Place.Demands : Place → Node → Prop
  | left op, .infixOp t _ _ => t.kind.precedence < op.precedence
  | right op, .infixOp t _ _ => t.kind.precedence ≤ op.precedence
  | operand, .infixOp .. => True
  | applied, .infixOp .. => True
  | applied, .prefixOp .. => True
  | _, _ => False

/-! ### Writing -/

/-- What is written: an expression without parentheses of its own, an
expression at a place, the parts of lists, statements and blocks. -/
inductive Phrase where
  | bare (n : Node)
  | expression (place : Place) (n : Node)
  | list (ns : List Node)
  | moreItems (ns : List Node)
  | params (ns : List Node)
  | moreParams (ns : List Node)
  | entries (ps : List (Node × Node))
  | statement (n : Node)
  | statements (ns : List Node)
  | block (n : Node)

/-- Some tokens write a phrase.  Every node has the token it is written with;
an expression statement has the first of its expression. -/
inductive Writes : Phrase → List Token → Prop where
  | ident {t : Token} (ht : t.kind = .ident) : Writes (.bare (.ident t)) [t]
  | intLit {t : Token} {n : ℕ} (ht : t.kind = .int)
      (hn : Numeral.Spells t.text n) (hmax : (n : Int) ≤ maxInteger) :
      Writes (.bare (.intLit t n)) [t]
  | trueLit {t : Token} (ht : t.kind = .trueKey) :
      Writes (.bare (.boolLit t true)) [t]
  | falseLit {t : Token} (ht : t.kind = .falseKey) :
      Writes (.bare (.boolLit t false)) [t]
  | strLit {t : Token} (ht : t.kind = .string) :
      Writes (.bare (.strLit t)) [t]
  | prefixOp {t : Token} {r : Node} {ts : List Token}
      (ht : t.kind.isPrefix = true) (hr : Writes (.expression .operand r) ts) :
      Writes (.bare (.prefixOp t r)) (t :: ts)
  | infixOp {t : Token} {l r : Node} {ts us : List Token}
      (ht : t.kind.isInfix = true)
      (hl : Writes (.expression (.left t.kind) l) ts)
      (hr : Writes (.expression (.right t.kind) r) us) :
      Writes (.bare (.infixOp t l r)) (ts ++ t :: us)
  | ifThen {t o c : Token} {n a : Node} {ts us : List Token}
      (ht : t.kind = .ifKey) (ho : o.kind = .lparen) (hc : c.kind = .rparen)
      (hn : Writes (.expression .free n) ts) (ha : Writes (.block a) us) :
      Writes (.bare (.conditional t n a .missing)) (t :: o :: (ts ++ c :: us))
  | ifThenElse {t o c s : Token} {n a b : Node} {ts us vs : List Token}
      (ht : t.kind = .ifKey) (ho : o.kind = .lparen) (hc : c.kind = .rparen)
      (hs : s.kind = .elseKey)
      (hn : Writes (.expression .free n) ts) (ha : Writes (.block a) us)
      (hb : Writes (.block b) vs) :
      Writes (.bare (.conditional t n a b))
        (t :: o :: (ts ++ c :: (us ++ s :: vs)))
  | function {t o c : Token} {ns : List Node} {b : Node} {ts us : List Token}
      (ht : t.kind = .function) (ho : o.kind = .lparen)
      (hc : c.kind = .rparen) (hns : Writes (.params ns) ts)
      (hb : Writes (.block b) us) :
      Writes (.bare (.function t ns b)) (t :: o :: (ts ++ c :: us))
  | macroFn {t o c : Token} {ns : List Node} {b : Node} {ts us : List Token}
      (ht : t.kind = .macroKey) (ho : o.kind = .lparen)
      (hc : c.kind = .rparen) (hns : Writes (.params ns) ts)
      (hb : Writes (.block b) us) :
      Writes (.bare (.macroFn t ns b)) (t :: o :: (ts ++ c :: us))
  | call {t c : Token} {f : Node} {as : List Node} {ts us : List Token}
      (ht : t.kind = .lparen) (hc : c.kind = .rparen)
      (hf : Writes (.expression .applied f) ts) (has : Writes (.list as) us) :
      Writes (.bare (.call t f as)) (ts ++ t :: (us ++ [c]))
  | array {t c : Token} {es : List Node} {ts : List Token}
      (ht : t.kind = .lbracket) (hc : c.kind = .rbracket)
      (hes : Writes (.list es) ts) :
      Writes (.bare (.array t es)) (t :: (ts ++ [c]))
  | index {t c : Token} {l i : Node} {ts us : List Token}
      (ht : t.kind = .lbracket) (hc : c.kind = .rbracket)
      (hl : Writes (.expression .applied l) ts)
      (hi : Writes (.expression .free i) us) :
      Writes (.bare (.index t l i)) (ts ++ t :: (us ++ [c]))
  | hash {t c : Token} {ps : List (Node × Node)} {ts : List Token}
      (ht : t.kind = .lbrace) (hc : c.kind = .rbrace)
      (hps : Writes (.entries ps) ts) :
      Writes (.bare (.hash t ps)) (t :: (ts ++ [c]))
  | plain {place : Place} {n : Node} {ts : List Token}
      (hplace : ¬ place.Demands n) (hn : Writes (.bare n) ts) :
      Writes (.expression place n) ts
  | group {place : Place} {o c : Token} {n : Node} {ts : List Token}
      (ho : o.kind = .lparen) (hc : c.kind = .rparen)
      (hn : Writes (.expression .free n) ts) :
      Writes (.expression place n) (o :: (ts ++ [c]))
  | noItems : Writes (.list []) []
  | items {n : Node} {ns : List Node} {ts us : List Token}
      (hn : Writes (.expression .free n) ts)
      (hns : Writes (.moreItems ns) us) : Writes (.list (n :: ns)) (ts ++ us)
  | itemsEnd : Writes (.moreItems []) []
  | item {s : Token} {n : Node} {ns : List Node} {ts us : List Token}
      (hs : s.kind = .comma) (hn : Writes (.expression .free n) ts)
      (hns : Writes (.moreItems ns) us) :
      Writes (.moreItems (n :: ns)) (s :: (ts ++ us))
  | noParams : Writes (.params []) []
  | params {t : Token} {ns : List Node} {ts : List Token}
      (ht : t.kind = .ident) (hns : Writes (.moreParams ns) ts) :
      Writes (.params (.ident t :: ns)) (t :: ts)
  | paramsEnd : Writes (.moreParams []) []
  | param {s t : Token} {ns : List Node} {ts : List Token}
      (hs : s.kind = .comma) (ht : t.kind = .ident)
      (hns : Writes (.moreParams ns) ts) :
      Writes (.moreParams (.ident t :: ns)) (s :: t :: ts)
  | noEntries : Writes (.entries []) []
  | lastEntry {s : Token} {k v : Node} {ts us : List Token}
      (hs : s.kind = .colon) (hk : Writes (.expression .free k) ts)
      (hv : Writes (.expression .free v) us) :
      Writes (.entries [(k, v)]) (ts ++ s :: us)
  | entry {s m : Token} {k v : Node} {ps : List (Node × Node)}
      {ts us vs : List Token} (hs : s.kind = .colon) (hm : m.kind = .comma)
      (hk : Writes (.expression .free k) ts)
      (hv : Writes (.expression .free v) us) (hps : Writes (.entries ps) vs) :
      Writes (.entries ((k, v) :: ps)) (ts ++ s :: (us ++ m :: vs))
  | letStmt {t name q s : Token} {v : Node} {ts : List Token}
      (ht : t.kind = .letKey) (hname : name.kind = .ident)
      (hq : q.kind = .assign) (hs : s.kind = .semicolon)
      (hv : Writes (.expression .free v) ts) :
      Writes (.statement (.letStmt t name v)) (t :: name :: q :: (ts ++ [s]))
  | returnStmt {t s : Token} {v : Node} {ts : List Token}
      (ht : t.kind = .returnKey) (hs : s.kind = .semicolon)
      (hv : Writes (.expression .free v) ts) :
      Writes (.statement (.returnStmt t v)) (t :: (ts ++ [s]))
  | exprStmt {t s : Token} {v : Node} {ts : List Token}
      (hs : s.kind = .semicolon)
      (hv : Writes (.expression .free v) (t :: ts)) :
      Writes (.statement (.exprStmt t v)) (t :: (ts ++ [s]))
  | noStatements : Writes (.statements []) []
  | statements {n : Node} {ns : List Node} {ts us : List Token}
      (hn : Writes (.statement n) ts) (hns : Writes (.statements ns) us) :
      Writes (.statements (n :: ns)) (ts ++ us)
  | block {o c : Token} {ns : List Node} {ts : List Token}
      (ho : o.kind = .lbrace) (hc : c.kind = .rbrace)
      (hns : Writes (.statements ns) ts) :
      Writes (.block (.block o ns)) (o :: (ts ++ [c]))

/-! ### First tokens -/

/-- What the tokens that write a phrase start with. -/
def Phrase.Starts : Phrase → List Token → Prop
  | bare _, ts | expression _ _, ts =>
    ∃ t us, ts = t :: us ∧ t.kind.startsExpression = true
  | moreItems _, ts | moreParams _, ts =>
    ts = [] ∨ ∃ t us, ts = t :: us ∧ t.kind = .comma
  | statement _, ts =>
    ∃ t us, ts = t :: us ∧ (t.kind.startsExpression = true ∨
      t.kind = .letKey ∨ t.kind = .returnKey)
  | block _, ts => ∃ t us, ts = t :: us ∧ t.kind = .lbrace
  | _, _ => True

/-- No token that writes a phrase ends the stream. -/
theorem Writes.kind_ne_eof {p : Phrase} {ts : List Token} (h : Writes p ts) :
    ∀ t ∈ ts, t.kind ≠ .eof := by
  induction h with
  | prefixOp ht _ ihr =>
      simpa [Token.Kind.ne_eof_of_isPrefix ht] using ihr
  | infixOp ht _ _ ihl ihr =>
      simp only [List.mem_append, List.mem_cons, or_imp, forall_and, forall_eq]
      exact ⟨ihl, Token.Kind.ne_eof_of_isInfix ht, ihr⟩
  | _ => simp_all [or_imp, forall_and]

end MonkeyLang

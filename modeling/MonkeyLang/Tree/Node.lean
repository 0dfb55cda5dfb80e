/-
Syntax trees of the Monkey language.

* `Node`: one type for programs, statements and expressions, since a
  change of a tree may put any of them anywhere;
* `Node.missing` stands where a child is absent: after a failed parse, and
  for the alternative of a conditional without one;
* `Node.Kind`: what a node is, and `Node.kind` reads it off;
* `Node.lead`: the text of the token that a node starts with;
* `Node.induct`: induction over trees, child by child.
-/
import MonkeyLang.Token

namespace MonkeyLang

/-- Syntax trees.  Each node but a program carries the token it was made
for; names, operators and the texts of literals are the texts of these
tokens. -/
inductive Node where
  | missing
  | program (statements : List Node)
  | letStmt (token name : Token) (value : Node)
  | returnStmt (token : Token) (value : Node)
  | exprStmt (token : Token) (expression : Node)
  | block (token : Token) (statements : List Node)
  | ident (token : Token)
  | intLit (token : Token) (value : Int)
  | boolLit (token : Token) (value : Bool)
  | strLit (token : Token)
  | prefixOp (token : Token) (right : Node)
  | infixOp (token : Token) (left right : Node)
  | conditional (token : Token) (condition consequence alternative : Node)
  | function (token : Token) (params : List Node) (body : Node)
  | macroFn (token : Token) (params : List Node) (body : Node)
  | call (token : Token) (callee : Node) (args : List Node)
  | array (token : Token) (elements : List Node)
  | index (token : Token) (left position : Node)
  | hash (token : Token) (pairs : List (Node × Node))
deriving Inhabited, Repr

namespace Node

/-! ### What a node is -/

/-- The kinds of nodes. -/
inductive Kind where
  | missing | program | letStmt | returnStmt | exprStmt | block | ident
  | intLit | boolLit | strLit | prefixOp | infixOp | conditional | function
  | macroFn | call | array | index | hash
deriving DecidableEq, Repr, Inhabited

/-- The kind of a node. -/
def kind : Node → Kind
  | missing => .missing
  | program _ => .program
  | letStmt .. => .letStmt
  | returnStmt .. => .returnStmt
  | exprStmt .. => .exprStmt
  | block .. => .block
  | ident _ => .ident
  | intLit .. => .intLit
  | boolLit .. => .boolLit
  | strLit _ => .strLit
  | prefixOp .. => .prefixOp
  | infixOp .. => .infixOp
  | conditional .. => .conditional
  | function .. => .function
  | macroFn .. => .macroFn
  | call .. => .call
  | array .. => .array
  | index .. => .index
  | hash .. => .hash

/-- Whether nothing stands here. -/
def isMissing : Node → Bool
  | missing => true
  | _ => false

/-- The token of a node, if it has one. -/
def token? : Node → Option Token
  | missing | program _ => none
  | letStmt t _ _ | returnStmt t _ | exprStmt t _ | block t _ | ident t
  | intLit t _ | boolLit t _ | strLit t | prefixOp t _ | infixOp t _ _
  | conditional t _ _ _ | function t _ _ | macroFn t _ _ | call t _ _
  | array t _ | index t _ _ | hash t _ => some t

/-- The text of the token that a node starts with; a program takes it from
its first statement. -/
def lead : Node → String
  | program (s :: _) => lead s
  | n => (n.token?.map (·.text)).getD ""

/-- The name of an identifier, and the text of the token of another node. -/
def name (n : Node) : String := n.lead

/-! ### New literals -/

/-- The literal of an integer, in no text. -/
def ofInt (n : Int) : Node := intLit (.made .int (toString n)) n

/-- The literal of a truth value, in no text. -/
def ofBool (b : Bool) : Node :=
  if b then boolLit (.made .trueKey "true") true
  else boolLit (.made .falseKey "false") false

/-- The identifier with this name, in no text. -/
def ofName (name : String) : Node := ident (.made .ident name)

/-! ### Induction -/

/-- Induction over trees: a statement holds of every tree if it holds of
the nodes without children and goes up from the children of each other
node.  Of lists of children it is taken member by member. -/
theorem induct {P : Node → Prop}
    (missing : P missing)
    (program : ∀ ss, (∀ s ∈ ss, P s) → P (program ss))
    (letStmt : ∀ t name v, P v → P (letStmt t name v))
    (returnStmt : ∀ t v, P v → P (returnStmt t v))
    (exprStmt : ∀ t v, P v → P (exprStmt t v))
    (block : ∀ t ss, (∀ s ∈ ss, P s) → P (block t ss))
    (ident : ∀ t, P (ident t))
    (intLit : ∀ t n, P (intLit t n))
    (boolLit : ∀ t b, P (boolLit t b))
    (strLit : ∀ t, P (strLit t))
    (prefixOp : ∀ t r, P r → P (prefixOp t r))
    (infixOp : ∀ t l r, P l → P r → P (infixOp t l r))
    (conditional : ∀ t c a b, P c → P a → P b → P (conditional t c a b))
    (function : ∀ t ps b, (∀ p ∈ ps, P p) → P b → P (function t ps b))
    (macroFn : ∀ t ps b, (∀ p ∈ ps, P p) → P b → P (macroFn t ps b))
    (call : ∀ t c as, P c → (∀ a ∈ as, P a) → P (call t c as))
    (array : ∀ t es, (∀ e ∈ es, P e) → P (array t es))
    (index : ∀ t l i, P l → P i → P (index t l i))
    (hash : ∀ t ps, (∀ p ∈ ps, P p.1 ∧ P p.2) → P (hash t ps))
    (n : Node) : P n :=
  @Node.rec P (fun ns => ∀ n ∈ ns, P n)
    (fun ps => ∀ p ∈ ps, P p.1 ∧ P p.2) (fun p => P p.1 ∧ P p.2)
    missing program letStmt returnStmt exprStmt block ident intLit boolLit
    strLit prefixOp infixOp conditional function macroFn call array index hash
    (by simp) (by simp +contextual) (by simp) (by simp +contextual)
    (fun _ _ h k => ⟨h, k⟩) n

end Node

end MonkeyLang

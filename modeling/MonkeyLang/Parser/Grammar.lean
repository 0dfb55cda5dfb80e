/-
The grammar of the Monkey language, by operator precedence.

* `precedence`: how strongly an operator binds that follows an expression;
* `expressionWith expr`: an expression, where `expr p` reads the nested
  ones, of operators that bind more strongly than `p`;
* `expression n`: an expression nested at most `n` deep;
* `program`: a whole program.

All rules but the last two take the reader `expr` of nested expressions as
their first argument.  A rule stops at its last token and does not move
past it.
-/
import MonkeyLang.Integer
import MonkeyLang.Parser.Reader
import MonkeyLang.Text.Numeral
import MonkeyLang.Tree.Node

namespace MonkeyLang

/-! ### Precedence -/

/-- How strongly a token binds to the expression before it; tokens that go
on with no expression have the lowest precedence. -/
def Token.Kind.precedence : Token.Kind → Nat
  | .eq | .notEq => 2
  | .lt | .gt => 3
  | .plus | .minus => 4
  | .slash | .asterisk => 5
  | .lparen => 7
  | .lbracket => 8
  | _ => 1

namespace Grammar

open Parse

/-- The precedence of a whole expression. -/
def lowest : Nat := 1

/-- The precedence of the operand of a prefix operator. -/
def tight : Nat := 6

/-! ### Atoms -/

/-- An identifier. -/
def identifier : Parse Node := entering .identifier do
  return .ident (← current)

/-- An integer literal; digits that denote no integer up to `maxInteger`
are a fault. -/
def integer : Parse Node := entering .integer do
  let t ← current
  match (Numeral.read? t.text).filter (· ≤ maxInteger) with
  | some n => return .intLit t n
  | none =>
    modify (Reader.report (.badInteger t.text) t)
    return .missing

/-- A string literal. -/
def string : Parse Node := entering .string do
  return .strLit (← current)

/-- A truth value. -/
def boolean : Parse Node := entering .boolean do
  let t ← current
  return .boolLit t (t.kind = .trueKey)

/-! ### Statements -/

variable (expr : Nat → Parse Node)

/-- A `let` statement.  Nothing is left of one without a name or an equals
sign. -/
def letStatement : Parse (Option Node) := entering .letStatement do
  let t ← current
  expecting .ident none do
    let name ← current
    expecting .assign none do
      advance
      let value ← expr lowest
      skip .semicolon
      return some (.letStmt t name value)

/-- A `return` statement. -/
def returnStatement : Parse Node := entering .returnStatement do
  let t ← current
  advance
  let value ← expr lowest
  skip .semicolon
  return .returnStmt t value

/-- An expression as a statement. -/
def expressionStatement : Parse Node := entering .expressionStatement do
  let t ← current
  let value ← expr lowest
  skip .semicolon
  return .exprStmt t value

/-- A statement. -/
def statement : Parse (Option Node) := entering .statement do
  match (← current).kind with
  | .letKey => letStatement expr
  | .returnKey => return some (← returnStatement expr)
  | _ => return some (← expressionStatement expr)

/-- One round of a statement sequence: a statement and a step past its last
token, unless a token that ends the sequence stands here. -/
def statementRound (stop : Token.Kind → Bool) :
    Parse (Round (Option Node)) := do
  if stop (← current).kind then return .done
  else
    let s ← statement expr
    advance
    return .item s

/-- The statements up to a token that ends them. -/
def statements (stop : Token.Kind → Bool) : Parse (List Node) := do
  let found ← repeated (statementRound expr stop)
  return (found.getD []).filterMap id

/-- The end of a program. -/
def endsProgram (kind : Token.Kind) : Bool := kind = .eof

/-- The end of a block. -/
def endsBlock (kind : Token.Kind) : Bool := kind = .rbrace || kind = .eof

/-- A block, from its opening brace on. -/
def block : Parse Node := entering .block do
  let t ← current
  advance
  return .block t (← statements expr endsBlock)

/-! ### Lists -/

/-- One further item of a list: what `item` reads behind a comma. -/
def listRound (item : Parse (Round Node)) : Parse (Round Node) := do
  if (← next).kind = .comma then
    advance
    item
  else return .done

/-- Reads one expression of a list, the current token being the one before
it. -/
def listItem : Parse (Round Node) := do
  advance
  return .item (← expr lowest)

/-- The expressions of a list, separated by commas, and the token that
closes it. -/
def list (close : Token.Kind) : Parse (Option (List Node)) :=
  entering .list do
    if (← next).kind = close then
      advance
      return some []
    else
      advance
      let first ← expr lowest
      let more ← repeated (listRound (listItem expr))
      expecting close none do
        return more.map (first :: ·)

/-- Reads one parameter, the current token being the one before it. -/
def parameterItem : Parse (Round Node) :=
  expecting .ident .broken do
    return .item (.ident (← current))

/-- The parameters of a function, separated by commas, and the parenthesis
that closes them. -/
def parameters : Parse (Option (List Node)) := entering .parameters do
  if (← next).kind = .rparen then
    advance
    return some []
  else
    expecting .ident none do
      let first ← current
      match ← repeated (listRound parameterItem) with
      | none => return none
      | some more =>
        expecting .rparen none do
          return some (.ident first :: more)

/-! ### Expressions that start with a token of their own -/

/-- An operator before its operand. -/
def prefixOperation : Parse Node := entering .prefixOperation do
  let t ← current
  advance
  return .prefixOp t (← expr tight)

/-- An expression in parentheses, which leave no trace in the tree. -/
def group : Parse Node := entering .group do
  advance
  let inner ← expr lowest
  expecting .rparen .missing do
    return inner

/-- A conditional, with or without an alternative. -/
def conditional : Parse Node := entering .conditional do
  let t ← current
  expecting .lparen .missing do
    advance
    let condition ← expr lowest
    expecting .rparen .missing do
      expecting .lbrace .missing do
        let consequence ← block expr
        if (← next).kind = .elseKey then
          advance
          expecting .lbrace .missing do
            return .conditional t condition consequence (← block expr)
        else
          return .conditional t condition consequence .missing

/-- What functions and macros have in common: parameters and a body. -/
def abstraction (make : Token → List Node → Node → Node) : Parse Node := do
  let t ← current
  expecting .lparen .missing do
    match ← parameters with
    | none => return .missing
    | some params =>
      expecting .lbrace .missing do
        return make t params (← block expr)

/-- A function literal. -/
def function : Parse Node := entering .function do
  abstraction expr .function

/-- A macro literal. -/
def macroLiteral : Parse Node := entering .macroLiteral do
  abstraction expr .macroFn

/-- An array literal. -/
def array : Parse Node := entering .array do
  let t ← current
  match ← list expr .rbracket with
  | none => return .missing
  | some elements => return .array t elements

/-- One entry of a hash literal and the comma behind it, which may be left
out before the closing brace. -/
def hashRound : Parse (Round (Node × Node)) := do
  if (← next).kind = .rbrace then return .done
  else
    advance
    let key ← expr lowest
    expecting .colon .broken do
      advance
      let value ← expr lowest
      if (← next).kind = .rbrace then return .item (key, value)
      else
        expecting .comma .broken do
          return .item (key, value)

/-- A hash literal. -/
def hash : Parse Node := entering .hash do
  let t ← current
  match ← repeated (hashRound expr) with
  | none => return .missing
  | some pairs =>
    expecting .rbrace .missing do
      return .hash t pairs

/-- The rule for the expressions that start with a token of a kind. -/
def startRule? : Token.Kind → Option (Parse Node)
  | .ident => some identifier
  | .int => some integer
  | .string => some string
  | .bang | .minus => some (prefixOperation expr)
  | .trueKey | .falseKey => some boolean
  | .lparen => some (group expr)
  | .ifKey => some (conditional expr)
  | .function => some (function expr)
  | .macroKey => some (macroLiteral expr)
  | .lbracket => some (array expr)
  | .lbrace => some (hash expr)
  | _ => none

/-! ### Expressions that go on with an expression -/

/-- An operator between its operands.  Its right operand takes operators
that bind more strongly only, so that equal ones group to the left. -/
def infixOperation (left : Node) : Parse Node := entering .infixOperation do
  let t ← current
  advance
  return .infixOp t left (← expr t.kind.precedence)

/-- A call, from its opening parenthesis on. -/
def call (callee : Node) : Parse Node := entering .call do
  let t ← current
  match ← list expr .rparen with
  | none => return .missing
  | some args => return .call t callee args

/-- An index, from its opening bracket on. -/
def index (left : Node) : Parse Node := entering .index do
  let t ← current
  advance
  let position ← expr lowest
  expecting .rbracket .missing do
    return .index t left position

/-- Goes on with an expression at the current token. -/
def extend (left : Node) : Parse Node := do
  match (← current).kind with
  | .lparen => call expr left
  | .lbracket => index expr left
  | _ => infixOperation expr left

/-- Goes on with an expression, at most `n` times, while a token follows
that binds more strongly than `level`. -/
def extensions (level : Nat) : Nat → Node → Parse Node
  | 0, _ => exhausted
  | n + 1, left => do
    if level < (← next).kind.precedence then
      advance
      extensions level n (← extend expr left)
    else return left

/-- An expression of operators that bind more strongly than `level`. -/
def expressionWith (level : Nat) : Parse Node := entering .expression do
  let t ← current
  match startRule? expr t.kind with
  | none =>
    modify (Reader.report (.noExpression t.kind) t)
    return .missing
  | some rule =>
    let left ← rule
    extensions expr level ((← get).unread.length + 1) left

/-! ### Expressions and programs -/

/-- An expression that is nested at most `n` deep. -/
def expression : Nat → Nat → Parse Node
  | 0, _ => exhausted
  | n + 1, level => expressionWith (expression n) level

/-- A program.  Its expressions are nested at most as deep as it has
tokens. -/
def program : Parse Node := entering .program do
  let depth := (← get).unread.length + 1
  return .program (← statements (expression depth) endsProgram)

end Grammar

end MonkeyLang

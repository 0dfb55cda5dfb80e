/-
The state in which a parser reads tokens.

* `Reader`: the tokens not yet read, the diagnostics so far and the trace;
* `Reader.current`, `Reader.next`: the two tokens that a parser looks at;
* `Rule`: the rules of the grammar; some of them are traced;
* `unread_enter`, `unread_leave` and their like: recording a rule changes
  neither the tokens nor the faults;
* `Trace.Line`: the start or the end of a traced rule, with the number of
  traced rules around it;
* `Parse`: what reads tokens and gives an answer;
* `entering`: reads by a rule, and records that.
-/
import MonkeyLang.Diagnostic

namespace MonkeyLang

/-! ### Rules and traces -/

/-- The rules of the grammar. -/
inductive Rule where
  | program | statement | letStatement | returnStatement
  | expressionStatement | block | expression | identifier | integer | string
  | boolean | prefixOperation | infixOperation | group | conditional
  | function | macroLiteral | parameters | call | array | list | index | hash
deriving DecidableEq, Repr

namespace Rule

/-- The name under which a rule is traced, for those that are. -/
def traceName? : Rule → Option String
  | expressionStatement => some "parse_expression_statement"
  | expression => some "parse_expression"
  | integer => some "parse_integer_literal"
  | prefixOperation => some "parse_prefix_expression"
  | infixOperation => some "parse_infix_expression"
  | _ => none

end Rule

/-- The two ends of a traced rule. -/
inductive Trace.Mark where
  | opening
  | closing
deriving DecidableEq, Repr

/-- A line of a trace: one end of a rule, and how many traced rules are
open around it. -/
structure Trace.Line where
  depth : Nat
  mark : Trace.Mark
  name : String
deriving DecidableEq, Repr

namespace Trace

/-- The word for an end of a rule. -/
def Mark.text : Mark → String
  | opening => "BEGIN"
  | closing => "END"

/-- The wording of a line, with a tab for each rule around it. -/
def Line.text (l : Line) : String :=
  "".pushn '\t' l.depth ++ l.mark.text ++ " " ++ l.name

end Trace

/-! ### Readers -/

/-- A parser's state.  `unread` holds the tokens from the current one on,
without the end token, which stands behind them for ever.  `calls` counts
the rules that were entered. -/
structure Reader where
  unread : List Token
  eof : Token
  diagnostics : Array Diagnostic
  tracing : Bool
  depth : Nat
  trace : Array Trace.Line
  calls : Nat
deriving Repr

namespace Reader

/-- Whether a token ends the stream. -/
def isEnd (t : Token) : Bool := t.kind = .eof

/-- The reader at the start of a stream.  Only the tokens before the first
end token are read; a stream without one gets one that stands in no
text. -/
def ofTokens (ts : List Token) (tracing : Bool) : Reader where
  unread := ts.takeWhile (!isEnd ·)
  eof := (ts.find? isEnd).getD (.made .eof "")
  diagnostics := #[]
  tracing := tracing
  depth := 0
  trace := #[]
  calls := 0

/-- The current token. -/
def current (r : Reader) : Token := r.unread.headD r.eof

/-- The token behind the current one. -/
def next (r : Reader) : Token := r.unread.tail.headD r.eof

/-- Moves on by one token. -/
def advance (r : Reader) : Reader := { r with unread := r.unread.tail }

/-- Records a fault that was met at a token. -/
def report (cause : Diagnostic.Cause) (t : Token) (r : Reader) : Reader :=
  { r with diagnostics := r.diagnostics.push ⟨cause, t.position⟩ }

/-- Records one end of a traced rule if the reader is tracing. -/
def log (mark : Trace.Mark) (name : String) (r : Reader) : Reader :=
  if r.tracing then { r with trace := r.trace.push ⟨r.depth, mark, name⟩ }
  else r

/-- Records that a rule is entered. -/
def enter (rule : Rule) (r : Reader) : Reader :=
  let r := { r with calls := r.calls + 1 }
  match rule.traceName? with
  | some name => let r := r.log .opening name; { r with depth := r.depth + 1 }
  | none => r

/-- Records that a rule is left. -/
def leave (rule : Rule) (r : Reader) : Reader :=
  match rule.traceName? with
  | some name =>
    let r := { r with depth := r.depth - 1 }
    r.log .closing name
  | none => r

/-! What is recorded of the rules changes neither the tokens nor the faults. -/

section Records

variable (rule : Rule) (mark : Trace.Mark) (name : String) (r : Reader)

@[simp]
theorem unread_log : (r.log mark name).unread = r.unread := by
  unfold log
  split <;> rfl

@[simp]
theorem eof_log : (r.log mark name).eof = r.eof := by
  unfold log
  split <;> rfl

@[simp]
theorem diagnostics_log : (r.log mark name).diagnostics = r.diagnostics := by
  unfold log
  split <;> rfl

@[simp]
theorem unread_enter : (r.enter rule).unread = r.unread := by
  unfold enter
  cases rule.traceName? <;> simp

@[simp]
theorem eof_enter : (r.enter rule).eof = r.eof := by
  unfold enter
  cases rule.traceName? <;> simp

@[simp]
theorem diagnostics_enter : (r.enter rule).diagnostics = r.diagnostics := by
  unfold enter
  cases rule.traceName? <;> simp

@[simp]
theorem unread_leave : (r.leave rule).unread = r.unread := by
  unfold leave
  cases rule.traceName? <;> simp

@[simp]
theorem eof_leave : (r.leave rule).eof = r.eof := by
  unfold leave
  cases rule.traceName? <;> simp

@[simp]
theorem diagnostics_leave : (r.leave rule).diagnostics = r.diagnostics := by
  unfold leave
  cases rule.traceName? <;> simp

@[simp]
theorem current_enter : (r.enter rule).current = r.current := by
  simp [current]

end Records

end Reader

/-! ### Reading -/

/-- What reads tokens and gives an answer.  There is no answer when the
bound on the nesting of rules or on the rounds of a repetition is met,
which the bounds that the parser sets never let happen. -/
abbrev Parse := StateT Reader Option

namespace Parse

variable {α : Type}

/-- Gives no answer. -/
def exhausted : Parse α := fun _ => none

/-- The current token. -/
def current : Parse Token := do return (← get).current

/-- The token behind the current one. -/
def next : Parse Token := do return (← get).next

/-- Moves on by one token. -/
def advance : Parse Unit := modify Reader.advance

/-- Moves on if the next token is of the kind that has to follow, else
records a fault at it; says which. -/
def expect (kind : Token.Kind) : Parse Bool := do
  let t ← next
  if t.kind = kind then
    advance
    return true
  else
    modify (Reader.report (.unexpected kind t.kind) t)
    return false

/-- Reads on behind a token of the kind that has to follow; without one the
answer is `otherwise`. -/
def expecting (kind : Token.Kind) (otherwise : α) (rest : Parse α) :
    Parse α := do
  if ← expect kind then rest else return otherwise

/-- Moves on if the next token is of this kind. -/
def skip (kind : Token.Kind) : Parse Unit := do
  if (← next).kind = kind then advance

/-- Reads by a rule, and records that. -/
def entering (rule : Rule) (body : Parse α) : Parse α := do
  modify (Reader.enter rule)
  let a ← body
  modify (Reader.leave rule)
  return a

/-! ### Repetition -/

/-- What one round of a repetition found: an item, the end of the
repetition, or a fault because of which the whole repetition has no
answer. -/
inductive Round (α : Type) where
  | item (a : α)
  | done
  | broken

/-- Goes through at most `n` rounds and collects their items. -/
def rounds (round : Parse (Round α)) : Nat → Parse (Option (List α))
  | 0 => exhausted
  | n + 1 => do
    match ← round with
    | .item a => return (← rounds round n).map (a :: ·)
    | .done => return some []
    | .broken => return none

/-- Repeats a round that reads at least one token for each item, so that
there is one round for each unread token and one for the end. -/
def repeated (round : Parse (Round α)) : Parse (Option (List α)) := do
  rounds round ((← get).unread.length + 1)

end Parse

end MonkeyLang

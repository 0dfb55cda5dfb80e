/-
Evaluation of trees.

* `evalWith rec`: one step of evaluation, where `rec` evaluates the parts
  of a node and the bodies of functions;
* `applyWith rec`: the result of calling a value;
* `eval n`: evaluation with at most `n` evaluations nested in each other;
* `apply n`: calling, with the same bound.

Nodes are evaluated in the frame with the number `e`.  A part without a
value counts as null where a value is needed.  A sequence of statements
ends at a value that is marked as returned; a function's caller gets that
value without the mark.
-/
import MonkeyLang.Eval.Quote

namespace MonkeyLang

section

variable (rec : Node → Nat → Run (Option Value))

/-! ### Parts -/

/-- The value of a part where a value is needed. -/
def operand (e : Nat) (n : Node) : Run Value :=
  return (← rec n e).getD .null

/-- The values of several parts, from left to right. -/
def operands (e : Nat) : List Node → Run (List Value)
  | [] => return []
  | n :: ns => do
    let v ← operand rec e n
    let vs ← operands e ns
    return v :: vs

/-- The value of the last of some statements, `last` if there is none; the
sequence ends early at a returned value. -/
def sequence (e : Nat) : Option Value → List Node → Run (Option Value)
  | last, [] => return last
  | _, n :: ns => do
    match ← rec n e with
    | some (.returned v) => return some (.returned v)
    | v? => sequence e v? ns

/-- The entries of a hash, added to those there are.  Whether a key can be
one is asked before its value is evaluated. -/
def entries (e : Nat) (t : Table) : List (Node × Node) → Run Table
  | [] => return t
  | (k, v) :: ps => do
    let key ← operand rec e k
    let h ← Run.ofExcept key.hashKey
    let value ← operand rec e v
    entries e (t.set h (key, value)) ps

/-! ### Names and calls -/

/-- The value of a name: what it is bound to, else the function of that
name that the language comes with. -/
def named (e : Nat) (name : String) : Run (Option Value) := do
  match (← get).lookup e name with
  | some v => Run.settle (.ok v)
  | none =>
    match Builtin.ofName? name with
    | some b => return some (.builtin b)
    | none => throw (.identifierNotFound name)

/-- The bindings of parameters to arguments, in order. -/
def parameterBindings (names : List String) (args : List Value) :
    Bindings String Value :=
  (names.zip args).foldl (fun bs (name, v) => bs.set name v) []

/-- Makes the frame of a call. -/
def callFrame (c : Closure) (args : List Value) : Run Nat :=
  Run.make fun s =>
    s.addFrame (parameterBindings c.names args) (some c.frame)

/-- The result of calling a value: a function's body is evaluated in a new
frame inside the one the function was made in. -/
def applyWith (f : Value) (args : List Value) : Run (Option Value) :=
  match f with
  | .function c =>
    if args.length = c.params.length then do
      let e ← callFrame c args
      Run.deliver (← rec c.body e)
    else throw (.argumentCount c.params.length args.length)
  | .builtin b => b.call args
  | v => throw (.notAFunction v.kind)

/-- The result of a call: a special form gets the arguments as they are
written, all else gets their values. -/
def callWith (e : Nat) (callee : Node) (args : List Node) :
    Run (Option Value) :=
  match SpecialForm.ofCallee? callee, args with
  | some .quote, [n] => return some (.quote (← quoteWith rec e n))
  | some .quote, ns => throw (.quoteArgumentCount ns.length)
  | some .unquote, _ => throw .strayUnquote
  | none, ns => do
    let f ← operand rec e callee
    let vs ← operands rec e ns
    applyWith rec f vs

/-! ### One step -/

/-- The value of a node in a frame, if it has one. -/
def evalWith (n : Node) (e : Nat) : Run (Option Value) :=
  match n with
  | .missing => return none
  | .program ss => do Run.deliver (← sequence rec e none ss)
  | .block _ ss => sequence rec e none ss
  | .exprStmt _ n => rec n e
  | .returnStmt _ n => return some (.returned (← operand rec e n))
  | .letStmt _ name n => do
    let v ← operand rec e n
    Run.change (Store.bind e name.text v)
    return none
  | .intLit _ n => return some (.integer n)
  | .boolLit _ b => return some (.boolean b)
  | .strLit t => return some (.string t.text)
  | .array _ ns => return some (.array (← operands rec e ns))
  | .hash _ ps => return some (.hash (← entries rec e .empty ps))
  | .function _ ps b => do
    return some (.function (← Run.make (Store.makeClosure ps b e)))
  | .macroFn _ ps b => do
    return some (.macroFn (← Run.make (Store.makeClosure ps b e)))
  | .prefixOp t r => do
    let v ← operand rec e r
    Run.settle (Value.prefixOp t.text v)
  | .infixOp t l r => do
    let v ← operand rec e l
    let w ← operand rec e r
    Run.settle (Value.infixOp t.text v w)
  | .conditional _ c a b => do
    if Value.holds (← rec c e) then rec a e
    else if b.isMissing then return some .null
    else rec b e
  | .ident t => named e t.text
  | .index _ l i => do
    let v ← operand rec e l
    let w ← operand rec e i
    Run.settle (Value.index v w)
  | .call _ callee args => callWith rec e callee args

end

/-! ### All steps -/

/-- The value of a node in a frame, with at most `n` evaluations nested in
each other. -/
def eval : Nat → Node → Nat → Run (Option Value)
  | 0, _, _ => Run.tooDeep
  | n + 1, node, e => evalWith (eval n) node e

/-- The result of calling a value, with the same bound. -/
def apply (n : Nat) (f : Value) (args : List Value) : Run (Option Value) :=
  applyWith (eval n) f args

end MonkeyLang

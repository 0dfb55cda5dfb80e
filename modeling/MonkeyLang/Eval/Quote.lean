/-
Syntax as a value: quoting and unquoting.

* `SpecialForm`: the names in callee position that take syntax instead of
  values, whatever they are bound to;
* `Value.toNode?`: the tree that a value has, if it has one;
* `Node.isUnquote`: whether a node is a call of `unquote`;
* `quoteWith rec e`: a tree with each call of `unquote` on one argument
  replaced by the tree of that argument's value.
-/
import MonkeyLang.Eval.Run
import MonkeyLang.Tree.Transform

namespace MonkeyLang

/-! ### Special forms -/

/-- The callees that take syntax. -/
inductive SpecialForm where
  | quote
  | unquote
deriving DecidableEq, Repr

/-- The special form that a callee names. -/
def SpecialForm.ofCallee? : Node → Option SpecialForm
  | .ident t =>
    match t.text with
    | "quote" => some quote
    | "unquote" => some unquote
    | _ => none
  | _ => none

/-- Whether a node is a call of `unquote`. -/
def Node.isUnquote : Node → Bool
  | .call _ callee _ => SpecialForm.ofCallee? callee = some .unquote
  | _ => false

/-! ### Unquoting -/

/-- The tree of a value: integers and truth values have literals, and a
quote has what it quotes. -/
def Value.toNode? : Value → Option Node
  | integer n => some (.ofInt n)
  | boolean b => some (.ofBool b)
  | quote n => some n
  | _ => none

variable (rec : Node → Nat → Run (Option Value)) (e : Nat)

/-- Evaluates an argument of `unquote` and gives the tree of its value. -/
def unquoteWith (arg : Node) : Run Node := do
  let v? ← rec arg e
  match v? >>= Value.toNode? with
  | some n => return n
  | none => throw (.notSyntax (v?.map Value.kind))

/-- Replaces a call of `unquote` on one argument; all else stays. -/
def replaceUnquote : Node → Run Node
  | .call t callee [arg] =>
    if SpecialForm.ofCallee? callee = some .unquote then unquoteWith rec e arg
    else return .call t callee [arg]
  | n => return n

/-- A tree with each call of `unquote` on one argument replaced, inner ones
first. -/
def quoteWith (n : Node) : Run Node := n.transformM (replaceUnquote rec e)

end MonkeyLang

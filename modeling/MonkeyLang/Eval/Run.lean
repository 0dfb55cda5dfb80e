/-
Running parts of a program.

* `Run`: what changes the store and gives an answer, or stops with a
  fault; a fault passes through everything around it, and what was changed
  before it stays changed.  There is no answer at all when the bound on
  nested evaluations is met;
* `settle`: the answer that a result stands for;
* `deliver`: what a function's body gives its caller;
* `Builtin.call`: calls a function that the language comes with.
-/
import MonkeyLang.Store
import MonkeyLang.Value.Operator
import MonkeyLang.Value.Text

namespace MonkeyLang

/-- What changes the store and gives an answer, stops with a fault, or is
nested too deep. -/
abbrev Run := ExceptT Fault (StateT Store Option)

namespace Run

variable {α : Type}

/-- Gives no answer, since evaluations are nested too deep. -/
def tooDeep : Run α := fun _ => none

/-- Changes the store. -/
def change (f : Store → Store) : Run Unit := modify f

/-- Makes something in the store and gives it as the answer. -/
def make (f : Store → α × Store) : Run α := modifyGet f

/-- The answer that is there, or the fault that stands in its place. -/
def ofExcept : Except Fault α → Run α
  | .ok a => return a
  | .error f => throw f

/-- The answer that a result stands for: a fault, or an error among the
values, stops the run. -/
def settle : Except Fault Value → Run (Option Value)
  | .error f => throw f
  | .ok (.error f) => throw f
  | .ok v => return some v

/-- What a function's body gives its caller: a returned value without its
mark, where an error stops the run as everywhere. -/
def deliver (v? : Option Value) : Run (Option Value) :=
  match Value.unwrap v? with
  | some v => settle (.ok v)
  | none => return none

/-- The result of a run, an error as a value. -/
def resultOf : Except Fault (Option Value) → Option Value
  | .ok v? => v?
  | .error f => some (.error f)

end Run

/-! ### Functions of the language -/

namespace Builtin

/-- The result of applying a function to the members of an array. -/
def onArray (b : Builtin) (f : List Value → Value) :
    Value → Except Fault Value
  | .array vs => .ok (f vs)
  | v => .error (.notAnArray b v.kind)

/-- The number of characters or of members. -/
def length : Value → Except Fault Value
  | .string s => .ok (.integer s.length)
  | .array vs => .ok (.integer vs.length)
  | v => .error (.noLength v.kind)

/-- All members but the first; null if there is none. -/
def withoutFirst : List Value → Value
  | [] => .null
  | _ :: vs => .array vs

/-- How many arguments a function takes; `puts` takes any number. -/
def arity : Builtin → Option Nat
  | len | first | last | rest => some 1
  | push => some 2
  | puts => none

/-- The result of a function that takes no account of the store. -/
def result (b : Builtin) (args : List Value) : Except Fault Value :=
  match b, args with
  | len, [v] => length v
  | first, [v] => b.onArray (fun vs => vs.head?.getD .null) v
  | last, [v] => b.onArray (fun vs => vs.getLast?.getD .null) v
  | rest, [v] => b.onArray withoutFirst v
  | push, [v, w] => b.onArray (fun vs => .array (vs ++ [w])) v
  | puts, _ => .ok .null
  | _, _ => .error (.builtinArgumentCount args.length ((b.arity).getD 0))

/-- The texts that a function prints: `puts` prints each argument. -/
def prints (b : Builtin) (args : List Value) : List String :=
  match b with
  | puts => args.map Value.text
  | _ => []

/-- Calls a function. -/
def call (b : Builtin) (args : List Value) : Run (Option Value) := do
  Run.change fun s => (b.prints args).foldl (fun s text => s.print text) s
  Run.settle (b.result args)

end Builtin

end MonkeyLang

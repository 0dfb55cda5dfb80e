/-
The values of the Monkey language.

* `Value`: the values;
* `Closure`: a function or macro with the frame that it was made in;
* `Value.kind`: the type of a value;
* `Value.hashKey?`: the hash table key that a value stands for, if it can
  be one;
* `Value.isTruthy`: whether a condition holds; an absent value, null and
  `false` do not;
* `Value.unwrap`: a returned value without its mark;
* `Value.induct`: induction over values, member by member.
-/
import MonkeyLang.Bindings
import MonkeyLang.Tree.Node
import MonkeyLang.Value.Fault
import MonkeyLang.Value.HashKey

namespace MonkeyLang

/-- A function or a macro: its parameters, its body and the number of the
frame that it was made in.  Its own number tells it from all others. -/
structure Closure where
  id : Nat
  params : List Node
  body : Node
  frame : Nat
deriving Repr

/-- The names of the parameters. -/
def Closure.names (c : Closure) : List String := c.params.map Node.name

/-- The values.  An entry of a hash has the key's hash key, the key and the
value.  A value on its way out of a function is marked `returned`. -/
inductive Value where
  | integer (n : Int)
  | boolean (b : Bool)
  | null
  | string (s : String)
  | array (elements : List Value)
  | hash (entries : List (HashKey × Value × Value))
  | returned (value : Value)
  | error (fault : Fault)
  | function (closure : Closure)
  | builtin (b : Builtin)
  | quote (node : Node)
  | macroFn (closure : Closure)
deriving Inhabited

namespace Value

/-- The type of a value. -/
def kind : Value → Kind
  | integer _ => .integer
  | boolean _ => .boolean
  | null => .null
  | string _ => .string
  | array _ => .array
  | hash _ => .hash
  | returned _ => .returned
  | error _ => .error
  | function _ => .function
  | builtin _ => .builtin
  | quote _ => .quote
  | macroFn _ => .macroFn

/-- The hash table key that a value stands for, if it can be one. -/
def hashKey? : Value → Option HashKey
  | integer n => some (.integer n)
  | boolean b => some (.boolean b)
  | string s => some (.ofString s)
  | _ => none

/-- Whether a value counts as true: all but null and `false` do. -/
def isTruthy : Value → Bool
  | null | boolean false => false
  | _ => true

/-- Whether a condition holds; one without a value does not. -/
def holds : Option Value → Bool
  | some v => v.isTruthy
  | none => false

/-- A returned value without its mark; any other as it is. -/
def unwrap : Option Value → Option Value
  | some (returned v) => some v
  | v? => v?

/-- The value of a result that may be a fault. -/
def ofExcept : Except Fault Value → Value
  | .ok v => v
  | .error f => error f

/-! ### Induction -/

/-- Induction over values: of arrays and hashes it is taken member by member. -/
theorem induct {P : Value → Prop} (integer : ∀ n, P (integer n))
    (boolean : ∀ b, P (boolean b)) (null : P null) (string : ∀ s, P (string s))
    (array : ∀ vs, (∀ v ∈ vs, P v) → P (array vs))
    (hash : ∀ es : List (HashKey × Value × Value),
      (∀ p ∈ es, P p.2.1 ∧ P p.2.2) → P (hash es))
    (returned : ∀ v, P v → P (returned v)) (error : ∀ f, P (error f))
    (function : ∀ c, P (function c)) (builtin : ∀ b, P (builtin b))
    (quote : ∀ n, P (quote n)) (macroFn : ∀ c, P (macroFn c)) (v : Value) :
    P v :=
  @Value.rec P (fun vs => ∀ v ∈ vs, P v)
    (fun t => ∀ p ∈ t, P p.2.1 ∧ P p.2.2) (fun p => P p.2.1 ∧ P p.2.2)
    (fun p => P p.1 ∧ P p.2) integer boolean null string array hash returned
    error function builtin quote macroFn (by simp) (by simp +contextual)
    (by simp) (by simp +contextual) (fun _ _ h => h) (fun _ _ h k => ⟨h, k⟩) v

end Value

end MonkeyLang

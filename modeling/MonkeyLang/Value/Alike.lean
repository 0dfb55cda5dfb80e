/-
Equality of values, as the language has it.

* `Value.alike`: the test: arrays member by member, hashes entry by entry
  whatever their order, quotes by their trees without places, errors by
  their wording, and functions and macros by being the same one.
-/
import MonkeyLang.Tree.Alike
import MonkeyLang.Value

namespace MonkeyLang.Value

mutual

/-- Whether two values are equal. -/
def alike : Value → Value → Bool
  | integer m, integer n => m = n
  | boolean a, boolean b => a = b
  | null, null => true
  | string s, string t => s = t
  | array vs, array ws => alikeList vs ws
  | hash es, hash fs => es.length = fs.length && alikeEntries es fs
  | returned v, returned w => alike v w
  | error f, error g => f.message = g.message
  | function c, function d => c.id = d.id
  | builtin b, builtin c => b = c
  | quote n, quote m => n.alike m
  | macroFn c, macroFn d => c.id = d.id
  | _, _ => false

/-- Whether two lists of values are equal, member by member. -/
def alikeList : List Value → List Value → Bool
  | [], [] => true
  | v :: vs, w :: ws => alike v w && alikeList vs ws
  | _, _ => false

/-- Whether each entry of a hash has an equal one under its hash key in
another hash. -/
def alikeEntries :
    List (HashKey × Value × Value) → List (HashKey × Value × Value) → Bool
  | [], _ => true
  | (h, k, v) :: es, fs =>
    (match Bindings.get? h fs with
      | some (k', v') => alike k k' && alike v v'
      | none => false) && alikeEntries es fs

end

end MonkeyLang.Value

/-
Hash tables: the entries of a hash, by hash key.

* `Value.hashKey`: the hash key of a value, or the fault of one that cannot
  be a key; `hashKey_eq_ok` and `hashKey_eq_error` say which;
* `Table.put`: puts a value under a key; an entry under the same hash key
  keeps its place and gets the new key and value;
* `Table.get?`: the value under a key;
* `get?_put`: a key has what was put under its hash key last.
-/
import MonkeyLang.Value

namespace MonkeyLang

/-- The hash key of a value; not every value can be a key. -/
def Value.hashKey (key : Value) : Except Fault HashKey :=
  match key.hashKey? with
  | some h => .ok h
  | none => .error (.unusableKey key.kind)

/-- A value is a key under its hash key if it has one. -/
theorem Value.hashKey_eq_ok {v : Value} {h : HashKey} :
    v.hashKey = .ok h ↔ v.hashKey? = some h := by
  cases v <;> simp [Value.hashKey, Value.hashKey?]

/-- It cannot be a key exactly if it has none. -/
theorem Value.hashKey_eq_error {v : Value} {f : Fault} :
    v.hashKey = .error f ↔ v.hashKey? = none ∧ f = .unusableKey v.kind := by
  cases v <;> simp [Value.hashKey, Value.hashKey?, eq_comm]

/-- The entries of a hash: under each hash key a key and a value. -/
abbrev Table := Bindings HashKey (Value × Value)

namespace Table

/-- The hash without entries. -/
def empty : Table := []

/-- Puts a value under a key. -/
def put (key value : Value) (t : Table) : Except Fault Table := do
  return Bindings.set (← key.hashKey) (key, value) t

/-- The value under a key, if there is one. -/
def get? (key : Value) (t : Table) : Except Fault (Option Value) := do
  return (Bindings.get? (← key.hashKey) t).map (·.2)

/-- A key has what was put under its hash key last; what other keys have
stays. -/
theorem get?_put {key value other : Value} {t u : Table} {h k : HashKey}
    (hput : t.put key value = .ok u) (hkey : key.hashKey = .ok h)
    (hother : other.hashKey = .ok k) :
    u.get? other = if h = k then .ok (some value) else t.get? other := by
  simp only [put, hkey, bind, Except.bind, pure, Except.pure,
    Except.ok.injEq] at hput
  subst hput
  simp only [get?, hother, bind, Except.bind, pure, Except.pure,
    Bindings.get?_set]
  split <;> rfl

end Table

end MonkeyLang

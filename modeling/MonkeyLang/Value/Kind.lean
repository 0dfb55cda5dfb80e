/-
The types of values, and the functions that the language comes with.

* `Value.Kind`: the types, each with the label under which messages show
  it;
* `Builtin`: the functions that the language comes with.
-/

namespace MonkeyLang

/-- The types of values. -/
inductive Value.Kind where
  | integer | boolean | null | string | array | hash | returned | error
  | function | builtin | quote | macroFn
deriving DecidableEq, Repr

/-- The label of a type. -/
def Value.Kind.label : Value.Kind → String
  | integer => "INTEGER"
  | boolean => "BOOLEAN"
  | null => "NULL"
  | string => "STRING"
  | array => "ARRAY"
  | hash => "HASH"
  | returned => "RETURN_VALUE"
  | error => "ERROR"
  | function => "FUNCTION"
  | builtin => "BUILTIN"
  | quote => "QUOTE"
  | macroFn => "MACRO"

/-- The functions that the language comes with. -/
inductive Builtin where
  | len | first | last | rest | push | puts
deriving DecidableEq, Repr

namespace Builtin

/-- All of them. -/
def all : List Builtin := [len, first, last, rest, push, puts]

/-- The name of a function that the language comes with. -/
def name : Builtin → String
  | len => "len"
  | first => "first"
  | last => "last"
  | rest => "rest"
  | push => "push"
  | puts => "puts"

/-- The function with this name. -/
def ofName? (s : String) : Option Builtin := all.find? (·.name == s)

/-- A name names one function only. -/
theorem ofName?_name (b : Builtin) : ofName? b.name = some b := by
  cases b <;> decide

end Builtin

end MonkeyLang

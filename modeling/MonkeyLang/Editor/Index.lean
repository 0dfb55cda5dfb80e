/-
The index of a document: what its text binds, found without running it.

* `Symbol`: a name that is bound at the top level, what it is bound to and
  where;
* `Index`: the symbols and the faults of a text; of several bindings of a
  name the first one counts;
* `Index.ofText`: makes the index;
* `Index.signature?`: how a name is called.
-/
import MonkeyLang.Bindings
import MonkeyLang.Parser

namespace MonkeyLang

/-! ### Symbols -/

/-- What a name is bound to. -/
inductive Symbol.Kind where
  | value
  | function
  | macroFn
deriving DecidableEq, Repr

/-- The word for what a name is bound to. -/
def Symbol.Kind.label : Symbol.Kind → String
  | value => "var"
  | function => "function"
  | macroFn => "macro"

/-- A name that is bound at the top level, and where the name stands. -/
structure Symbol where
  name : String
  kind : Symbol.Kind
  position : Position
  params : List String
deriving DecidableEq, Repr

namespace Symbol

/-- What a tree that is bound to a name makes of it, and its parameters. -/
def classify : Node → Kind × List String
  | .function _ params _ => (.function, params.map Node.name)
  | .macroFn _ params _ => (.macroFn, params.map Node.name)
  | _ => (.value, [])

/-- The symbol of a statement, if it binds a name. -/
def ofStatement? : Node → Option Symbol
  | .letStmt _ name value =>
    let (kind, params) := classify value
    some ⟨name.text, kind, name.position, params⟩
  | _ => none

/-- How a function or a macro is written under a keyword. -/
def written (keyword : String) (s : Symbol) : String :=
  s.name ++ " = " ++ keyword ++ "(" ++ String.intercalate ", " s.params ++ ")"

/-- How a symbol is called, if it can be. -/
def signature? (s : Symbol) : Option String :=
  match s.kind with
  | .value => none
  | .function => some (s.written "fn")
  | .macroFn => some (s.written "macro")

end Symbol

/-! ### The language's own names -/

/-- How the functions and special forms of the language are called. -/
def builtinSignatures : List (String × String) :=
  [("len", "len(value) -> INTEGER"),
    ("first", "first(array) -> value | null"),
    ("last", "last(array) -> value | null"),
    ("rest", "rest(array) -> ARRAY | null"),
    ("push", "push(array, value) -> ARRAY"),
    ("puts", "puts(values...) -> null"),
    ("quote", "quote(expression) -> QUOTE"),
    ("unquote", "unquote(expression) -> syntax (inside quote only)")]

/-- The keywords in alphabetical order. -/
def sortedKeywords : List String :=
  ["else", "false", "fn", "if", "let", "macro", "return", "true"]

/-! ### The index -/

/-- The symbols of a text by their names, and its faults. -/
structure Index where
  symbols : Bindings String Symbol
  diagnostics : List Diagnostic
deriving DecidableEq, Repr

namespace Index

/-- The symbols of some statements. -/
def symbolsOf (ns : List Node) : Bindings String Symbol :=
  (ns.filterMap Symbol.ofStatement?).foldl (fun bs s => bs.setNew s.name s) []

/-- The statements of a program. -/
def statementsOf : Node → List Node
  | .program ss => ss
  | _ => []

/-- The index of a text. -/
def ofText (text : String) : Index :=
  let parsed := Parser.ofSource text false
  ⟨symbolsOf (statementsOf parsed.program), parsed.diagnostics⟩

/-- The signature of a name: that of the symbol, or of the function of the
language that it is called like. -/
def signature? (i : Index) (name : String) : Option String :=
  ((i.symbols.get? name).bind Symbol.signature?).or
    (builtinSignatures.lookup name)

end Index

end MonkeyLang

/-
A session: inputs are evaluated one after the other, and bindings and
macros stay from one to the next.

* `Session`: the store, the frame of the program's bindings, the frame of
  the macros, whether the parser is traced, and the events so far;
* `Failure`: why an input has no result at all;
* `Session.parse`, `Session.expand`, `Session.evaluate`: an input's tree,
  its tree without macros, and its value.
-/
import MonkeyLang.Eval.Basic
import MonkeyLang.Event
import MonkeyLang.Parser

namespace MonkeyLang

/-! ### Failures -/

/-- Why a call of a macro cannot be expanded. -/
inductive MacroFault where
  | argumentCount (want got : Nat)
  | raised (callee : Node) (fault : Fault)
  | noSyntax
deriving Repr

/-- The wording of a macro's failure. -/
def MacroFault.message : MacroFault → String
  | argumentCount want got =>
    "wrong number of arguments to macro: want=" ++ toString want ++ ", got=" ++
      toString got
  | raised callee fault =>
    "error expanding macro " ++ callee.text ++ ": " ++ fault.message
  | noSyntax => "we only support returning AST-nodes from macros"

/-- Why an input has no result: it is no program, or one of its macros
fails. -/
inductive Failure where
  | rejected (diagnostics : List Diagnostic)
  | expansion (fault : MacroFault)
deriving Repr

/-- The wording of a failure. -/
def Failure.message : Failure → String
  | rejected ds => String.intercalate "; " (ds.map Diagnostic.message)
  | expansion fault => fault.message

/-! ### Sessions -/

/-- The state between two inputs. -/
structure Session where
  store : Store
  program : Nat
  macros : Nat
  tracing : Bool
  events : Array Event

namespace Session

/-- A session that starts in a store, with two frames of its own. -/
def inStore (s : Store) (tracing : Bool) : Session :=
  let (program, s) := s.addRoot
  let (macros, s) := s.addRoot
  ⟨s, program, macros, tracing, #[]⟩

/-- A session that starts with nothing. -/
def start (tracing : Bool) : Session := inStore .empty tracing

/-- Records an event. -/
def record (event : Event) (s : Session) : Session :=
  { s with events := s.events.push event }

/-- Changes the store. -/
def changeStore (f : Store → Store) (s : Session) : Session :=
  { s with store := f s.store }

/-- Forgets the printed texts and the events. -/
def forgetOutput (s : Session) : Session :=
  { s with store := { s.store with printed := #[] }, events := #[] }

/-! ### Parsing -/

/-- Parses an input.  An input with faults is rejected. -/
def parse (source : String) (s : Session) : Except Failure Node × Session :=
  let parsed := Parser.ofSource source s.tracing
  let s := parsed.trace.foldl (fun s line => s.record (.traced line)) s
  if parsed.diagnostics.isEmpty then (.ok parsed.program, s)
  else
    (.error (.rejected parsed.diagnostics),
      s.record (.rejected parsed.diagnostics.length))

end Session

/-! ### Macros -/

/-- The name, the parameters and the body of a statement that defines a
macro. -/
def Node.macroDefinition? : Node → Option (String × List Node × Node)
  | letStmt _ name (macroFn _ params body) => some (name.text, params, body)
  | _ => none

namespace Session

/-- Binds a macro in the frame of the macros. -/
def defineMacro (name : String) (params : List Node) (body : Node)
    (s : Session) : Session :=
  let (closure, store) := s.store.makeClosure params body s.macros
  { s with store := store.bind s.macros name (.macroFn closure) }
    |>.record (.defined name params)

/-- Takes the definitions of macros out of some statements and binds
them. -/
def defineMacros : List Node → Session → List Node × Session
  | [], s => ([], s)
  | n :: ns, s =>
    match n.macroDefinition? with
    | some (name, params, body) =>
      defineMacros ns (s.defineMacro name params body)
    | none =>
      let (kept, s) := defineMacros ns s
      (n :: kept, s)

/-- Takes the definitions of macros out of a program and binds them. -/
def define (program : Node) (s : Session) : Node × Session :=
  match program with
  | .program ss =>
    let (kept, s) := s.defineMacros ss
    (.program kept, s)
  | n => (n, s)

end Session

/-- What works on a session and gives an answer, fails for a macro, or is
nested too deep. -/
abbrev Expanding := ExceptT MacroFault (StateT Session Option)

namespace Expanding

/-- Runs a part of a program in the store of the session. -/
def run (r : Run (Option Value)) : Expanding (Except Fault (Option Value)) :=
  fun s => (r s.store).map fun (result, store) =>
    (.ok result, { s with store })

/-- The macro that a node names, if it does. -/
def macroOf? (callee : Node) (s : Session) : Option Closure :=
  match callee with
  | .ident t =>
    match s.store.lookup s.macros t.text with
    | some (.macroFn c) => some c
    | _ => none
  | _ => none

variable (depth : Nat)

/-- Expands a call of a macro: its body is evaluated with the arguments
bound as quotes, and the tree it gives replaces the call. -/
def expandCall (c : Closure) (call callee : Node) (args : List Node) :
    Expanding Node := do
  if args.length = c.params.length then
    let body : Run (Option Value) := do
      let e ← callFrame c (args.map .quote)
      Run.deliver (← eval depth c.body e)
    match ← run body with
    | .ok (some (.quote n)) =>
      modify (Session.record (.expanded call n))
      return n
    | .error fault => throw (.raised callee fault)
    | .ok _ => throw .noSyntax
  else throw (.argumentCount c.params.length args.length)

/-- Expands a node if it is a call of a macro. -/
def expandNode (n : Node) : Expanding Node := do
  match n with
  | .call t callee args =>
    match macroOf? callee (← get) with
    | some c => expandCall depth c (.call t callee args) callee args
    | none => return n
  | _ => return n

/-- Expands all calls of macros in a tree, inner ones first. -/
def expandAll (n : Node) : Expanding Node := n.transformM (expandNode depth)

end Expanding

namespace Session

/-! ### Inputs -/

variable (depth : Nat)

/-- A program without calls of macros. -/
def expandProgram (program : Node) (s : Session) :
    Option (Except Failure Node × Session) :=
  (Expanding.expandAll depth program s).map fun (result, s) =>
    (result.mapError .expansion, s)

/-- The tree of an input without definitions and calls of macros.  Its
definitions are bound even if a call then fails. -/
def expand (source : String) (s : Session) :
    Option (Except Failure Node × Session) :=
  match s.parse source with
  | (.error failure, s) => some (.error failure, s)
  | (.ok program, s) =>
    let (program, s) := s.define program
    s.expandProgram depth program

/-- The value of a tree in a frame, an error being a value too. -/
def evaluateIn (e : Nat) (n : Node) (s : Session) :
    Option (Option Value × Session) :=
  (eval depth n e s.store).map fun (result, store) =>
    (Run.resultOf result, { s with store })

/-- The value of an input, if it has one.  There is no answer when
evaluations are nested more than `depth` deep. -/
def evaluate (source : String) (s : Session) :
    Option (Except Failure (Option Value) × Session) := do
  match ← s.expand depth source with
  | (.error failure, s) => return (.error failure, s)
  | (.ok program, s) =>
    let (v?, s) ← s.evaluateIn depth s.program program
    return (.ok v?, s)

/-- Evaluates the text that a session begins with; an empty one does
nothing. -/
def begin (prelude : String) (s : Session) :
    Option (Except Failure (Option Value) × Session) :=
  if prelude.isEmpty then some (.ok none, s) else s.evaluate depth prelude

end Session

end MonkeyLang

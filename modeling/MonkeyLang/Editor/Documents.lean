/-
The documents that are open in an editor, and the answers to its requests.

* `Documents`: the texts and indexes of the open documents;
* `Documents.opened`, `Documents.changed`, `Documents.closed`: what an editor
  tells about a document; each gives what is published about it;
* `Documents.hover`, `Documents.complete`, `Documents.signatureHelp`,
  `Documents.symbols`: what an editor asks.
-/
import MonkeyLang.Bindings
import MonkeyLang.Editor.Cursor
import MonkeyLang.Editor.Index
import MonkeyLang.Text.Blank
import MonkeyLang.Text.Lines

namespace MonkeyLang

namespace Editor

/-! ### Places in a document -/

/-- A part of a text, from one place up to another. -/
structure Range where
  start : Position
  stop : Position
deriving DecidableEq, Repr

/-- A part of one line. -/
def Range.ofLength (p : Position) (length : Nat) : Range :=
  ⟨p, ⟨p.line, p.column + length⟩⟩

/-- The line of a text with a number, empty if there is none. -/
def lineOf (text : String) (line : Nat) : List Char :=
  (Lines.split text.toList).getD line []

/-! ### Published faults -/

/-- A fault as it is published: it marks one character. -/
structure Notice where
  range : Range
  message : String
deriving DecidableEq, Repr

/-- The number for the severity of a fault: it is an error. -/
def Notice.severity : Nat := 1

/-- Who publishes faults. -/
def Notice.source : String := "monkey-ls"

/-- The notice of a fault. -/
def Notice.ofDiagnostic (d : Diagnostic) : Notice :=
  ⟨.ofLength d.position 1, d.message⟩

/-- The faults that are published for a document. -/
structure Publication where
  uri : String
  notices : List Notice
deriving DecidableEq, Repr

/-! ### Answers -/

/-- What a proposed completion is. -/
inductive Completion.Kind where
  | keyword
  | function
  | value
deriving DecidableEq, Repr

/-- The number by which editors know it. -/
def Completion.Kind.code : Completion.Kind → Nat
  | keyword => 14
  | function => 3
  | value => 6

/-- A proposed completion. -/
structure Completion where
  label : String
  kind : Completion.Kind
  detail : Option String
deriving DecidableEq, Repr

/-- How a function is called, and its parameters. -/
structure Signature where
  label : String
  params : List String
deriving DecidableEq, Repr

/-- A symbol of a document and where it stands. -/
structure Entry where
  name : String
  kind : Symbol.Kind
  range : Range
deriving DecidableEq, Repr

/-- The number by which editors know what a symbol is. -/
def Entry.code : Symbol.Kind → Nat
  | .function => 12
  | .value => 13
  | .macroFn => 25

end Editor

/-! ### The open documents -/

/-- A document: its text and the index of that text. -/
structure Document where
  text : String
  index : Index
deriving DecidableEq, Repr

/-- The document with a text. -/
def Document.ofText (text : String) : Document := ⟨text, .ofText text⟩

/-- The open documents by their names. -/
abbrev Documents := Bindings String Document

namespace Documents

open Editor

/-- Stores a text, and publishes its faults. -/
def store (uri text : String) (ds : Documents) : Documents × Publication :=
  let d := Document.ofText text
  (ds.set uri d, ⟨uri, d.index.diagnostics.map .ofDiagnostic⟩)

/-- A document is opened with a text. -/
def opened (uri text : String) (ds : Documents) : Documents × Publication :=
  ds.store uri text

/-- A document is changed; each change brings the whole text.  Without any
change the text stays. -/
def changed (uri : String) (texts : List String) (ds : Documents) :
    Documents × Publication :=
  ds.store uri (texts.getLast?.getD (((ds.get? uri).map (·.text)).getD ""))

/-- A document is closed, and its faults are withdrawn. -/
def closed (uri : String) (ds : Documents) : Documents × Publication :=
  (ds.filter (·.1 != uri), ⟨uri, []⟩)

/-! ### Requests -/

/-- What is shown for a symbol: how it is called, or else its name, what it
is and where it is bound. -/
def describe (i : Index) (s : Symbol) : String :=
  (i.signature? s.name).getD s.name ++ " — " ++ s.kind.label ++
    " (defined at " ++ toString (s.position.line + 1) ++ ":" ++
    toString (s.position.column + 1) ++ ")"

/-- What is shown for a word. -/
def describeWord (i : Index) (word : String) : Option String :=
  match i.symbols.get? word with
  | some s => some (describe i s)
  | none => builtinSignatures.lookup word

/-- What is shown for the word at a place, if there is something. -/
def hover (uri : String) (p : Position) (ds : Documents) :
    Except PlaceFault (Option String) :=
  match ds.get? uri with
  | none => .ok none
  | some d => do
    let word ← wordAt (lineOf d.text p.line) p.column
    return word.bind (describeWord d.index)

/-- The completion for a symbol. -/
def completionOf (i : Index) (s : Symbol) : Completion :=
  ⟨s.name, if s.kind = .value then .value else .function,
    i.signature? s.name⟩

/-- All completions: keywords, the functions of the language, and the
symbols of the document. -/
def complete (uri : String) (ds : Documents) : List Completion :=
  sortedKeywords.map (⟨·, .keyword, none⟩) ++
    builtinSignatures.map (fun (name, s) => ⟨name, .function, some s⟩) ++
    ((ds.get? uri).map fun d =>
      d.index.symbols.map fun (_, s) => completionOf d.index s).getD []

/-- The parts of a text between commas. -/
def splitCommas : List Char → List (List Char)
  | [] => [[]]
  | ',' :: cs => [] :: splitCommas cs
  | c :: cs =>
    match splitCommas cs with
    | [] => [[c]]
    | part :: parts => (c :: part) :: parts

/-- The parameters in a signature: what stands between its first two
parentheses, without blanks and empty parts. -/
def paramsOf (label : String) : List String :=
  let behind := (label.toList.dropWhile (· != '(')).tail
  let inside := behind.takeWhile (· != ')')
  (((splitCommas inside).map (Blank.trim Blank.isBlank)).filter
    (!·.isEmpty)).map String.ofList

/-- How the function is called whose arguments stand at a place. -/
def signatureHelp (uri : String) (p : Position) (ds : Documents) :
    Option Signature := do
  let d ← ds.get? uri
  let callee ← calleeBefore ((lineOf d.text p.line).take p.column)
  let label ← d.index.signature? callee
  return ⟨label, paramsOf label⟩

/-- The symbols of a document, if it is open. -/
def symbols (uri : String) (ds : Documents) : Option (List Entry) :=
  (ds.get? uri).map fun d =>
    d.index.symbols.map fun (_, s) =>
      ⟨s.name, s.kind, .ofLength s.position s.name.length⟩

end Documents

end MonkeyLang

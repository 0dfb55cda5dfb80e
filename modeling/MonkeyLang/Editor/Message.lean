/-
What an editor tells and asks.

* `Notification`: a document is opened, changed or closed;
* `Server`: the open documents, and all that was published about documents;
  `Server.receive` is what a notification does to it, and `Server.after` what
  a history of them leads to;
* `Request`, `Reply`: the questions about a document and their answers;
* `Documents.answer`: answers a request, or fails at a place beyond its line.
-/
import MonkeyLang.Editor.Documents

namespace MonkeyLang

open Editor

/-! ### Notifications -/

/-- What an editor tells about a document.  Each change brings the whole
text. -/
inductive Notification where
  | opened (uri text : String)
  | changed (uri : String) (texts : List String)
  | closed (uri : String)
deriving DecidableEq, Repr

/-- The document that it is about. -/
def Notification.uri : Notification → String
  | opened uri _ | changed uri _ | closed uri => uri

/-- What it does to the open documents, and what is published then. -/
def Documents.update (ds : Documents) :
    Notification → Documents × Publication
  | .opened uri text => ds.opened uri text
  | .changed uri texts => ds.changed uri texts
  | .closed uri => ds.closed uri

/-- The open documents, and what was published about documents, the last one
at the end. -/
structure Server where
  documents : Documents
  published : List Publication
deriving DecidableEq, Repr

namespace Server

/-- A server that was told nothing yet. -/
def start : Server := ⟨[], []⟩

/-- A server is told about a document. -/
def receive (s : Server) (n : Notification) : Server :=
  let (ds, p) := s.documents.update n
  ⟨ds, s.published ++ [p]⟩

/-- The server after some notifications. -/
def after (ns : List Notification) : Server := ns.foldl receive start

/-- The faults that an editor shows for a document: those that were published
for it last. -/
def shown? (s : Server) (uri : String) : Option (List Notice) :=
  ((s.published.filter (·.uri = uri)).getLast?).map (·.notices)

end Server

/-! ### Requests -/

/-- What an editor asks about a document, at a place of it or as a whole. -/
inductive Request where
  | hover (uri : String) (p : Position)
  | completion (uri : String) (p : Position)
  | signature (uri : String) (p : Position)
  | symbols (uri : String)
deriving DecidableEq, Repr

/-- The answer to a request. -/
inductive Reply where
  | hover (text : Option String)
  | completion (proposed : List Completion)
  | signature (help : Option Signature)
  | symbols (entries : Option (List Entry))
deriving DecidableEq, Repr

namespace Documents

/-- How the function of a name is called. -/
def signatureOf (i : Index) (callee : String) : Option Signature :=
  (i.signature? callee).map fun label => ⟨label, paramsOf label⟩

/-- How the function is called whose arguments stand at a place, by walking
back from there. -/
def signatureAt (uri : String) (p : Position) (ds : Documents) :
    Except PlaceFault (Option Signature) :=
  match ds.get? uri with
  | none => .ok none
  | some d => do
    let before := (lineOf d.text p.line).take p.column
    let callee ← calleeAt before 0 before.length
    return callee.bind (signatureOf d.index)

/-- Answers a request. -/
def answer (ds : Documents) : Request → Except PlaceFault Reply
  | .hover uri p => do return .hover (← ds.hover uri p)
  | .completion uri _ => return .completion (ds.complete uri)
  | .signature uri p => do return .signature (← ds.signatureAt uri p)
  | .symbols uri => return .symbols (ds.symbols uri)

end Documents

end MonkeyLang

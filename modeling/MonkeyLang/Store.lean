/-
What a running program changes: the frames that hold its bindings, and
what it has printed.

* `Frame`: bindings and the frame around them;
* `Store`: all frames that were made, how many closures were made, and the
  printed texts;
* `Store.chain`: a frame and those around it, from the inside out;
* `Store.lookup`: the value of a name, from the nearest frame that has it;
* `Store.bind`: binds a name in one frame;
* `Store.enclose`: a new frame in another one.

A frame is known by its number; `e` is one wherever it stands for a frame.
-/
import MonkeyLang.Value

namespace MonkeyLang

/-- A frame: its own bindings and the number of the frame around it. -/
structure Frame where
  bindings : Bindings String Value
  outer : Option Nat
deriving Inhabited

/-- All frames by their numbers, the number of closures made so far, and
the printed texts, each a line. -/
structure Store where
  frames : Array Frame
  closures : Nat
  printed : Array String
deriving Inhabited

namespace Store

/-- The store before anything ran. -/
def empty : Store := ⟨#[], 0, #[]⟩

/-! ### Making frames and closures -/

/-- Adds a frame with some bindings; its number is how many there were. -/
def addFrame (bindings : Bindings String Value) (outer : Option Nat)
    (s : Store) : Nat × Store :=
  (s.frames.size, { s with frames := s.frames.push ⟨bindings, outer⟩ })

/-- Adds a frame that has no other around it. -/
def addRoot (s : Store) : Nat × Store := s.addFrame [] none

/-- Adds an empty frame inside another one. -/
def enclose (outer : Nat) (s : Store) : Nat × Store :=
  s.addFrame [] (some outer)

/-- Makes a closure with a number of its own. -/
def makeClosure (params : List Node) (body : Node) (frame : Nat)
    (s : Store) : Closure × Store :=
  (⟨s.closures, params, body, frame⟩, { s with closures := s.closures + 1 })

/-! ### Names -/

/-- At most `n` frames from a frame outward. -/
def chainUpTo (s : Store) : Nat → Option Nat → List Frame
  | 0, _ => []
  | _ + 1, none => []
  | n + 1, some e =>
    match s.frames[e]? with
    | none => []
    | some f => f :: chainUpTo s n f.outer

/-- A frame and those around it, from the inside out.  Frames lie in
earlier ones, so there are no more than the number of the first says. -/
def chain (s : Store) (e : Nat) : List Frame :=
  s.chainUpTo (e + 1) (some e)

/-- The value of a name, from the nearest frame that has it. -/
def lookup (s : Store) (e : Nat) (name : String) : Option Value :=
  (s.chain e).findSome? fun f => Bindings.get? name f.bindings

/-- Binds a name in one frame, never in those around it. -/
def bind (e : Nat) (name : String) (v : Value) (s : Store) : Store :=
  { s with frames := s.frames.modify e fun f =>
      { f with bindings := f.bindings.set name v } }

/-- Prints a text as a line. -/
def print (text : String) (s : Store) : Store :=
  { s with printed := s.printed.push text }

/-! ### Texts -/

end Store

/-- The bindings of a frame, each with the type of its value. -/
def Frame.text (f : Frame) : String :=
  "\x7b" ++ String.intercalate ", "
      (f.bindings.map fun (name, v) => name ++ ": " ++ v.kind.label) ++ "\x7d"

namespace Store

/-- The text of a frame, which shows whether there is one around it. -/
def frameText (s : Store) (e : Nat) : String :=
  match s.frames[e]? with
  | none => ""
  | some f => f.text ++ if f.outer.isSome then " -> ..." else ""

/-- The text of a frame and those around it. -/
def chainText (s : Store) (e : Nat) : String :=
  "<Environment chain: " ++
    String.intercalate " -> " ((s.chain e).map Frame.text) ++ ">"

/-- Everything that was printed. -/
def output (s : Store) : String :=
  String.join (s.printed.toList.map (· ++ "\n"))

end Store

end MonkeyLang

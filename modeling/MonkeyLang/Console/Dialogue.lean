/-
The dialogue at the console: lines are read and answered one by one.

* `Dialogue.Reply`: what is shown, and whether the dialogue breaks off;
* `Dialogue.answer`: the reply to a line;
* `Dialogue.lines`: the lines of an input, each with its line feed;
* `Dialogue.transcript`: the reply to an input, prompts included.
-/
import MonkeyLang.Display.Layout
import MonkeyLang.Session

namespace MonkeyLang.Dialogue

/-! ### Answers -/

/-- What is shown before the first prompt. -/
def greeting : String :=
  "Hello! This is the Monkey programming language!\n" ++
    "Feel free to type in commands\n"

/-- What is shown for an input without a result. -/
def failureText : Failure → String
  | .rejected ds =>
    "Woops! parser errors:\n" ++
      String.join (ds.map fun d => "\t" ++ d.message ++ "\n")
  | f => f.message ++ "\n"

/-- What is shown for a result, if it can be. -/
def resultText? (style : Display.Style) :
    Except Failure (Option Value) → Option String
  | .ok none => some ""
  | .ok (some v) => (Display.shown? style 0 (some v)).map (· ++ "\n")
  | .error f => some (failureText f)

/-- What is shown, and whether the dialogue breaks off behind it since a
value cannot be shown. -/
structure Reply where
  text : String
  broken : Bool
deriving DecidableEq, Repr

variable (depth : Nat) (style : Display.Style)

/-- Evaluates a line.  Shown is what it printed, then its result; the
session forgets what was printed. -/
def answer (line : String) (s : Session) : Option (Reply × Session) :=
  (s.evaluate depth line).map fun (result, s) =>
    let text? := resultText? style result
    (⟨s.store.output ++ text?.getD "", text?.isNone⟩,
      s.changeStore fun store => { store with printed := #[] })

/-! ### Whole inputs -/

/-- The lines of an input, each with the line feed that ends it. -/
def lines : List Char → List (List Char)
  | [] => []
  | c :: cs =>
    if c = '\n' then ['\n'] :: lines cs
    else
      match lines cs with
      | [] => [[c]]
      | l :: ls => (c :: l) :: ls

/-- The lines of an input, put together, are the input. -/
theorem flatten_lines (cs : List Char) : (lines cs).flatten = cs := by
  induction cs with
  | nil => rfl
  | cons c cs ih =>
    unfold lines
    split
    · next h => simp [h, ih]
    · split <;> simp_all

/-- The reply to lines, a prompt before each and one at the end. -/
def transcriptOf (prompt : String) :
    List String → Session → Option (Reply × Session)
  | [], s => some (⟨prompt, false⟩, s)
  | l :: ls, s => do
    let (reply, s) ← answer depth style l s
    if reply.broken then return (⟨prompt ++ reply.text, true⟩, s)
    let (more, s) ← transcriptOf prompt ls s
    return (⟨prompt ++ reply.text ++ more.text, more.broken⟩, s)

/-- The reply to an input, which ends the dialogue. -/
def transcript (prompt input : String) (s : Session) :
    Option (Reply × Session) :=
  transcriptOf depth style prompt ((lines input.toList).map String.ofList) s

end MonkeyLang.Dialogue

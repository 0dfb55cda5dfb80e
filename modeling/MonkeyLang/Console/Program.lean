/-
The program as it is called from the command line.

* `Plan`: what the arguments and settings make the program do;
* `Plan.make`: makes the plan;
* `Report`: what the program wrote and with which code it ends;
* `Script.run`: runs a script;
* `Dialogue.run`: holds a dialogue over a whole input.
-/
import MonkeyLang.Console.Arguments
import MonkeyLang.Console.Dialogue
import MonkeyLang.Text.Lines

namespace MonkeyLang

/-! ### Plans -/

/-- How messages are logged: whether they come from a trace, and how much
is logged. -/
structure Logging where
  tracing : Bool
  level : LogLevel
deriving DecidableEq, Repr

/-- What the program does: it ends with a code at once, fails since there
is no log level of that name, runs a script, holds a dialogue, or fails
behind the words that start one since the options for showing values are
at fault. -/
inductive Plan where
  | leave (code : Nat)
  | badLevel (name : Option String)
  | script (path : String) (logging : Logging)
  | dialogue (prompt : String) (style : Display.Style) (logging : Logging)
  | badOptions (fault : Json.Fault)

namespace Plan

/-- A dialogue in which values are shown as a JSON text of options says. -/
def talk (prompt display : String) (color : Bool) (logging : Logging) :
    Plan :=
  match Display.Options.ofText display with
  | .error fault => badOptions fault
  | .ok options =>
    dialogue prompt { Display.Style.ofOptions options with colored := color }
      logging

/-- The plan for some settings and arguments.  Values are colored only on a
terminal. -/
def make (settings : Settings) (argv : List String) (terminal : Bool) : Plan :=
  match Arguments.read argv settings with
  | .error code => leave code
  | .ok a =>
    let name? := if a.trace then some LogLevel.debugLabel else a.logLevel
    match name?.bind LogLevel.ofName? with
    | none => badLevel name?
    | some level =>
      let logging : Logging := ⟨a.trace, level⟩
      match a.script with
      | none | some "" =>
        talk settings.prompt settings.display (a.color && terminal) logging
      | some path => script path logging

end Plan

/-! ### Logs -/

namespace Logging

/-- The line that is logged for an event.  A trace shows the wording
alone. -/
def line (l : Logging) (e : Event) : String :=
  if l.tracing then e.message ++ "\n"
  else LogLevel.debugLabel ++ " " ++ e.channel ++ ": " ++ e.message ++ "\n"

/-- What is logged for some events; all of them are of the least weight. -/
def text (l : Logging) (events : Array Event) : String :=
  if l.level.logsAll then String.join (events.toList.map l.line) else ""

end Logging

/-! ### Running -/

/-- What the program wrote, on its two channels, and the code it ends
with; there is none if it broke off since a value cannot be shown. -/
structure Report where
  out : String
  err : String
  code : Option Nat
deriving DecidableEq, Repr

namespace Script

/-- The text of a script, if its bytes are UTF-8.  Each line end is read as
a line feed. -/
def text? (bytes : ByteArray) : Option String :=
  (String.fromUTF8? bytes).map fun s => String.ofList (Lines.unify s.toList)

/-- What is shown of a script's result, and the code for it: only faults
are shown. -/
def ending : Except Failure (Option Value) → String × Nat
  | .error f => (Dialogue.failureText f, 1)
  | .ok (some (.error f)) => ((Value.error f).text ++ "\n", 1)
  | .ok _ => ("", 0)

/-- Runs a script. -/
def run (depth : Nat) (logging : Logging) (source : String) : Option Report :=
  ((Session.start logging.tracing).evaluate depth source).map
    fun (result, s) =>
      let (shown, code) := ending result
      ⟨s.store.output ++ shown, logging.text s.events, some code⟩

end Script

/-- Holds a dialogue over a whole input. -/
def Dialogue.run (depth : Nat) (prompt : String) (style : Display.Style)
    (logging : Logging) (input : String) : Option Report :=
  let input := String.ofList (Lines.unify input.toList)
  (transcript depth style prompt input (Session.start logging.tracing)).map
    fun (reply, s) =>
      ⟨greeting ++ reply.text, logging.text s.events,
        if reply.broken then none else some 0⟩

end MonkeyLang

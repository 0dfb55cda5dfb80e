/-
The command line program: reads the environment, the arguments, scripts
and lines from the terminal, and writes what the library says.
-/
import MonkeyLang.Console.Program

namespace MonkeyLang

/-- How deep evaluations may be nested in each other. -/
def Console.depth : Nat := 10000000

/-- The settings that the environment gives. -/
def Console.settings : IO Settings := do
  let names := ["MONKEY_TRACE", "MONKEY_LOG_LEVEL", "MONKEY_PROMPT",
    "MONKEY_COLOR", "MONKEY_PPRINT"]
  let values ← names.mapM fun name => do return (name, ← IO.getEnv name)
  return Settings.ofVariables fun name => (values.lookup name).join

/-- What is said when the program breaks off. -/
def Console.brokenText : String :=
  "a limit in the options for showing values is no number"

/-- Writes a report on the two channels and gives its code. -/
def Console.write (r : Report) : IO UInt32 := do
  IO.print r.out
  IO.eprint r.err
  if r.code.isNone then IO.eprintln Console.brokenText
  return (r.code.getD 1).toUInt32

/-- Reads lines until the input ends, and answers each at once. -/
partial def Console.dialogue (prompt : String) (style : Display.Style)
    (logging : Logging) (pending : List String) (s : Session) : IO UInt32 := do
  match pending with
  | line :: rest =>
    match Dialogue.answer Console.depth style line s with
    | none =>
      IO.eprintln "evaluations are nested too deep"
      return 1
    | some (reply, s) =>
      IO.print reply.text
      IO.eprint (logging.text s.events)
      if reply.broken then
        IO.eprintln Console.brokenText
        return 1
      IO.print (if rest.isEmpty then "" else prompt)
      Console.dialogue prompt style logging rest s.forgetOutput
  | [] =>
    IO.print prompt
    (← IO.getStdout).flush
    let input ← (← IO.getStdin).getLine
    if input.isEmpty then return 0
    let lines := (Dialogue.lines (Lines.unify input.toList)).map String.ofList
    Console.dialogue prompt style logging lines s

/-- Runs the script at a path. -/
def Console.script (path : String) (logging : Logging) : IO UInt32 := do
  let bytes ← IO.FS.readBinFile path
  match Script.text? bytes with
  | none =>
    IO.eprintln "the script is not UTF-8 text"
    return 1
  | some source =>
    match Script.run Console.depth logging source with
    | some r => Console.write r
    | none =>
      IO.eprintln "evaluations are nested too deep"
      return 1

end MonkeyLang

open MonkeyLang

/-- The program. -/
def main (argv : List String) : IO UInt32 := do
  let terminal ← (← IO.getStdout).isTty
  match Plan.make (← Console.settings) argv terminal with
  | .leave code =>
    if code = 0 then IO.println Arguments.usage
    else IO.eprintln Arguments.usage
    return code.toUInt32
  | .badLevel name? =>
    IO.eprintln ("unknown log level: " ++ name?.getD "none")
    return 1
  | .badOptions _ =>
    IO.print Dialogue.greeting
    IO.eprintln "a number in the options is too long"
    return 1
  | .script path logging => Console.script path logging
  | .dialogue prompt style logging =>
    IO.print Dialogue.greeting
    Console.dialogue prompt style logging [] (.start logging.tracing)

/-
Parsing.

* `Parsed`: what a parser found: a program, the diagnostics and the trace.
  A program that comes with diagnostics is not to be evaluated;
* `Parser.ofTokens`: parses a stream of tokens;
* `Parser.ofSource`: parses a source text.
-/
import MonkeyLang.Parser.Grammar
import MonkeyLang.Token.Stream

namespace MonkeyLang

/-- What a parser found. -/
structure Parsed where
  program : Node
  diagnostics : List Diagnostic
  trace : List Trace.Line
deriving Repr

namespace Parser

/-- The program that a reader stands before, and the reader behind it. -/
def run (r : Reader) : Option (Node × Reader) := Grammar.program.run r

/-- Parses a stream of tokens, tracing if asked to. -/
def ofTokens (ts : List Token) (tracing : Bool) : Parsed :=
  match run (.ofTokens ts tracing) with
  | some (program, r) => ⟨program, r.diagnostics.toList, r.trace.toList⟩
  | none => ⟨.program [], [], []⟩

/-- Parses a source text, tracing if asked to. -/
def ofSource (source : String) (tracing : Bool) : Parsed :=
  ofTokens (Token.stream source) tracing

end Parser

end MonkeyLang

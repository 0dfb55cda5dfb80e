import MonkeyLang.Editor.Documents
import MonkeyLang.Editor.Message
import MonkeyLang.Main
import MonkeyLang.Store.Nesting
import MonkeyLang.Proofs.Parser.Cursor
import MonkeyLang.Proofs.Parser.Rules
import MonkeyLang.Proofs.Parser.Writing
import MonkeyLang.Proofs.Parser.Completeness
import MonkeyLang.Proofs.Eval.Keeps
import MonkeyLang.Proofs.Bindings
import MonkeyLang.Proofs.Value.Closed
import MonkeyLang.Proofs.Eval.Stable
import MonkeyLang.Proofs.Eval.FrameLaw
import MonkeyLang.Proofs.Store.Bound
import MonkeyLang.Proofs.Session.Stable
import MonkeyLang.Proofs.Session.WellFormed
import MonkeyLang.Proofs.Eval.Asks
import MonkeyLang.Proofs.Eval.FirstError
import MonkeyLang.Proofs.Eval.Answers
import MonkeyLang.Proofs.Eval.Ends
import MonkeyLang.Proofs.Tree.Positions
import MonkeyLang.Proofs.Eval.Regime
import MonkeyLang.Proofs.Eval.Within
import MonkeyLang.Proofs.Eval.Moments
import MonkeyLang.Proofs.Parser.Yields
import MonkeyLang.Proofs.Session.Phases
import MonkeyLang.Proofs.Session.Regime
import MonkeyLang.Proofs.Session.Values
import MonkeyLang.Proofs.Tree.Discipline
import MonkeyLang.Proofs.Tree.Literals
import MonkeyLang.Proofs.Eval.Returns
import MonkeyLang.Proofs.Session.Returns
import MonkeyLang.Proofs.Session.Integers
import MonkeyLang.Proofs.Session.Rejected
import MonkeyLang.Proofs.Eval.Zones
import MonkeyLang.Proofs.Session.Definitions
import MonkeyLang.Proofs.Session.Isolation
import MonkeyLang.Proofs.Parser.Derivation
import MonkeyLang.Proofs.Parser.Reads
import MonkeyLang.Proofs.Parser.Sequences
import MonkeyLang.Proofs.Parser.Soundness
import MonkeyLang.Proofs.Parser.Balance
import MonkeyLang.Proofs.Text.Digits
import MonkeyLang.Proofs.Token.Scanning
import MonkeyLang.Proofs.Value.Data
import MonkeyLang.Proofs.Session.Printed
import MonkeyLang.Proofs.Tree.Template
import MonkeyLang.Proofs.Eval.Template
import MonkeyLang.Proofs.Session.Substitution
import MonkeyLang.Proofs.Parser.Faultless
import MonkeyLang.Proofs.Parser.Calls
import MonkeyLang.Proofs.Parser.Border
import MonkeyLang.Proofs.Parser.Concat
import MonkeyLang.Proofs.Related
import MonkeyLang.Proofs.Tree.Bare
import MonkeyLang.Proofs.Parser.Places
import MonkeyLang.Proofs.Token.Lines
import MonkeyLang.Proofs.Parser.Lines
import MonkeyLang.Proofs.Value.Congruence
import MonkeyLang.Proofs.Value.Renamed
import MonkeyLang.Proofs.Store.Renamed
import MonkeyLang.Proofs.Eval.Parallel
import MonkeyLang.Proofs.Eval.Parts
import MonkeyLang.Proofs.Eval.Renamed
import MonkeyLang.Proofs.Session.Renamed
import MonkeyLang.Proofs.Session.Whole
import MonkeyLang.Proofs.Session.Concat
import MonkeyLang.Proofs.Session.Script
import MonkeyLang.Proofs.Session.Order
import MonkeyLang.Proofs.Token.Grammar
import MonkeyLang.Proofs.Token.Tiling
import MonkeyLang.Proofs.Eval.Raising
import MonkeyLang.Proofs.Session.Raising
import MonkeyLang.Proofs.Tree.Unquotes
import MonkeyLang.Proofs.Eval.Quoting
import MonkeyLang.Proofs.Eval.Unquoting
import MonkeyLang.Proofs.Tree.Relabel
import MonkeyLang.Proofs.Value.Relabel
import MonkeyLang.Proofs.Store.Relabel
import MonkeyLang.Proofs.Eval.Relabel
import MonkeyLang.Proofs.Eval.Permuted
import MonkeyLang.Proofs.Session.Index
import MonkeyLang.Proofs.Value.Bare
import MonkeyLang.Proofs.Session.Repeated
import MonkeyLang.Proofs.Store.Shuffled
import MonkeyLang.Proofs.Eval.Definitions
import MonkeyLang.Proofs.Eval.Refines
import MonkeyLang.Proofs.Eval.Staged
import MonkeyLang.Proofs.Editor.Cursor
import MonkeyLang.Proofs.Editor.Requests
import MonkeyLang.Proofs.Editor.History
import MonkeyLang.Proofs.Editor.Places
import MonkeyLang.Proofs.Parser.Recovery
import MonkeyLang.Proofs.Parser.Resumed
import MonkeyLang.Proofs.Parser.Numerals
import MonkeyLang.Proofs.Editor.Recovery
import MonkeyLang.Proofs.Token.Quoted
import MonkeyLang.Proofs.Eval.Arithmetic
import MonkeyLang.Proofs.Token.Layout
import MonkeyLang.Proofs.Parser.Printing
import MonkeyLang.Proofs.Token.Reread
import MonkeyLang.Proofs.Parser.Printed
import MonkeyLang.Proofs.Value.Hashing
import MonkeyLang.Proofs.Value.Tables
import MonkeyLang.Proofs.Value.Equality
import MonkeyLang.Proofs.Eval.HashLiterals
import MonkeyLang.Proofs.Store.Scoping
import MonkeyLang.Proofs.Tree.Postorder
import MonkeyLang.Proofs.Session.Unexpanded
import MonkeyLang.Proofs.Tree.Respell
import MonkeyLang.Proofs.Tree.Sealed
import MonkeyLang.Proofs.Value.Respell
import MonkeyLang.Proofs.Store.Respell
import MonkeyLang.Proofs.Eval.Allowed
import MonkeyLang.Proofs.Eval.Respell
import MonkeyLang.Proofs.Session.Respell
import MonkeyLang.Proofs.Display.OneLine
import MonkeyLang.Proofs.Parser.Coupled
import MonkeyLang.Proofs.Parser.Order
import MonkeyLang.Proofs.Parser.Tracing
import MonkeyLang.Proofs.Eval.Reckoning
import MonkeyLang.Proofs.Eval.Folds
import MonkeyLang.Proofs.Session.Folds
import MonkeyLang.Proofs.Display.Breaking
import MonkeyLang.Proofs.Display.Colors
import MonkeyLang.Proofs.Display.LineLength
import MonkeyLang.Proofs.Editor.Calls
import MonkeyLang.Proofs.Parser.Naming
import MonkeyLang.Proofs.Editor.Apart
import MonkeyLang.Proofs.Editor.Words
import MonkeyLang.Proofs.Editor.Literals
import MonkeyLang.Proofs.Editor.Hover
import MonkeyLang.Proofs.Editor.Signatures

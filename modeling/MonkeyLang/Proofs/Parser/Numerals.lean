/-
Texts that are a single integer literal.

* `Numeral.positional`: the number that digits of any script denote by their
  places; `Numeral.value_eq_ofDigits`: it is what a numeral is read as;
* `Reader.Alone`: a reader stands on the only token that is left;
* `Grammar.integerOf`: what becomes of a token of digits, the literal or a fault;
  `integer_alone`, `expressionWith_alone`, `statement_alone`: so it does when each
  of the rules reads it;
* `Parser.ofTokens_integer`: a stream of such a token is that literal, or nothing
  but that fault;
* `Parser.ofSource_digits`: digits are accepted if and only if they are not too
  many and do not denote too much.
-/
import MonkeyLang.Proofs.Parser.Resumed
import MonkeyLang.Proofs.Token.Scanning
import Mathlib.Data.Nat.Digits.Defs

namespace MonkeyLang

/-! ### The number that digits denote -/

namespace Numeral

/-- The number that digits denote: the last one counts ones, and each other one
ten times what the one behind it counts. -/
def positional (cs : List Char) : ℕ :=
  Nat.ofDigits 10 (cs.reverse.map fun c => (Digit.value? c).getD 0)

/-- Reading from the left gives the number that the places give. -/
lemma value_eq_ofDigits (ds : List ℕ) :
    value ds = Nat.ofDigits 10 ds.reverse := by
  induction ds using List.reverseRecOn with
  | nil => rfl
  | append_singleton ds d ih =>
      calc value (ds ++ [d])
          = 10 * value ds + d := List.foldl_concat _ _ _ _
        _ = d + 10 * Nat.ofDigits 10 ds.reverse := by rw [ih, Nat.add_comm]
        _ = Nat.ofDigits 10 (ds ++ [d]).reverse := by
            rw [List.reverse_concat, Nat.ofDigits_cons]

/-- **The value of a numeral.**  A text of digits of any scripts, if there are not
too many of them, is read as the number that they denote by their places. -/
theorem read?_of_digits {text : String} (hne : text ≠ "")
    (h : ∀ c ∈ text.toList, Digit.isDigit c = true) :
    read? text = if text.length ≤ maxDigits then
      some (positional text.toList : Int) else none := by
  let ds := text.toList.map fun c => (Digit.value? c).getD 0
  have hds : ds ≠ [] := by
    simpa [ds] using hne
  have hlength : ds.length = text.length := by
    rw [List.length_map, String.length_toList]
  have hvalue : value ds = positional text.toList := by
    rw [value_eq_ofDigits, positional, List.map_reverse]
  rw [read?_of_map (map_value? h) hds, hlength, hvalue]

end Numeral

/-! ### The only token that is left -/

/-- A reader stands on the last token before the end, having met some faults. -/
structure Reader.Alone (t : Token) (faults : List Diagnostic) (r : Reader) :
    Prop where
  at_token : r.At [t]
  diagnostics : r.diagnostics.toList = faults

namespace Reader.Alone

variable {t : Token} {faults : List Diagnostic} {r : Reader}

lemma enter (h : r.Alone t faults) (rule : Rule) :
    (r.enter rule).Alone t faults :=
  ⟨h.at_token.congr (r.unread_enter rule) (r.eof_enter rule),
    by rw [Reader.diagnostics_enter, h.diagnostics]⟩

lemma leave (h : r.Alone t faults) (rule : Rule) :
    (r.leave rule).Alone t faults :=
  ⟨h.at_token.congr (r.unread_leave rule) (r.eof_leave rule),
    by rw [Reader.diagnostics_leave, h.diagnostics]⟩

lemma report (h : r.Alone t faults) (cause : Diagnostic.Cause) :
    (r.report cause t).Alone t (faults ++ [⟨cause, t.position⟩]) :=
  ⟨h.at_token.congr rfl rfl, by
    rw [Reader.report, Array.toList_push, h.diagnostics]⟩

lemma current (h : r.Alone t faults) : r.current = t := h.at_token.current

lemma next_kind (h : r.Alone t faults) : r.next.kind = .eof :=
  h.at_token.next_kind

/-- It is the reader of a stream of this token. -/
lemma ofTokens {e : Token} (ht : t.kind ≠ .eof) (he : e.kind = .eof)
    (tracing : Bool) : (Reader.ofTokens [t, e] tracing).Alone t [] := by
  have htoken := Reader.at_ofTokens [t, e] tracing
  have hbefore : Token.beforeEnd [t, e] = [t] := by
    simp [Token.beforeEnd, ht, he]
  rw [hbefore] at htoken
  exact ⟨htoken, rfl⟩

end Reader.Alone

/-! ### Reading it -/

open Parse Grammar

namespace Grammar

variable {expr : ℕ → Parse Node} {t : Token} {r : Reader}

/-- What becomes of a token of digits, and the faults that it is. -/
def integerOf (t : Token) : Node × List Diagnostic :=
  match (Numeral.read? t.text).filter (· ≤ maxInteger) with
  | some n => (.intLit t n, [])
  | none => (.missing, [⟨.badInteger t.text, t.position⟩])

lemma integer_alone (h : r.Alone t []) :
    ∃ s, integer r = some ((integerOf t).1, s) ∧
      s.Alone t (integerOf t).2 := by
  have hentered := h.enter .integer
  rw [integer, entering_run, current_run, hentered.current, integerOf]
  cases (Numeral.read? t.text).filter (· ≤ maxInteger) with
  | some n => exact ⟨_, rfl, hentered.leave .integer⟩
  | none =>
      exact ⟨_, rfl, (hentered.report (.badInteger t.text)).leave .integer⟩

/-- Nothing goes on with it. -/
lemma expressionWith_alone (h : r.Alone t []) (hkind : t.kind = .int) :
    ∃ s, expressionWith expr lowest r = some ((integerOf t).1, s) ∧
      s.Alone t (integerOf t).2 := by
  obtain ⟨s, hrun, hs⟩ := integer_alone (h.enter .expression)
  have hstop : ¬ lowest < s.next.kind.precedence := by
    rw [hs.next_kind]
    decide
  refine ⟨s.leave .expression, ?_, hs.leave .expression⟩
  rw [expressionWith, entering_run, current_run,
    (h.enter .expression).current, hkind]
  show (Option.bind (integer (r.enter .expression)) _).map _ = _
  rw [hrun]
  show ((if lowest < s.next.kind.precedence then _ else _ : Parse Node) s).map
    _ = _
  rw [if_neg hstop]
  rfl

/-- No semicolon stands behind it. -/
lemma statement_alone (h : r.Alone t []) (hkind : t.kind = .int) :
    ∃ s, statement (expressionWith expr) r =
        some (some (.exprStmt t (integerOf t).1), s) ∧
      s.Alone t (integerOf t).2 := by
  obtain ⟨s, hrun, hs⟩ := @expressionWith_alone expr t _
    ((h.enter .statement).enter .expressionStatement) hkind
  have hskip : s.next.kind ≠ .semicolon := by
    rw [hs.next_kind]
    decide
  refine ⟨_, ?_, (hs.leave .expressionStatement).leave .statement⟩
  rw [statement_of_operand (by rw [h.current, hkind]; decide)
    (by rw [h.current, hkind]; decide), operand_run, hrun, Option.map_some,
    if_neg hskip, h.current]
  rfl

/-- One round reads it, and the next one finds the end. -/
lemma programRounds_alone (h : r.Alone t []) (hkind : t.kind = .int) :
    ∃ s, programRounds r =
        some (some [some (.exprStmt t (integerOf t).1)], s) ∧
      s.diagnostics.toList = (integerOf t).2 := by
  obtain ⟨s, hrun, hs⟩ := @statement_alone (expression 1) t r h hkind
  have hgoes : endsProgram r.current.kind ≠ true := by
    rw [h.current, hkind]
    decide
  have hend : endsProgram s.advance.current.kind = true := by
    rw [hs.at_token.advance.current]
    exact decide_eq_true hs.at_token.eof_kind
  refine ⟨s.advance, ?_, hs.diagnostics⟩
  rw [programRounds, h.at_token.unread]
  show rounds (statementRound (expressionWith (expression 1)) endsProgram) 2 r =
    _
  rw [rounds_go hgoes, hrun, Option.bind_some, rounds_end hend]
  rfl

end Grammar

namespace Parser

/-- **A single token of digits.**  It is an integer literal, or nothing but a
fault. -/
theorem ofTokens_integer {t e : Token} (hkind : t.kind = .int)
    (he : e.kind = .eof) (tracing : Bool) :
    (Parser.ofTokens [t, e] tracing).program =
        .program [.exprStmt t (integerOf t).1] ∧
      (Parser.ofTokens [t, e] tracing).diagnostics = (integerOf t).2 := by
  have halone := Reader.Alone.ofTokens (by rw [hkind]; decide : t.kind ≠ .eof)
    he tracing
  obtain ⟨s, hrun, hs⟩ := programRounds_alone (halone.enter .program) hkind
  obtain ⟨hprogram, hfaults⟩ := ofTokens_of_rounds hrun
  exact ⟨hprogram, hfaults.trans hs⟩

end Parser

/-- A text of digits is one token. -/
lemma Token.stream_digits {text : String} (hne : text ≠ "")
    (h : ∀ c ∈ text.toList, Digit.isDigit c = true) :
    Token.stream text = [⟨.int, text, .start⟩,
      Token.endAt (Position.start.after text.toList)] := by
  have hne' : text.toList ≠ [] := by simpa using hne
  have hscan : Piece.scan .start (text.toList ++ []) =
      [⟨.int, String.ofList text.toList, .start⟩] :=
    Piece.scan_digits hne' h nofun
  rw [List.append_nil, String.ofList_toList] at hscan
  rw [Token.stream, ← Piece.scan, hscan]
  rfl

/-- It is its number, if there are not too many digits and the number is not too
great. -/
lemma Grammar.integerOf_digits {t : Token} (hne : t.text ≠ "")
    (h : ∀ c ∈ t.text.toList, Digit.isDigit c = true) :
    integerOf t =
      if t.text.length ≤ 4300 ∧
          Numeral.positional t.text.toList ≤ 2 ^ 63 - 1 then
        (.intLit t (Numeral.positional t.text.toList), [])
      else (.missing, [⟨.badInteger t.text, t.position⟩]) := by
  have hmax : (Numeral.positional t.text.toList : Int) ≤ maxInteger ↔
      Numeral.positional t.text.toList ≤ 2 ^ 63 - 1 := by
    rw [maxInteger]
    omega
  rw [integerOf, Numeral.read?_of_digits hne h, Numeral.maxDigits]
  by_cases hlength : t.text.length ≤ 4300
  · rw [if_pos hlength, Option.filter_some]
    by_cases hvalue : Numeral.positional t.text.toList ≤ 2 ^ 63 - 1
    · rw [if_pos (decide_eq_true (hmax.mpr hvalue)), if_pos ⟨hlength, hvalue⟩]
    · rw [if_neg fun h => hvalue (hmax.mp (of_decide_eq_true h)),
        if_neg fun h => hvalue h.2]
  · rw [if_neg hlength, if_neg fun h => hlength h.1]
    rfl

/-- **Which integer literals are accepted.**  A text of digits of any scripts is
an integer literal, with the number that the digits denote by their places, if
there are at most 4300 of them and that number is at most `2 ^ 63 - 1`.  Else
there is one fault, at the start, that names the text. -/
theorem Parser.ofSource_digits {text : String} (hne : text ≠ "")
    (hdigits : ∀ c ∈ text.toList, Digit.isDigit c = true) (tracing : Bool) :
    (text.length ≤ 4300 ∧ Numeral.positional text.toList ≤ 2 ^ 63 - 1 →
      (Parser.ofSource text tracing).program =
          .program [.exprStmt ⟨.int, text, ⟨0, 0⟩⟩
            (.intLit ⟨.int, text, ⟨0, 0⟩⟩
              (Numeral.positional text.toList))] ∧
        (Parser.ofSource text tracing).diagnostics = []) ∧
    (¬ (text.length ≤ 4300 ∧ Numeral.positional text.toList ≤ 2 ^ 63 - 1) →
      (Parser.ofSource text tracing).diagnostics.map
          (fun d => (d.message, d.position)) =
        [("could not parse " ++ text ++ " as integer", ⟨0, 0⟩)]) := by
  let t : Token := ⟨.int, text, .start⟩
  obtain ⟨hprogram, hfaults⟩ := Parser.ofTokens_integer
    (rfl : t.kind = .int)
    (rfl : (Token.endAt (Position.start.after text.toList)).kind = .eof)
    tracing
  rw [← Token.stream_digits hne hdigits, ← Parser.ofSource,
    Grammar.integerOf_digits hne hdigits] at hprogram hfaults
  constructor
  · intro hfits
    rw [if_pos hfits] at hprogram hfaults
    exact ⟨hprogram, hfaults⟩
  · intro hunfit
    rw [if_neg hunfit] at hfaults
    rw [hfaults]
    rfl

/-- The greatest integer is accepted with a first digit of another script, and
the next one is not. -/
theorem Parser.ofSource_digits_greatest :
    (Parser.ofSource "٩223372036854775807" false).program =
        .program [.exprStmt ⟨.int, "٩223372036854775807", ⟨0, 0⟩⟩
          (.intLit ⟨.int, "٩223372036854775807", ⟨0, 0⟩⟩
            9223372036854775807)] ∧
      (Parser.ofSource "٩223372036854775807" false).diagnostics = [] ∧
      (Parser.ofSource "٩223372036854775808" false).diagnostics.map
          (fun d => (d.message, d.position)) =
        [("could not parse ٩223372036854775808 as integer", ⟨0, 0⟩)] := by
  have hgreatest : Numeral.positional "٩223372036854775807".toList =
      9223372036854775807 := by decide
  have hnext : Numeral.positional "٩223372036854775808".toList =
      9223372036854775808 := by decide
  have hdigits : ("٩223372036854775807".toList.all Digit.isDigit &&
      "٩223372036854775808".toList.all Digit.isDigit) = true := by decide
  obtain ⟨hleft, hright⟩ := Bool.and_eq_true_iff.mp hdigits
  obtain ⟨haccepted, -⟩ := Parser.ofSource_digits
    (by decide : "٩223372036854775807" ≠ "") (List.all_eq_true.mp hleft) false
  obtain ⟨-, hrejected⟩ := Parser.ofSource_digits
    (by decide : "٩223372036854775808" ≠ "") (List.all_eq_true.mp hright) false
  obtain ⟨hprogram, hfaults⟩ := haccepted ⟨by decide, by omega⟩
  rw [hgreatest] at hprogram
  exact ⟨hprogram, hfaults, hrejected fun h => by omega⟩

end MonkeyLang

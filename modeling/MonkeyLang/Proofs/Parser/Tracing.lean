/-
Tracing is transparent and well nested.

* `Trace.Nested`: messages of rules that open and close as brackets do, each
  with a tab for each rule that is open around it;
* `Reader.quiet`: a reader without its trace; no step of the parser depends on
  what it leaves out;
* `Reader.Logged`: what a reader that traces has logged since the innermost
  rule around it was entered is nested;
* `Reader.silenced`: a reader that traces and the same one without its trace stay
  so, whatever rule is read;
* `Parser.Between`: the readers between the statements of a program;
  `Parser.exists_between`: a run leads through them, from one to the next;
* `Parser.tracing_transparent`: what tracing adds and what it does not change.
-/
import MonkeyLang.Proofs.Parser.Concat
import MonkeyLang.Proofs.Parser.Coupled

namespace MonkeyLang

/-! ### Traces -/

namespace Trace

/-- As many tabs. -/
def tabs (depth : ℕ) : String := "".pushn '\t' depth

/-- Messages under some open rules: of traced rules, one after the other, each
with a message where it opens, those of the rules in it, and one where it
closes. -/
inductive Nested : ℕ → List String → Prop
  | nil (depth : ℕ) : Nested depth []
  | rule {depth : ℕ} {rule : Rule} {name : String} {inner rest : List String}
      (hname : rule.traceName? = some name) (hinner : Nested (depth + 1) inner)
      (hrest : Nested depth rest) :
      Nested depth ((tabs depth ++ "BEGIN " ++ name) ::
        (inner ++ (tabs depth ++ "END " ++ name) :: rest))

lemma Nested.append {depth : ℕ} {as bs : List String} (ha : Nested depth as)
    (hb : Nested depth bs) : Nested depth (as ++ bs) := by
  induction ha with
  | nil => exact hb
  | rule hname hinner _ _ ih =>
    rw [List.cons_append, List.append_assoc, List.cons_append]
    exact .rule hname hinner (ih hb)

lemma Line.text_opening (depth : ℕ) (name : String) :
    (⟨depth, .opening, name⟩ : Line).text = tabs depth ++ "BEGIN " ++ name := by
  have hword : "BEGIN" ++ " " = "BEGIN " := by decide
  rw [← hword, ← String.append_assoc]
  rfl

lemma Line.text_closing (depth : ℕ) (name : String) :
    (⟨depth, .closing, name⟩ : Line).text = tabs depth ++ "END " ++ name := by
  have hword : "END" ++ " " = "END " := by decide
  rw [← hword, ← String.append_assoc]
  rfl

end Trace

/-! ### Readers -/

namespace Reader

variable {ts : List Token} {r s : Reader} {rule : Rule} {name : String}

/-- A reader that does not trace and has traced nothing. -/
def quiet (r : Reader) : Reader := { r with tracing := false, trace := #[] }

lemma enter_of_untraced (hrule : rule.traceName? = none) :
    r.enter rule = { r with calls := r.calls + 1 } := by
  rw [enter, hrule]

lemma leave_of_untraced (hrule : rule.traceName? = none) : r.leave rule = r := by
  rw [leave, hrule]

/-- Entering a traced rule, with a message if the reader traces. -/
lemma enter_of_traced (hrule : rule.traceName? = some name) :
    r.enter rule = { r with
      calls := r.calls + 1
      depth := r.depth + 1
      trace := if r.tracing then r.trace.push ⟨r.depth, .opening, name⟩
        else r.trace } := by
  rw [enter, hrule]
  simp only [log]
  split_ifs <;> rfl

lemma leave_of_traced (hrule : rule.traceName? = some name) :
    r.leave rule = { r with
      depth := r.depth - 1
      trace := if r.tracing then r.trace.push ⟨r.depth - 1, .closing, name⟩
        else r.trace } := by
  rw [leave, hrule]
  simp only [log]
  split_ifs <;> rfl

lemma quiet_enter (r : Reader) (rule : Rule) :
    (r.enter rule).quiet = r.quiet.enter rule := by
  cases hrule : rule.traceName? with
  | none => rw [enter_of_untraced hrule, enter_of_untraced hrule]; rfl
  | some name => rw [enter_of_traced hrule, enter_of_traced hrule]; rfl

lemma quiet_leave (r : Reader) (rule : Rule) :
    (r.leave rule).quiet = r.quiet.leave rule := by
  cases hrule : rule.traceName? with
  | none => rw [leave_of_untraced hrule, leave_of_untraced hrule]
  | some name => rw [leave_of_traced hrule, leave_of_traced hrule]; rfl

/-- A reader traces, some rules are open around it, and what it has logged since
the innermost of them was entered is nested. -/
structure Logged (earlier : List Trace.Line) (depth : ℕ) (r : Reader) : Prop where
  tracing : r.tracing = true
  depth_eq : r.depth = depth
  nested : ∃ inner, r.trace.toList = earlier ++ inner ∧
    Trace.Nested depth (inner.map Trace.Line.text)

namespace Logged

variable {earlier : List Trace.Line} {depth : ℕ}

/-- In a traced rule one more rule is open, and nothing is logged yet. -/
lemma enter (h : r.Logged earlier depth) (hrule : rule.traceName? = some name) :
    (r.enter rule).Logged (r.trace.toList ++ [⟨depth, .opening, name⟩])
      (depth + 1) := by
  rw [enter_of_traced hrule, if_pos h.tracing, h.depth_eq]
  exact ⟨h.tracing, rfl, [], by simp, .nil _⟩

/-- Behind a traced rule its messages are closed. -/
lemma leave (h : r.Logged earlier depth) (hrule : rule.traceName? = some name)
    (hs : s.Logged (r.trace.toList ++ [⟨depth, .opening, name⟩]) (depth + 1)) :
    (s.leave rule).Logged earlier depth := by
  obtain ⟨before, hbefore, hnested⟩ := h.nested
  obtain ⟨inner, hinner, hnested'⟩ := hs.nested
  have hdepth : s.depth - 1 = depth := by rw [hs.depth_eq]; omega
  rw [leave_of_traced hrule, if_pos hs.tracing, hdepth]
  refine ⟨hs.tracing, rfl, before ++
    ⟨depth, .opening, name⟩ :: (inner ++ [⟨depth, .closing, name⟩]), ?_, ?_⟩
  · simp [hinner, hbefore]
  · rw [List.map_append, List.map_cons, List.map_append, Trace.Line.text_opening]
    refine hnested.append ?_
    have hrule := Trace.Nested.rule hrule hnested' (.nil depth)
    rwa [← Trace.Line.text_closing] at hrule

end Logged

/-- One reader traces, and the other is the same one without its trace. -/
def silenced : Coupling (List Trace.Line × ℕ) where
  on i r r' := r' = r.quiet ∧ r.Logged i.1 i.2
  before i r r' := r' = r.quiet ∧ r.Logged i.1 i.2
  unread := fun h => by rw [h.1]; rfl
  eof := fun h => by rw [h.1]; rfl
  settle := id
  advance := fun ⟨hquiet, h⟩ =>
    ⟨by rw [hquiet]; rfl, h.tracing, h.depth_eq, h.nested⟩
  reportCurrent := fun ⟨hquiet, h⟩ _ =>
    ⟨by rw [hquiet]; rfl, h.tracing, h.depth_eq, h.nested⟩
  reportNext := fun ⟨hquiet, h⟩ _ =>
    ⟨by rw [hquiet]; rfl, h.tracing, h.depth_eq, h.nested⟩
  enter := by
    rintro ⟨earlier, depth⟩ r _ ⟨rfl, h⟩ rule
    rw [← quiet_enter]
    cases hrule : rule.traceName? with
    | none =>
      refine ⟨(earlier, depth), ⟨rfl, ?_⟩, ?_⟩
      · rw [enter_of_untraced hrule]
        exact ⟨h.tracing, h.depth_eq, h.nested⟩
      · rintro s _ ⟨rfl, hs⟩
        rw [leave_of_untraced hrule, leave_of_untraced hrule]
        exact ⟨rfl, hs⟩
    | some name =>
      refine ⟨(r.trace.toList ++ [⟨depth, .opening, name⟩], depth + 1),
        ⟨rfl, h.enter hrule⟩, ?_⟩
      rintro s _ ⟨rfl, hs⟩
      rw [← quiet_leave]
      exact ⟨rfl, h.leave hrule hs⟩

/-- A reader with or without its trace. -/
def traced (tracing : Bool) (r : Reader) : Reader := if tracing then r else r.quiet

/-- Whether it traces or not, a reader reads the same, and what it has logged
stays nested. -/
lemma Logged.run {α : Type} (tracing : Bool) {p : Parse α} {a : α}
    {i : List Trace.Line × ℕ}
    (hp : Parse.Coupled (silenced.on i) p (silenced.on i))
    (hr : r.Logged i.1 i.2) (h : p (r.traced tracing) = some (a, s)) :
    ∃ s', p r = some (a, s') ∧ p r.quiet = some (a, s'.quiet) ∧
      s'.Logged i.1 i.2 ∧ s = s'.traced tracing := by
  have hrel := hp r r.quiet ⟨rfl, hr⟩
  generalize hx : p r = x, hy : p r.quiet = y at hrel
  cases hrel with
  | none => cases tracing <;> simp_all [traced]
  | @some x y hxy =>
    obtain ⟨b, s'⟩ := x
    obtain ⟨c, t⟩ := y
    obtain ⟨rfl, rfl, hlogged⟩ : b = c ∧ t = s'.quiet ∧ s'.Logged i.1 i.2 := hxy
    cases tracing with
    | false =>
      obtain ⟨rfl, rfl⟩ : b = a ∧ s'.quiet = s := by simpa [traced, hy] using h
      exact ⟨s', rfl, rfl, hlogged, rfl⟩
    | true =>
      obtain ⟨rfl, rfl⟩ : b = a ∧ s' = s := by simpa [traced, hx] using h
      exact ⟨s', rfl, rfl, hlogged, rfl⟩

end Reader

/-! ### Programs -/

namespace Parser

open Parse Grammar

variable {ts : List Token} {tracing : Bool} {r s : Reader}

/-- The readers between the statements of a program: the one before the first of
them, and those behind each one. -/
inductive Between (ts : List Token) (tracing : Bool) : Reader → Prop
  | start : Between ts tracing ((Reader.ofTokens ts tracing).enter .program)
  | statement {r s : Reader} {found : Option Node} (hr : Between ts tracing r)
      (hs : statementRound
        (expression ((Reader.ofTokens ts tracing).unread.length + 1))
        endsProgram r = some (.item found, s)) : Between ts tracing s

/-- Between two statements no rule is open, and what was logged is nested. -/
lemma Between.logged (h : Between ts tracing r) :
    ∃ s : Reader, s.Logged [] 0 ∧ r = s.traced tracing := by
  induction h with
  | start =>
    refine ⟨(Reader.ofTokens ts true).enter .program,
      ⟨rfl, rfl, [], rfl, .nil 0⟩, ?_⟩
    cases tracing <;> rfl
  | statement _ hs ih =>
    obtain ⟨s, hlogged, rfl⟩ := ih
    obtain ⟨s', -, -, hlogged', rfl⟩ := Reader.Logged.run tracing (i := ([], 0))
      ((escorted_expression _).coupled_statementRound endsProgram) hlogged hs
    exact ⟨s', hlogged', rfl⟩

lemma Between.depth_eq (h : Between ts tracing r) : r.depth = 0 := by
  obtain ⟨s, hlogged, rfl⟩ := h.logged
  cases tracing <;> exact hlogged.depth_eq

lemma Between.nested (h : Between ts tracing r) :
    Trace.Nested 0 (r.trace.toList.map Trace.Line.text) := by
  obtain ⟨s, hlogged, rfl⟩ := h.logged
  cases tracing with
  | false => exact .nil 0
  | true =>
    obtain ⟨inner, htrace, hnested⟩ := hlogged.nested
    show Trace.Nested 0 (s.trace.toList.map Trace.Line.text)
    rwa [htrace]

/-- Rounds of statements lead from one reader between statements to the next,
and to the end of the stream. -/
lemma Between.rounds {n : ℕ} {found : Option (List (Option Node))}
    (hr : Between ts tracing r)
    (h : Parse.rounds (statementRound
      (expression ((Reader.ofTokens ts tracing).unread.length + 1)) endsProgram)
      n r = some (found, s)) :
    Between ts tracing s ∧ endsProgram s.current.kind = true := by
  induction n generalizing r found with
  | zero => cases h
  | succ n ih =>
    by_cases hend : endsProgram r.current.kind = true
    · rw [rounds_end hend] at h
      cases h
      exact ⟨hr, hend⟩
    · rw [rounds_go hend] at h
      obtain ⟨⟨n?, s₁⟩, hstatement, h⟩ := Option.bind_eq_some_iff.mp h
      obtain ⟨⟨rest, s₂⟩, hrest, hfound⟩ := Option.map_eq_some_iff.mp h
      cases hfound
      have hround : statementRound
          (expression ((Reader.ofTokens ts tracing).unread.length + 1))
          endsProgram r = some (.item n?, s₁.advance) := by
        show (if endsProgram r.current.kind then _ else _ : Parse _) r = _
        rw [if_neg hend]
        show (Grammar.statement _ r).bind _ = _
        rw [hstatement]
        rfl
      exact ih (hr.statement hround) hrest

/-- A run of the parser leads through the readers between statements and ends at
the last one. -/
lemma exists_between (ts : List Token) (tracing : Bool) :
    ∃ program r, Between ts tracing r ∧ r.current.kind = .eof ∧
      run (.ofTokens ts tracing) = some (program, r) := by
  obtain ⟨ns, s, hrounds⟩ := exists_rounds ts tracing
  obtain ⟨hs, hend⟩ := Between.rounds .start hrounds
  refine ⟨.program (ns.filterMap id), s, hs, of_decide_eq_true hend, ?_⟩
  show program (.ofTokens ts tracing) = _
  rw [program_eq, hrounds]
  rfl

/-- **Tracing is transparent and well nested.**  For every stream of tokens, a
parser that traces finds the same program and the same faults as one that does
not, which logs nothing.  The messages are nested: each has a tab for each rule
that is open around it.  A run leads through readers between the statements of
the program to the end of the stream, and at each of them no rule is open, with
and without tracing. -/
theorem tracing_transparent (ts : List Token) :
    (ofTokens ts true).program = (ofTokens ts false).program ∧
      (ofTokens ts true).diagnostics = (ofTokens ts false).diagnostics ∧
      (ofTokens ts false).trace = [] ∧
      Trace.Nested 0 ((ofTokens ts true).trace.map Trace.Line.text) ∧
      ∀ tracing,
        (∃ program r, Between ts tracing r ∧ r.current.kind = .eof ∧
          run (.ofTokens ts tracing) = some (program, r)) ∧
        ∀ r, Between ts tracing r → r.depth = 0 ∧
          Trace.Nested 0 (r.trace.toList.map Trace.Line.text) := by
  obtain ⟨program, r, hr, -, hrun⟩ := exists_between ts true
  obtain ⟨_, -, hquiet, -, rfl⟩ := Reader.Logged.run true
    (r := .ofTokens ts true) (i := ([], 0)) coupled_program
    ⟨rfl, rfl, [], rfl, .nil 0⟩ hrun
  have htraced : ofTokens ts true =
      ⟨program, r.diagnostics.toList, r.trace.toList⟩ := by
    rw [ofTokens, hrun]
  have hsilent : ofTokens ts false = ⟨program, r.diagnostics.toList, []⟩ := by
    have hrun' : run (.ofTokens ts false) = some (program, r.quiet) := hquiet
    rw [ofTokens, hrun']
    rfl
  rw [htraced, hsilent]
  exact ⟨rfl, rfl, rfl, hr.nested, fun tracing =>
    ⟨exists_between ts tracing, fun r h => ⟨h.depth_eq, h.nested⟩⟩⟩

/-- An operator without an operand: the rule that finds the fault is left as the
others are. -/
example : (ofSource "!" true).trace.map Trace.Line.text =
    ["BEGIN parse_expression_statement", "\tBEGIN parse_expression",
      "\t\tBEGIN parse_prefix_expression", "\t\t\tBEGIN parse_expression",
      "\t\t\tEND parse_expression", "\t\tEND parse_prefix_expression",
      "\tEND parse_expression", "END parse_expression_statement"] := by
  decide +kernel

end Parser

end MonkeyLang

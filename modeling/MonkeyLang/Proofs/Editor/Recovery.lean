/-
How an index recovers behind an unfinished statement.

* `Unenclosed`: a text has no brackets and no quotes;
  `Token.flat_of_unenclosed`: then its tokens are flat, and it is over where it
  ends;
* `Index.Starves`: a text ends where an expression has to start;
* `Index.behind`: the statements of a second text that are found behind it, the
  first of which is lost behind a text that starves;
* `Index.exists_statements`: what the parser finds in a text of both;
* `Index.recovers`: so its index has the names of the first text and those of
  the statements that are found behind it;
* `Index.not_recovers`: so names of the second text may be missing.
-/
import MonkeyLang.Proofs.Parser.Lines
import MonkeyLang.Proofs.Parser.Resumed
import MonkeyLang.Proofs.Session.Index

namespace MonkeyLang

open Grammar
open List (Forall₂)

/-! ### Texts without brackets and quotes -/

/-- The brackets and the quote. -/
def enclosers : List Char := ['(', ')', '[', ']', '\x7b', '\x7d', '"']

/-- A text has no brackets and no quotes. -/
def Unenclosed (text : String) : Prop := ∀ c ∈ text.toList, c ∉ enclosers

instance (text : String) : Decidable (Unenclosed text) :=
  List.decidableBAll (· ∉ enclosers) text.toList

/-- No word is a bracket or a string. -/
lemma Token.Kind.isFlat_ofWord (word : String) :
    (Token.Kind.ofWord word).isFlat = true :=
  ofWord_of_keywords (P := (·.isFlat = true)) rfl (by decide) word

/-- The text of a bracket is the bracket. -/
lemma Token.Kind.isFlat_of_label {kind : Token.Kind}
    (hkind : kind.isSymbol = true)
    (h : ∀ c ∈ kind.label.toList, c ∉ enclosers) : kind.isFlat = true := by
  cases kind with
  | lparen | rparen | lbrace | rbrace | lbracket | rbracket =>
      exact absurd (by decide) (h _ (List.mem_singleton.mpr rfl))
  | _ => first | rfl | cases hkind

/-- The token of a piece without brackets and quotes is flat. -/
lemma Piece.isFlat_of_token? {p : Position} {t : Token} {piece : Piece}
    (hmade : piece.Made) (h : piece.token? p = some t)
    (hplain : ∀ c ∈ piece.text, c ∉ enclosers) : t.kind.isFlat = true := by
  cases piece with
  | newline | blanks | comment => cases h
  | string body closed =>
      exact absurd (by decide) (hplain '"' List.mem_cons_self)
  | digits | illegal =>
      cases h
      rfl
  | word cs =>
      cases h
      exact Token.Kind.isFlat_ofWord _
  | operator kind =>
      cases h
      exact Token.Kind.isFlat_of_label hmade hplain

/-- A text without brackets and quotes has flat tokens, and all its pieces are
over. -/
lemma Token.flat_of_unenclosed {text : String} (h : Unenclosed text) :
    (∀ t ∈ Token.beforeEnd (Token.stream text), t.kind.isFlat = true) ∧
      ∀ piece ∈ Piece.cut text.toList, piece.Ended := by
  have hplain : ∀ piece ∈ Piece.cut text.toList, ∀ c ∈ piece.text,
      c ∉ enclosers := fun piece hpiece c hc => h c (by
    rw [← Piece.flatMap_text_cut text.toList]
    exact List.mem_flatMap.mpr ⟨piece, hpiece, hc⟩)
  constructor
  · intro t ht
    rw [Token.beforeEnd_stream] at ht
    obtain ⟨before, piece, behind, hcut, htoken⟩ :=
      Piece.exists_of_mem_tokens ht
    have hpiece : piece ∈ Piece.cut text.toList := by simp [hcut]
    exact Piece.isFlat_of_token? (Piece.made_of_mem_cut hpiece) htoken
      (hplain piece hpiece)
  · exact fun piece hpiece => Piece.ended_of_no_quote fun hquote =>
      hplain piece hpiece '"' hquote (by decide)

/-- A statement that binds a name is a `let`. -/
lemma Symbol.eq_letStmt_of_isSome {n : Node}
    (h : (Symbol.ofStatement? n).isSome) : ∃ t u v, n = .letStmt t u v := by
  cases n with
  | letStmt t u v => exact ⟨t, u, v, rfl⟩
  | _ => cases h

namespace Index

variable {a b name : String}

/-! ### Statements -/

/-- The statements that the parser finds in a text. -/
def statements (text : String) : List Node :=
  statementsOf (Parser.ofSource text false).program

/-- A text ends where an expression has to start. -/
def Starves (text : String) : Prop :=
  ∃ d ∈ (ofText text).diagnostics, d.cause = .noExpression .eof

instance (text : String) : Decidable (Starves text) :=
  inferInstanceAs (Decidable (∃ d ∈ (ofText text).diagnostics, _))

/-- The statements of a text that are found behind another one. -/
def behind (a b : String) : List Node :=
  if Starves a then (statements b).tail else statements b

/-- What the rounds find on a text. -/
lemma exists_programRounds (text : String) : ∃ ns s,
    programRounds ((Reader.ofTokens (Token.stream text) false).enter
      .program) = some (some ns, s) ∧
    statements text = ns.filterMap id ∧ (Starves text ↔ s.Starved) ∧
    ((ofText text).diagnostics = [] ↔ s.diagnostics = #[]) := by
  obtain ⟨ns, s, hrun⟩ := Parser.exists_rounds (Token.stream text) false
  obtain ⟨hprogram, hfaults⟩ := Parser.ofTokens_of_rounds hrun
  have hdiagnostics : (ofText text).diagnostics = s.diagnostics.toList :=
    hfaults
  refine ⟨ns, s, hrun, ?_, ?_, ?_⟩
  · rw [statements, Parser.ofSource, hprogram]
    rfl
  · simp only [Starves, hdiagnostics, Array.mem_toList_iff]
    rfl
  · rw [hdiagnostics, Array.toList_eq_nil_iff]

/-- Texts with the same tokens have the same statements, places aside. -/
lemma statements_of_bare (h : (Token.stream a).map Token.bare =
    (Token.stream b).map Token.bare) :
    Forall₂ Same (statements a) (statements b) :=
  forall₂_map_eq.mpr
    (bare_statementsOf (Parser.ofTokens_alike h false false).1)

/-- A text without tokens has the stream of the empty one, places aside. -/
lemma stream_of_nil (h : Token.beforeEnd (Token.stream b) = []) :
    (Token.stream b).map Token.bare = [.made .eof ""] := by
  rw [Token.stream_eq, h]
  rfl

/-- So it has no statements, and adds none to those of a text before it. -/
lemma statements_of_nil (h : Token.beforeEnd (Token.stream b) = [])
    (hended : ∀ piece ∈ Piece.cut a.toList, piece.Ended) :
    statements b = [] ∧
      Forall₂ Same (statements a) (statements (a ++ "\n" ++ b)) := by
  have hempty := statements_of_bare (a := b) (b := "") (stream_of_nil h)
  refine ⟨List.forall₂_nil_right_iff.mp hempty, statements_of_bare ?_⟩
  obtain ⟨us, hstream, hus⟩ := Token.stream_of_ended hended b
  rw [hstream, List.map_append, hus, stream_of_nil h]
  exact (congrArg _ (Token.stream_eq a)).trans List.map_append

/-- The reader of some flat tokens and that of more tokens behind them. -/
lemma feeds_ofTokens {us : List Token}
    (hflat : ∀ t ∈ Token.beforeEnd (Token.stream a), t.kind.isFlat = true) :
    (Reader.ofTokens (Token.stream a) false).Feeds
      (Reader.ofTokens us false).unread (Reader.ofTokens us false).eof
      (Reader.ofTokens (Token.beforeEnd (Token.stream a) ++ us) false) := by
  have hat := Reader.at_ofTokens (Token.stream a) false
  obtain ⟨hunread, heof⟩ :=
    Parser.unread_append hat.kind_ne_eof us false false
  refine ⟨?_, ?_, hat.eof_kind, heof⟩
  · rw [hat.unread]
    exact hflat
  · rw [hat.unread]
    exact hunread

/-- What the rounds find on two texts, the second of which is `let`s without
faults, and on one of both. -/
lemma exists_rounds_of_both (ha : Unenclosed a)
    (hclean : (ofText b).diagnostics = [])
    (hlets : ∀ n ∈ statements b, (Symbol.ofStatement? n).isSome)
    (hne : Token.beforeEnd (Token.stream b) ≠ []) :
    ∃ ns es ws s, programRounds ((Reader.ofTokens
        (Token.stream (a ++ "\n" ++ b)) false).enter .program) =
          some (some (ns ++ (es ++ ws)), s) ∧
      statements a = ns.filterMap id ∧
      (∀ n? ∈ es, ∃ t v, n? = some (.exprStmt t v)) ∧
      Forall₂ Same (behind a b) (ws.filterMap id) := by
  obtain ⟨hflat, hended⟩ := Token.flat_of_unenclosed ha
  obtain ⟨us, hstream, hus⟩ := Token.stream_of_ended hended b
  obtain ⟨ns, s₁, hrun₁, hns, hstarves, -⟩ := exists_programRounds a
  obtain ⟨ms, s₂, hrun₂, hms, -, hclean₂⟩ := exists_programRounds b
  have hat := Reader.at_ofTokens (Token.stream b) false
  obtain ⟨hunread, heof, hfaults⟩ :=
    (Reader.ofTokens (Token.stream b) false).enter_eq .program
  have halike := Reader.alike_ofTokens hus false false
  have hX := halike.unread
  rw [hat.unread] at hX
  -- nothing was read yet, so nothing was missed
  have hfed : ¬ ((Reader.ofTokens (Token.stream a) false).enter
      .program).Starved := by
    rw [Reader.starved_enter]
    exact fun ⟨d, hd, _⟩ => Array.not_mem_empty d hd
  obtain ⟨es, ws, s, hrun, hes, hfound⟩ := programRounds_feeding
    (hat.congr hunread heof) hne hfaults hX (halike.eof.trans (heof ▸ rfl))
    ((feeds_ofTokens hflat).enter .program) hfed hrun₁ hrun₂
    (hclean₂.mp hclean) fun n hn => Symbol.eq_letStmt_of_isSome
      (hlets n (hms ▸ List.mem_filterMap.mpr ⟨_, hn, rfl⟩))
  refine ⟨ns, es, ws, s, hstream ▸ hrun, hns, hes, ?_⟩
  rw [behind, hms]
  -- either all of the second text is found or all but its first statement
  obtain ⟨hs₁, hsame⟩ | ⟨hs₁, n, ms', rfl, hsame⟩ := hfound
  · rw [if_neg (mt hstarves.mp hs₁)]
    exact same_filterMap hsame
  · rw [if_pos (hstarves.mpr hs₁)]
    exact same_filterMap hsame

/-- **Behind a text without brackets and quotes.**  The parser finds the
statements of the text, places aside, then some expressions, and then the
`let`s of a text in a new line behind it, but the first one only if the text
does not starve. -/
theorem exists_statements (ha : Unenclosed a)
    (hclean : (ofText b).diagnostics = [])
    (hlets : ∀ n ∈ statements b, (Symbol.ofStatement? n).isSome) :
    ∃ ss es ws, statements (a ++ "\n" ++ b) = ss ++ (es ++ ws) ∧
      Forall₂ Same (statements a) ss ∧ (∀ n ∈ es, ∃ t v, n = .exprStmt t v) ∧
      Forall₂ Same (behind a b) ws := by
  by_cases hnil : Token.beforeEnd (Token.stream b) = []
  · obtain ⟨hempty, hsame⟩ :=
      statements_of_nil hnil (Token.flat_of_unenclosed ha).2
    refine ⟨_, [], [], (List.append_nil _).symm, hsame, by simp, ?_⟩
    rw [behind, hempty, List.tail_nil, ite_self]
    exact .nil
  obtain ⟨ns, es, ws, s, hrun, hns, hes, hws⟩ :=
    exists_rounds_of_both ha hclean hlets hnil
  refine ⟨ns.filterMap id, es.filterMap id, ws.filterMap id, ?_, ?_, ?_, hws⟩
  · rw [statements, Parser.ofSource, (Parser.ofTokens_of_rounds hrun).1,
      List.filterMap_append, List.filterMap_append]
    rfl
  · rw [hns]
    exact List.forall₂_same.mpr fun _ _ => rfl
  · intro n hn
    obtain ⟨_, hmem, rfl⟩ := List.mem_filterMap.mp hn
    obtain ⟨t, v, hn⟩ := hes _ hmem
    exact ⟨t, v, Option.some.inj hn⟩

/-! ### Symbols -/

/-- The names of symbols are those that statements bind. -/
lemma mem_keys_symbolsOf {ns : List Node} :
    name ∈ Bindings.keys (symbolsOf ns) ↔
      ∃ b ∈ ns.map Symbol.binding?, ∃ kind, b = some (name, kind) := by
  rw [← Bindings.isSome_get?]
  constructor
  · intro h
    obtain ⟨σ, hσ⟩ := Option.isSome_iff_exists.mp h
    obtain ⟨n, hn, hbinding⟩ := binding_of_symbol hσ
    exact ⟨_, List.mem_map.mpr ⟨n, hn, rfl⟩, σ.kind, hbinding⟩
  · rintro ⟨_, hb, kind, rfl⟩
    obtain ⟨n, hn, hbinding⟩ := List.mem_map.mp hb
    exact isSome_of_binding hn hbinding

/-- The same statements bind the same names. -/
lemma mem_keys_of_same {ms ns : List Node} (h : Forall₂ Same ms ns) :
    name ∈ Bindings.keys (symbolsOf ms) ↔
      name ∈ Bindings.keys (symbolsOf ns) := by
  have hsame : ms.map Symbol.binding? = ns.map Symbol.binding? :=
    forall₂_map_eq.mp (h.imp fun _ _ => Symbol.binding?_of_bare)
  rw [mem_keys_symbolsOf, mem_keys_symbolsOf, hsame]

lemma mem_keys_append {ms ns : List Node} :
    name ∈ Bindings.keys (symbolsOf (ms ++ ns)) ↔
      name ∈ Bindings.keys (symbolsOf ms) ∨
        name ∈ Bindings.keys (symbolsOf ns) := by
  simp only [mem_keys_symbolsOf, List.map_append, List.mem_append, or_and_right,
    exists_or]

/-- Expressions bind nothing. -/
lemma notMem_keys_of_expressions {ns : List Node}
    (h : ∀ n ∈ ns, ∃ t v, n = .exprStmt t v) :
    name ∉ Bindings.keys (symbolsOf ns) := by
  rw [mem_keys_symbolsOf]
  rintro ⟨_, hb, kind, rfl⟩
  obtain ⟨n, hn, hbinding⟩ := List.mem_map.mp hb
  obtain ⟨t, v, rfl⟩ := h n hn
  cases hbinding

/-- **Recovery.**  Let the first text have no brackets and quotes, and let the
second one be `let`s without faults.  Whatever faults the first one has, the
index of both has the names of the first and those of the `let`s; but if the
first text ends where an expression has to start, the first `let` counts for
nothing. -/
theorem recovers (ha : Unenclosed a)
    (hclean : (ofText b).diagnostics = [])
    (hlets : ∀ n ∈ statements b, (Symbol.ofStatement? n).isSome)
    (name : String) :
    name ∈ Bindings.keys (ofText (a ++ "\n" ++ b)).symbols ↔
      name ∈ Bindings.keys (ofText a).symbols ∨
        name ∈ Bindings.keys (symbolsOf (behind a b)) := by
  obtain ⟨ss, es, ws, hall, hss, hes, hws⟩ := exists_statements ha hclean hlets
  have hsymbols (text : String) :
      (ofText text).symbols = symbolsOf (statements text) := rfl
  rw [hsymbols, hsymbols, hall, mem_keys_append, mem_keys_append,
    mem_keys_of_same hss, mem_keys_of_same hws,
    or_iff_right (notMem_keys_of_expressions hes)]

/-- Behind a `let` without its value the next one is lost. -/
theorem recovers_unfinished :
    Unenclosed "let a =" ∧
      (ofText "let x = 1; let y = 2;").diagnostics = [] ∧
      (∀ n ∈ statements "let x = 1; let y = 2;",
        (Symbol.ofStatement? n).isSome) ∧
      ("x" ∈ Bindings.keys
          (ofText ("let a =" ++ "\n" ++ "let x = 1; let y = 2;")).symbols ↔
        "x" ∈ Bindings.keys (ofText "let a =").symbols ∨
          "x" ∈ Bindings.keys
            (symbolsOf (behind "let a =" "let x = 1; let y = 2;"))) :=
  have ha : Unenclosed "let a =" := by decide +kernel
  have hclean : (ofText "let x = 1; let y = 2;").diagnostics = [] := by
    decide +kernel
  have hlets : ∀ n ∈ statements "let x = 1; let y = 2;",
      (Symbol.ofStatement? n).isSome := by
    decide +kernel
  ⟨ha, hclean, hlets, recovers ha hclean hlets "x"⟩

/-- Not all names of the `let`s need be found behind a text with faults. -/
theorem not_recovers : ¬ ∀ a b, Unenclosed a →
    (ofText a).diagnostics ≠ [] → (ofText b).diagnostics = [] →
    (∀ n ∈ statements b, (Symbol.ofStatement? n).isSome) →
    ∀ name ∈ Bindings.keys (ofText b).symbols,
      name ∈ Bindings.keys (ofText (a ++ "\n" ++ b)).symbols := by
  intro h
  have hx := h "let a =" "let x = 1;" (by decide +kernel) (by decide +kernel)
    (by decide +kernel) (by decide +kernel) "x" (by decide +kernel)
  revert hx
  decide +kernel

end Index

end MonkeyLang

/-
The brackets of the texts that the parser accepts.

* `Bracket.step`, `Bracket.due`: the closing brackets that some tokens leave
  due, the innermost first, if all that they close are;
* `Derives.due`: tokens that derive a phrase close what they open, but for the
  blocks that are open where they end;
* `ofSource_due`: the brackets of a text without faults are properly nested,
  and what it leaves open are blocks at its end;
* `ofSource_unbalanced`: there are texts without faults that leave some open.
-/
import MonkeyLang.Proofs.Parser.Soundness
import MonkeyLang.Proofs.Token.Scanning

namespace MonkeyLang

/-! ### Brackets -/

/-- The kind of the bracket that closes one of this kind. -/
def Token.Kind.closing? : Token.Kind → Option Token.Kind
  | lparen => some rparen
  | lbrace => some rbrace
  | lbracket => some rbracket
  | _ => none

/-- The brackets that close others. -/
def Token.Kind.isClosing : Token.Kind → Bool
  | rparen | rbrace | rbracket => true
  | _ => false

namespace Bracket

/-- The closing brackets that are due behind a token if `due` are before it.
A closing bracket has to be the one that is due first. -/
def step (due : List Token.Kind) (t : Token) : Option (List Token.Kind) :=
  match t.kind.closing? with
  | some kind => some (kind :: due)
  | none =>
    if t.kind.isClosing then
      if due.head? = some t.kind then some due.tail else none
    else some due

/-- The closing brackets that are due behind some tokens, the innermost
first, if every closing bracket among them is the one that is due. -/
def due (ts : List Token) : Option (List Token.Kind) := ts.foldlM step []

variable {ds : List Token.Kind} {t : Token}

/-- What is no bracket changes nothing. -/
lemma step_of_other (hopen : t.kind.closing? = none)
    (hclose : t.kind.isClosing = false) : step ds t = some ds := by
  simp [step, hopen, hclose]

lemma step_of_isPrefix (ht : t.kind.isPrefix = true) : step ds t = some ds := by
  refine step_of_other ?_ ?_ <;> revert ht <;> cases t.kind <;> decide

lemma step_of_isInfix (ht : t.kind.isInfix = true) : step ds t = some ds := by
  refine step_of_other ?_ ?_ <;> revert ht <;> cases t.kind <;> decide

/-- The semicolon behind a statement is no bracket. -/
lemma foldlM_closing {us : List Token} {k : ℕ} (h : Closing k us) :
    us.foldlM step ds = some ds := by
  cases h with
  | bare => rfl
  | semicolon hs => simp [step_of_other, hs, Token.Kind.closing?,
      Token.Kind.isClosing]

end Bracket

/-- Tokens that derive a phrase close whatever they open, in the right order,
but for the blocks that are open where they end. -/
theorem Derives.due {p : Phrase} {ts : List Token} {k : ℕ}
    (h : Derives p ts k) (ds : List Token.Kind) :
    ts.foldlM Bracket.step ds = some (List.replicate k .rbrace ++ ds) := by
  induction h generalizing ds with
  | prefixOp ht _ ihr => simp [Bracket.step_of_isPrefix ht, ihr]
  | infixOp ht _ _ ihl ihr =>
      simp [List.foldlM_append, Bracket.step_of_isInfix ht, ihl, ihr]
  | exprStmt _ hus ihv =>
      rw [← List.cons_append, List.foldlM_append, ihv]
      exact Bracket.foldlM_closing hus
  | letStmt ht hname hq _ hus ihv =>
      simp [List.foldlM_append, Bracket.step, Token.Kind.closing?,
        Token.Kind.isClosing, ht, hname, hq, ihv, Bracket.foldlM_closing hus]
  | returnStmt ht _ hus ihv =>
      simp [List.foldlM_append, Bracket.step, Token.Kind.closing?,
        Token.Kind.isClosing, ht, ihv, Bracket.foldlM_closing hus]
  | openBlock ho _ ihns =>
      -- the brace is due behind those of the blocks that are open in this one
      simp [Bracket.step, Token.Kind.closing?, ho, ihns, List.replicate_succ']
  | _ => simp [List.foldlM_append, Bracket.step, Token.Kind.closing?,
           Token.Kind.isClosing, *]

/-! ### Streams of source texts -/

namespace Piece

/-- No piece of a text ends it. -/
lemma ne_eof_of_mem_cut {piece : Piece} {cs : List Char}
    (h : piece ∈ cut cs) : piece ≠ operator .eof := by
  rintro rfl
  cases made_of_mem_cut h

lemma kind_ne_eof_of_mem {pieces : List Piece}
    (h : ∀ piece ∈ pieces, piece ≠ operator .eof) (p : Position) :
    ∀ t ∈ tokens p pieces, t.kind ≠ .eof := by
  induction pieces generalizing p with
  | nil => exact fun t ht => absurd ht List.not_mem_nil
  | cons piece pieces ih =>
      intro t ht
      rcases List.mem_append.mp ht with ht | ht
      · exact kind_ne_eof (Option.mem_toList.mp ht) (h piece List.mem_cons_self)
      · exact ih (fun q hq => h q (List.mem_cons_of_mem _ hq)) _ t ht

end Piece

/-- All tokens of a source but the last stand before the end token. -/
lemma Token.stream_eq (source : String) :
    Token.stream source = Token.beforeEnd (Token.stream source) ++
      [Token.endAt (Position.start.after source.toList)] := by
  have hends : ∀ t ∈ Piece.tokens .start (Piece.cut source.toList),
      decide (t.kind ≠ .eof) = true := fun t ht =>
    decide_eq_true (Piece.kind_ne_eof_of_mem
      (fun piece => Piece.ne_eof_of_mem_cut) .start t ht)
  have hbefore : Token.beforeEnd (Token.stream source) =
      Piece.tokens .start (Piece.cut source.toList) := by
    rw [Token.beforeEnd, Token.stream, List.takeWhile_append_of_pos hends]
    simp [Token.endAt]
  rw [hbefore, Token.stream]

/-- **Accepted texts are nested.**  If the parser reports nothing on a source
text, every closing bracket of the text closes the last bracket that is open
there, and the brackets that are open at the end of the text are braces: those
of the blocks that the derivation of the program leaves open. -/
theorem ofSource_due {source : String} {tracing : Bool}
    (h : (Parser.ofSource source tracing).diagnostics = []) :
    ∃ ss k, (Parser.ofSource source tracing).program = .program ss ∧
      Derives (.statements ss) (Token.beforeEnd (Token.stream source)) k ∧
      Bracket.due (Token.stream source) = some (List.replicate k .rbrace) := by
  obtain ⟨ss, k, hprogram, hderives⟩ := exists_derives h
  have hend (ds : List Token.Kind) : Bracket.step ds
      (Token.endAt (Position.start.after source.toList)) = some ds :=
    Bracket.step_of_other rfl rfl
  refine ⟨ss, k, hprogram, hderives, ?_⟩
  rw [Bracket.due, Token.stream_eq, List.foldlM_append, hderives.due]
  simp [hend]

/-- The parser reports nothing on `fn(x) { x`, whose brace it leaves open. -/
theorem ofSource_unbalanced :
    ¬ ∀ source tracing, (Parser.ofSource source tracing).diagnostics = [] →
      Bracket.due (Token.stream source) = some [] := by
  intro h
  have hdue := h "fn(x) \x7b x" false (by decide +kernel)
  exact absurd hdue (by decide +kernel)

/-- The brackets of `x[f(a)]`, all of which are closed. -/
theorem ofSource_due_indexed :
    (Parser.ofSource "x[f(a)]" false).diagnostics = [] ∧
    ∃ ss k, (Parser.ofSource "x[f(a)]" false).program = .program ss ∧
      Derives (.statements ss) (Token.beforeEnd (Token.stream "x[f(a)]")) k ∧
      Bracket.due (Token.stream "x[f(a)]") = some (List.replicate k .rbrace) :=
  have hclean : (Parser.ofSource "x[f(a)]" false).diagnostics = [] := by
    decide +kernel
  ⟨hclean, ofSource_due hclean⟩

end MonkeyLang

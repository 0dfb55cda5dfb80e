/-
Tokens of a text, when their own texts are read again.

* `Token.Drawn`: the token of a piece that was read somewhere;
  `Token.drawn_of_mem_stream`: all tokens of a source text are, but the last;
* `Drawn.text_eq`: an operator or a delimiter has the text of its kind;
* `Drawn.scan_word`: a name or a keyword is read again as what it was;
* `scan_infix`, `scan_prefix`: so is an operator before a blank, and one that
  stands before its operand.
-/
import MonkeyLang.Proofs.Token.Lines
import MonkeyLang.Proofs.Tree.Literals

namespace MonkeyLang

namespace Token

namespace Kind

/-- The kinds of names and keywords. -/
def isWord : Token.Kind → Bool
  | ident | function | letKey | trueKey | falseKey | ifKey | elseKey
  | returnKey | macroKey => true
  | _ => false

/-- Words are names or keywords. -/
lemma isWord_ofWord (word : String) : (ofWord word).isWord = true :=
  ofWord_of_keywords (P := (·.isWord = true)) rfl (by decide) word

variable {k : Token.Kind}

/-- No operator or delimiter is a word. -/
lemma isWord_of_isSymbol (h : k.isSymbol = true) : k.isWord = false := by
  revert h
  cases k <;> decide

lemma isSymbol_of_isInfix (h : k.isInfix = true) : k.isSymbol = true := by
  revert h
  cases k <;> decide

lemma isSymbol_of_isPrefix (h : k.isPrefix = true) : k.isSymbol = true := by
  revert h
  cases k <;> decide

end Kind

/-- The token of a piece that was read somewhere. -/
def Drawn (t : Token) : Prop :=
  ∃ c cs q, (Piece.first c cs).1.token? q = some t

/-- The tokens of a source text, but for the end token, are drawn from it. -/
lemma drawn_of_mem_stream {source : String} {t : Token}
    (ht : t ∈ Token.stream source) (hkind : t.kind ≠ .eof) : t.Drawn := by
  rcases List.mem_append.mp ht with ht | ht
  · obtain ⟨piece, hmem, q, hq⟩ := Piece.mem_tokens ht
    obtain ⟨c, cs, rfl⟩ := Piece.forall_mem_cut
      (P := fun piece => ∃ c cs, piece = (Piece.first c cs).1)
      (fun c cs => ⟨c, cs, rfl⟩) _ piece hmem
    exact ⟨c, cs, q, hq⟩
  · exact absurd (List.mem_singleton.mp ht ▸ rfl) hkind

end Token

namespace Token.Drawn

variable {t : Token}

/-- An operator or a delimiter has the text of its kind. -/
lemma text_eq (h : t.Drawn) (hkind : t.kind.isSymbol = true) :
    t.text = t.kind.label := by
  obtain ⟨c, cs, q, hq⟩ := h
  generalize Piece.first c cs = found at hq
  obtain ⟨piece, rest⟩ := found
  cases piece with
  | word ws =>
      cases hq
      have hword := Token.Kind.isWord_ofWord (String.ofList ws)
      rw [Token.Kind.isWord_of_isSymbol hkind] at hword
      cases hword
  | operator kind =>
      cases hq
      rfl
  | _ => cases hq <;> cases hkind

/-- So it is the token of its kind, places aside. -/
lemma bare_eq (h : t.Drawn) {k : Token.Kind} (hk : t.kind = k)
    (hsymbol : k.isSymbol = true) : t.bare = .made k k.label := by
  subst hk
  rw [Token.bare, h.text_eq hsymbol]

/-- A name or a keyword is read again as what it was. -/
lemma scan_word (h : t.Drawn) (hkind : t.kind.isWord = true) (p : Position)
    {rest : List Char} (hrest : Piece.Breaks rest) :
    Piece.scan p (t.text.toList ++ rest) =
      ⟨t.kind, t.text, p⟩ :: Piece.scan (p.after t.text.toList) rest := by
  obtain ⟨c, cs, q, hq⟩ := h
  have hfirst := Piece.first_spec c cs
  generalize (Piece.first c cs).1 = piece, (Piece.first c cs).2 = left
    at hq hfirst
  cases hfirst with
  | word hc =>
      cases hq
      rw [String.toList_ofList]
      exact Piece.scan_word c _ hc (List.all_eq_true.mp List.all_takeWhile)
        hrest
  | operator _ hoperator =>
      cases hq
      have hsymbol := Piece.operator?_isSymbol hoperator
      rw [Token.Kind.isWord_of_isSymbol hsymbol] at hkind
      cases hkind
  | _ => cases hq <;> cases hkind

end Token.Drawn

namespace Piece

/-! ### Operators -/

/-- An operator is read again before a blank. -/
lemma scan_infix {kind : Token.Kind} (h : kind.isInfix = true) (p : Position)
    (cs : List Char) :
    scan p (kind.label.toList ++ ' ' :: cs) = ⟨kind, kind.label, p⟩ ::
      scan (p.after kind.label.toList) (' ' :: cs) := by
  obtain ⟨c, ds, hlabel, hfirst⟩ : ∃ c ds, kind.label.toList = c :: ds ∧
      first c (ds ++ ' ' :: cs) = (operator kind, ' ' :: cs) := by
    cases kind <;> first | exact ⟨_, _, rfl, rfl⟩ | cases h
  rw [hlabel, List.cons_append, scan_cons hfirst, text, hlabel]
  rfl

/-- An operator before its operand is read again if no equals sign follows. -/
lemma scan_prefix {kind : Token.Kind} (h : kind.isPrefix = true) (p : Position)
    {cs : List Char} (hcs : cs.head? ≠ some '=') :
    scan p (kind.label.toList ++ cs) =
      ⟨kind, kind.label, p⟩ :: scan (p.after kind.label.toList) cs := by
  cases kind with
  | bang =>
      have hoperator : operator? '!' cs = some (.bang, cs) :=
        operator?_symbol fun es hes => absurd (hes ▸ rfl) hcs
      exact scan_cons
        (First.operator (fun h => absurd h.1 (by decide)) hoperator).eq
  | minus => exact scan_symbol rfl (by decide)
  | _ => cases h

end Piece

end MonkeyLang

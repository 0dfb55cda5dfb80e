/-
Names that are bound stand apart in their text.

* `Piece.Ends`: where the pieces of a text end; `ends_of_cut`: blanks are all
  blank, and comments and words go on as far as they can;
* `Piece.exists_of_tokens_eq`: the pieces before the one of a token have the
  tokens before it, and those behind it the tokens behind it;
* `WordChar.Apart`: no word character stands right before or right behind a text;
* `Token.Between.exists_apart`: a name between `let` and an equals sign stands
  apart in its text.
-/
import MonkeyLang.Proofs.Editor.Places
import MonkeyLang.Proofs.Parser.Naming
import MonkeyLang.Proofs.Token.Layout
import MonkeyLang.Text.Word

namespace MonkeyLang

/-! ### Word characters -/

/-- The characters of names are among those from `0` on that ASCII has. -/
lemma Piece.toNat_of_isWordPart {c : Char} (h : isWordPart c = true) :
    48 ≤ c.toNat ∧ c.toNat < 128 := by
  rcases isWordPart_iff.mp h with hstart | hdigit
  · have hletter := toNat_of_isWordStart hstart
    exact ⟨by omega, by omega⟩
  · obtain ⟨hlow, hhigh⟩ := Char.isDigit_iff_toNat.mp hdigit
    exact ⟨hlow, hhigh.trans_lt (by decide)⟩

namespace WordChar

/-- Between these two texts a third one stands apart: the first one does not end
in a word character, and the second one does not start with one. -/
def Apart (before behind : List Char) : Prop :=
  (∀ c ∈ before.getLast?, isWordChar c = false) ∧
    ∀ c ∈ behind.head?, isWordChar c = false

variable {c : Char}

/-- The characters of names are word characters. -/
lemma isWordChar_of_isWordPart (h : Piece.isWordPart c = true) :
    isWordChar c = true := by
  rw [isWordChar, if_pos (Piece.toNat_of_isWordPart h).2]
  exact h

/-- Blanks are none. -/
lemma isWordChar_of_isBlank (h : Piece.isBlank c = true) :
    isWordChar c = false := by
  simp only [Piece.isBlank, Bool.or_eq_true, decide_eq_true_eq] at h
  rcases h with (((rfl | rfl) | rfl) | h) | h
  · decide
  · decide
  · decide
  · rw [← Char.ofNat_toNat c, h]
    decide
  · rw [← Char.ofNat_toNat c, h]
    decide

end WordChar

/-- No word is read as an operator or a delimiter. -/
lemma Token.Kind.isSymbol_ofWord (word : String) :
    (Token.Kind.ofWord word).isSymbol = false :=
  ofWord_of_keywords (P := (·.isSymbol = false)) rfl (by decide) word

namespace Piece

open WordChar

variable {p : Position} {piece : Piece} {pieces before behind : List Piece}
  {t : Token} {as bs : List Token} {c : Char} {cs rest : List Char}

/-! ### Where pieces end -/

/-- Blanks are all blank, a comment goes on to the end of its line, and a word as
far as it can. -/
def Ends : Piece → List Char → Prop
  | blanks cs, _ => ∀ c ∈ cs, isBlank c = true
  | comment _, rest => ∀ d ∈ rest.head?, isInline d = false
  | word _, rest => ∀ d ∈ rest.head?, isWordPart d = false
  | _, _ => True

lemma eq_false_of_mem_head?_dropWhile {q : Char → Bool}
    (h : c ∈ (cs.dropWhile q).head?) : q c = false := by
  have hnot := List.head?_dropWhile_not q cs
  rw [Option.mem_def] at h
  simpa [h] using hnot

lemma ends_first (c : Char) (cs : List Char) :
    (first c cs).1.Ends (first c cs).2 := by
  have hfirst := first_spec c cs
  generalize (first c cs).1 = piece, (first c cs).2 = left at hfirst
  cases hfirst with
  | blanks hc =>
      exact List.forall_mem_cons.mpr
        ⟨hc, List.all_eq_true.mp List.all_takeWhile⟩
  | comment | word => exact fun d hd => eq_false_of_mem_head?_dropWhile hd
  | _ => trivial

/-- So it is with all pieces of a text. -/
lemma ends_of_cut (h : cut cs = before ++ piece :: behind) :
    piece.Ends (behind.flatMap text) := by
  obtain ⟨c, ds, rest, -, hfirst, hrest⟩ := exists_first_of_cut (cut_behind h)
  have hends := ends_first c (ds ++ rest)
  rw [hfirst] at hends
  rwa [← hrest, flatMap_text_cut]

/-! ### Pieces and tokens side by side -/

/-- The pieces before the one of a token have the tokens before it, and those
behind it the tokens behind it. -/
lemma exists_of_tokens_eq (h : tokens p pieces = as ++ t :: bs) :
    ∃ before piece behind, pieces = before ++ piece :: behind ∧
      tokens p before = as ∧
      piece.token? (p.after (before.flatMap text)) = some t ∧
      ∃ q, tokens q behind = bs := by
  induction pieces generalizing p as with
  | nil => simp [tokens] at h
  | cons piece pieces ih =>
      rw [tokens] at h
      -- a piece without a token goes to those before it
      cases htoken : piece.token? p with
      | none =>
          rw [htoken, Option.toList_none, List.nil_append] at h
          obtain ⟨before, other, behind, rfl, has, ht, hbs⟩ := ih h
          refine ⟨piece :: before, other, behind, rfl, ?_, ?_, hbs⟩
          · rw [tokens, htoken, has]
            rfl
          · rwa [List.flatMap_cons, Position.after_append]
      | some u =>
          rw [htoken, Option.toList_some, List.singleton_append] at h
          cases as with
          | nil =>
              obtain ⟨rfl, hbs⟩ := List.cons.inj h
              exact ⟨[], piece, pieces, rfl, rfl, htoken, _, hbs⟩
          | cons v as =>
              obtain ⟨rfl, hrest⟩ := List.cons.inj h
              obtain ⟨before, other, behind, rfl, has, ht, hbs⟩ := ih hrest
              refine ⟨piece :: before, other, behind, rfl, ?_, ?_, hbs⟩
              · rw [tokens, htoken, has]
                rfl
              · rwa [List.flatMap_cons, Position.after_append]

/-! ### Beside a name -/

/-- The character that an equals sign or what has no token starts with is no word
character. -/
lemma isWordChar_head? (hends : piece.Ends rest)
    (hkind : ∀ u, piece.token? p = some u → u.kind = .assign) :
    ∀ c ∈ piece.text.head?, isWordChar c = false := by
  intro c hc
  cases piece with
  | newline | comment =>
      obtain rfl := Option.some.inj hc
      decide
  | blanks cs => exact isWordChar_of_isBlank (hends c (List.mem_of_head? hc))
  | operator kind =>
      obtain rfl : kind = .assign := hkind _ rfl
      obtain rfl : '=' = c := Option.some.inj hc
      decide
  | word cs =>
      have hsymbol := Token.Kind.isSymbol_ofWord (String.ofList cs)
      rw [show Token.Kind.ofWord _ = .assign from hkind _ rfl] at hsymbol
      cases hsymbol
  | string | digits | illegal => cases hkind _ rfl

/-- Before a word, the character that what has no token ends with is none, and no
keyword stands right there. -/
lemma isWordChar_getLast? (hmade : piece.Made) (hends : piece.Ends rest)
    (hrest : ∃ d ∈ rest.head?, isWordPart d = true)
    (hkind : ∀ u, piece.token? p = some u → u.kind = .letKey) :
    ∀ c ∈ piece.text.getLast?, isWordChar c = false := by
  obtain ⟨d, hd, hword⟩ := hrest
  intro c hc
  cases piece with
  | newline =>
      obtain rfl := Option.some.inj hc
      decide
  | blanks cs => exact isWordChar_of_isBlank (hends c (List.mem_of_getLast? hc))
  | comment cs =>
      -- the comment would go on
      have hline := hends d hd
      rw [isInline, bne_eq_false_iff_eq] at hline
      rw [hline] at hword
      cases hword
  | word cs =>
      -- the word would go on
      rw [hends d hd] at hword
      cases hword
  | operator kind =>
      obtain rfl : kind = .letKey := hkind _ rfl
      cases hmade
  | string | digits | illegal => cases hkind _ rfl

lemma text_ne_nil_of_mem_cut (h : piece ∈ cut cs) : piece.text ≠ [] :=
  forall_mem_cut (P := fun piece => piece.text ≠ []) text_first_ne_nil cs piece h

/-- Pieces whose first token is an equals sign start with no word character. -/
lemma isWordChar_of_assign (h : cut cs = before ++ behind)
    (htokens : tokens p behind = t :: bs) (ht : t.kind = .assign) :
    ∀ c ∈ (behind.flatMap text).head?, isWordChar c = false := by
  cases behind with
  | nil => cases htokens
  | cons piece behind =>
      have hkind : ∀ u, piece.token? p = some u → u.kind = .assign := by
        intro u hu
        rw [tokens, hu] at htokens
        obtain ⟨rfl, -⟩ := List.cons.inj htokens
        exact ht
      have hmem : piece ∈ cut cs := by simp [h]
      have hne := text_ne_nil_of_mem_cut hmem
      rw [List.flatMap_cons, List.head?_append_of_ne_nil _ hne]
      exact isWordChar_head? (ends_of_cut h) hkind

/-- Pieces before a word the last token of which is `let` end in no word
character. -/
lemma isWordChar_of_letKey (h : cut cs = before ++ piece :: behind)
    (hword : ∃ d ∈ piece.text.head?, isWordPart d = true)
    (htokens : tokens p before = as ++ [t]) (ht : t.kind = .letKey) :
    ∀ c ∈ (before.flatMap text).getLast?, isWordChar c = false := by
  rcases List.eq_nil_or_concat before with rfl | ⟨more, last, rfl⟩
  · simp
  rw [List.concat_eq_append] at h htokens ⊢
  have hmem : last ∈ cut cs := by simp [h]
  -- the last piece may be a blank or the word itself; if it has a token, this
  -- is the `let`
  have hkind : ∀ u, last.token? (p.after (more.flatMap text)) = some u →
      u.kind = .letKey := by
    intro u hu
    rw [tokens_append, tokens, hu] at htokens
    have hlast := congrArg List.getLast? htokens
    obtain rfl : u = t := by simpa [tokens] using hlast
    exact ht
  have hends : last.Ends ((piece :: behind).flatMap text) := by
    rw [List.append_assoc] at h
    exact ends_of_cut h
  have hhead : ((piece :: behind).flatMap text).head? = piece.text.head? := by
    have hne : piece.text ≠ [] := text_ne_nil_of_mem_cut (by rw [h]; simp)
    rw [List.flatMap_cons, List.head?_append_of_ne_nil _ hne]
  rw [List.flatMap_append, List.flatMap_singleton,
    List.getLast?_append_of_ne_nil _ (text_ne_nil_of_mem_cut hmem)]
  exact isWordChar_getLast? (made_of_mem_cut hmem) hends (hhead ▸ hword) hkind

end Piece

/-! ### Names between `let` and an equals sign -/

namespace Token

open Piece WordChar

variable {text : String} {t : Token}

/-- **Names stand apart.**  In a text a name between `let` and an equals sign
stands behind what leads to its position, and no word character stands right
before or right behind it. -/
theorem Between.exists_apart (h : t.Between (beforeEnd (stream text))) :
    ∃ before behind, text.toList = before ++ (t.text.toList ++ behind) ∧
      t.position = Position.start.after before ∧ t.text.toList ≠ [] ∧
      (∀ c ∈ t.text.toList, isWordPart c = true) ∧ Apart before behind := by
  obtain ⟨hkind, l, q, hl, hq, xs, ys, hstream⟩ := h
  rw [beforeEnd_stream] at hstream
  have hsplit : tokens .start (cut text.toList) = (xs ++ [l]) ++ t :: (q :: ys) := by
    rw [← hstream]
    simp
  -- the tokens around the name are those of the pieces around its own
  obtain ⟨before, piece, behind, hcut, hbefore, htoken, p, hbehind⟩ :=
    exists_of_tokens_eq hsplit
  have hmem : piece ∈ cut text.toList := by simp [hcut]
  obtain ⟨htext, hne, hword⟩ :=
    word_of_token? (made_of_mem_cut hmem) htoken hkind
  refine ⟨before.flatMap Piece.text, behind.flatMap Piece.text, ?_,
    position_of_token? htoken, htext ▸ hne, htext ▸ hword, ?_, ?_⟩
  · rw [← flatMap_text_cut text.toList, hcut, htext, List.flatMap_append,
      List.flatMap_cons]
  · obtain ⟨c, cs, hpiece⟩ := List.exists_cons_of_ne_nil hne
    refine isWordChar_of_letKey hcut ⟨c, ?_, ?_⟩ hbefore hl
    · rw [hpiece]
      rfl
    · exact hword c (hpiece ▸ List.mem_cons_self)
  · rw [List.append_cons] at hcut
    exact isWordChar_of_assign hcut hbehind hq

end Token

end MonkeyLang

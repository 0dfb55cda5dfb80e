/-
Strings as they are written between quotes.

* `Piece.Escaped`: the bodies that write a string: backslashes and quotes stand
  behind a backslash, and so may letters for line feeds, tabs and carriage
  returns; `exists_escaped`: every string has such a body;
* `Escaped.stringBody`, `Escaped.unescape`: such a body is read to the quote
  that closes it, and denotes the string;
* `Token.stream_quoted`: between quotes it is read as the string, and what
  stands behind it as if it stood alone.
-/
import MonkeyLang.Proofs.Token.Lines

namespace MonkeyLang

namespace Piece

/-! ### Bodies of literals -/

/-- The second text is the body of a literal for the first one: a backslash is
written as two, and a quote with a backslash before it; a line feed, a tab and
a carriage return may be written as a letter with a backslash before it, and
every other character is written as itself. -/
inductive Escaped : List Char → List Char → Prop where
  | nil : Escaped [] []
  | backslash {s body : List Char} (h : Escaped s body) :
      Escaped ('\\' :: s) ('\\' :: '\\' :: body)
  | quote {s body : List Char} (h : Escaped s body) :
      Escaped ('"' :: s) ('\\' :: '"' :: body)
  | lineFeed {s body : List Char} (h : Escaped s body) :
      Escaped ('\n' :: s) ('\\' :: 'n' :: body)
  | tab {s body : List Char} (h : Escaped s body) :
      Escaped ('\t' :: s) ('\\' :: 't' :: body)
  | carriageReturn {s body : List Char} (h : Escaped s body) :
      Escaped ('\r' :: s) ('\\' :: 'r' :: body)
  | plain {c : Char} {s body : List Char} (hbackslash : c ≠ '\\')
      (hquote : c ≠ '"') (h : Escaped s body) : Escaped (c :: s) (c :: body)

/-- Every string has a body. -/
lemma exists_escaped (s : List Char) : ∃ body, Escaped s body := by
  induction s with
  | nil => exact ⟨[], .nil⟩
  | cons c s ih =>
      obtain ⟨body, hbody⟩ := ih
      by_cases hbackslash : c = '\\'
      · subst hbackslash
        exact ⟨_, hbody.backslash⟩
      by_cases hquote : c = '"'
      · subst hquote
        exact ⟨_, hbody.quote⟩
      exact ⟨_, hbody.plain hbackslash hquote⟩

namespace Escaped

variable {s body : List Char}

/-- A body is read up to the quote that closes it. -/
lemma stringBody (h : Escaped s body) (rest : List Char) :
    Piece.stringBody (body ++ '"' :: rest) = some (body, true, rest) := by
  induction h with
  | nil => rfl
  | plain hbackslash hquote _ ih =>
      rw [List.cons_append, stringBody_cons hbackslash hquote, ih]
      rfl
  | backslash _ ih | quote _ ih | lineFeed _ ih | tab _ ih
  | carriageReturn _ ih =>
      rw [List.cons_append, List.cons_append, Piece.stringBody, ih]
      rfl

/-- A body denotes its string. -/
lemma unescape (h : Escaped s body) : Piece.unescape body = s := by
  induction h with
  | nil => rfl
  | plain hbackslash _ _ ih =>
      rw [Piece.unescape, ih]
      rintro _ _ rfl
      exact absurd rfl hbackslash
  | backslash _ ih | quote _ ih | lineFeed _ ih | tab _ ih
  | carriageReturn _ ih =>
      rw [Piece.unescape, ih]
      rfl

/-- Between quotes a body is one token, whatever follows. -/
lemma scan (h : Escaped s body) (p : Position) (rest : List Char) :
    Piece.scan p ('"' :: (body ++ '"' :: rest)) =
      ⟨.string, String.ofList s, p⟩ ::
        Piece.scan (p.after ('"' :: (body ++ ['"']))) rest := by
  rw [scan_cons (First.string (h.stringBody rest)).eq, token?, h.unescape]
  rfl

end Escaped

end Piece

/-! ### Literals in a text -/

/-- **Every string can be written.**  Every string has a body of a literal.
However it is written as one, between quotes it is read as a token for that
very string, and behind it the tokens are those of the text that follows, in
other places. -/
theorem Token.stream_quoted (s : String) :
    (∃ body : String, Piece.Escaped s.toList body.toList) ∧
    ∀ body rest : String, Piece.Escaped s.toList body.toList →
      (Token.stream ("\"" ++ body ++ "\"" ++ rest)).map Token.bare =
        .made .string s :: (Token.stream rest).map Token.bare := by
  constructor
  · obtain ⟨body, hbody⟩ := Piece.exists_escaped s.toList
    exact ⟨String.ofList body, by rwa [String.toList_ofList]⟩
  · intro body rest h
    have htext : ("\"" ++ body ++ "\"" ++ rest).toList =
        '"' :: (body.toList ++ '"' :: rest.toList) := by simp
    have hscan := h.scan .start rest.toList
    rw [String.ofList_toList] at hscan
    rw [Token.stream, htext, List.map_append]
    change (Piece.scan .start _).map Token.bare ++ [.made .eof ""] = _
    rw [hscan, Token.stream, List.map_append, List.map_cons, List.cons_append]
    exact congrArg (_ :: · ++ [.made .eof ""])
      (Piece.tokens_bare (Piece.cut rest.toList) _ _)

/-- A string of a letter, a backslash, a line feed and a quote, before a
name. -/
theorem Token.stream_quoted_escapes :
    Piece.Escaped "a\\\n\"".toList "a\\\\\\n\\\"".toList ∧
    (Token.stream ("\"" ++ "a\\\\\\n\\\"" ++ "\"" ++ "x")).map Token.bare =
      .made .string "a\\\n\"" :: (Token.stream "x").map Token.bare := by
  have h : Piece.Escaped "a\\\n\"".toList "a\\\\\\n\\\"".toList :=
    .plain (by decide) (by decide) (.backslash (.lineFeed (.quote .nil)))
  exact ⟨h, (Token.stream_quoted _).2 _ _ h⟩

end MonkeyLang

/-
The token grammar, as patterns that are tried in order.

* `Pattern`: characters of a class, the end of the text, patterns in a row, one
  pattern or another, and a pattern as often as it goes;
* `Pattern.rests`: what a pattern may leave of a text, in the order in which
  the ways to match it are tried;
* `rests_many_of_one`, `head?_many`: a pattern that matches in one way only is
  repeated as often as it goes;
* `Piece.Form`: the forms of pieces in the order in which they are tried, each
  with its pattern; `Form.lead?` is the first one that matches;
* `Piece.lead?_cons`: the first piece of a text has that form and leaves what
  its pattern leaves.
-/
import MonkeyLang.Token.Piece
import Mathlib.Data.List.Basic
import Mathlib.Tactic.Common

namespace MonkeyLang

/-! ### Patterns -/

/-- Patterns of texts: a character of a class, the end of the text, two
patterns in a row, the one or else the other, and a pattern as often as it
goes. -/
inductive Pattern where
  | one (q : Char → Bool)
  | ending
  | row (a b : Pattern)
  | either (a b : Pattern)
  | many (a : Pattern)

namespace Pattern

/-- What is left of a text behind at most `n` rounds that each leave what `f`
says, those with more rounds first.  A round that takes nothing is none. -/
def rounds (f : List Char → List (List Char)) :
    ℕ → List Char → List (List Char)
  | 0, cs => [cs]
  | n + 1, cs =>
    ((f cs).filter fun ds => ds.length < cs.length).flatMap (rounds f n) ++
      [cs]

/-- What a pattern may leave of a text, in the order in which the ways to
match it are tried. -/
def rests : Pattern → List Char → List (List Char)
  | one _, [] => []
  | one q, c :: cs => if q c then [cs] else []
  | ending, cs => if cs.isEmpty then [[]] else []
  | row a b, cs => (rests a cs).flatMap (rests b)
  | either a b, cs => rests a cs ++ rests b cs
  | many a, cs => rounds (rests a) cs.length cs

variable {f : List Char → List (List Char)} {a b : Pattern}
  {cs ds : List Char}

@[simp]
lemma rests_one_nil (q : Char → Bool) : (one q).rests [] = [] := rfl

@[simp]
lemma rests_one_cons (q : Char → Bool) (c : Char) (cs : List Char) :
    (one q).rests (c :: cs) = if q c then [cs] else [] := rfl

@[simp]
lemma rests_ending_nil : ending.rests [] = [[]] := rfl

@[simp]
lemma rests_ending_cons (c : Char) (cs : List Char) :
    ending.rests (c :: cs) = [] := rfl

@[simp]
lemma rests_row (a b : Pattern) (cs : List Char) :
    (row a b).rests cs = (a.rests cs).flatMap b.rests := rfl

@[simp]
lemma rests_either (a b : Pattern) (cs : List Char) :
    (either a b).rests cs = a.rests cs ++ b.rests cs := rfl

/-- Each round takes a character, so more rounds than characters change
nothing. -/
lemma rounds_eq {n : ℕ} (hn : cs.length ≤ n) :
    rounds f n cs = rounds f cs.length cs := by
  induction n using Nat.strongRecOn generalizing cs with
  | ind n ih =>
    cases cs with
    | nil => cases n <;> simp [rounds]
    | cons c cs =>
        obtain ⟨n, rfl⟩ : ∃ m, n = m + 1 :=
          ⟨n - 1, by rw [List.length_cons] at hn; omega⟩
        rw [List.length_cons] at hn
        rw [List.length_cons, rounds, rounds]
        refine congrArg (· ++ [c :: cs]) (List.flatMap_congr fun ds hds => ?_)
        have hlt : ds.length < cs.length + 1 := by
          simpa using (List.mem_filter.mp hds).2
        rw [ih n (by omega) (by omega)]
        rw [ih cs.length (by omega) (by omega)]

/-- A pattern that matches here in one way only is repeated behind it. -/
lemma rests_many_of_one (h : a.rests cs = [ds]) (hlt : ds.length < cs.length) :
    (many a).rests cs = (many a).rests ds ++ [cs] := by
  obtain ⟨n, hn⟩ : ∃ n, cs.length = n + 1 := ⟨cs.length - 1, by omega⟩
  rw [rests, hn, rounds, h, List.filter_cons_of_pos (by simpa using hlt),
    List.filter_nil, List.flatMap_singleton, rests, rounds_eq (by omega)]

/-- One that does not match here is not repeated. -/
lemma rests_many_of_none (h : a.rests cs = []) : (many a).rests cs = [cs] := by
  rw [rests]
  cases cs.length with
  | zero => rfl
  | succ n => rw [rounds, h]; rfl

/-- As many characters of a class as there are. -/
lemma head?_many (q : Char → Bool) (cs : List Char) :
    ((many (one q)).rests cs).head? = some (cs.dropWhile q) := by
  induction cs with
  | nil => rfl
  | cons c cs ih =>
      cases hc : q c with
      | true =>
          have hone : (one q).rests (c :: cs) = [cs] := by simp [rests, hc]
          rw [rests_many_of_one hone (by simp), List.head?_append, ih,
            List.dropWhile_cons_of_pos hc]
          rfl
      | false =>
          have hnone : (one q).rests (c :: cs) = [] := by simp [rests, hc]
          rw [rests_many_of_none hnone, List.dropWhile_cons_of_neg (by simp [hc])]
          rfl

/-- At least one character of a class, and then as many as there are of
another one. -/
lemma head?_run (p q : Char → Bool) (c : Char) (cs : List Char) :
    ((row (one p) (many (one q))).rests (c :: cs)).head? =
      if p c then some (cs.dropWhile q) else none := by
  cases hc : p c <;> simp [hc, head?_many]

end Pattern

/-! ### Forms of pieces -/

namespace Piece

/-- The forms of pieces, in the order in which they are tried. -/
inductive Form where
  | newline | blanks | comment | string | digits | word | operator | illegal
deriving DecidableEq, Repr

/-- The form of a piece. -/
def form : Piece → Form
  | newline => .newline
  | blanks _ => .blanks
  | comment _ => .comment
  | string .. => .string
  | digits _ => .digits
  | word _ => .word
  | operator _ => .operator
  | illegal _ => .illegal

namespace Form

open Pattern

/-- All forms, in the order in which they are tried. -/
def all : List Form :=
  [newline, blanks, comment, string, digits, word, operator, illegal]

/-- The character itself. -/
def exactly (c : Char) : Pattern := .one (· == c)

/-- What the body of a string literal is made of: a backslash with the
character behind it, or a character that is neither quote nor backslash. -/
def item : Pattern :=
  .either (.row (exactly '\\') (.one fun _ => true))
    (.one fun c => c != '"' && c != '\\')

/-- The operators and delimiters of one character. -/
def symbols : List Char :=
  ['=', '+', '-', '!', '*', '/', '<', '>', ',', ';', ':', '(', ')', '\x7b',
   '\x7d', '[', ']']

/-- The pattern of a form. -/
def pattern : Form → Pattern
  | newline => exactly '\n'
  | blanks => .row (.one isBlank) (.many (.one isBlank))
  | comment =>
    .row (exactly '/') (.row (exactly '/') (.many (.one isInline)))
  | string =>
    .row (exactly '"') (.row (.many item) (.either (exactly '"') .ending))
  | digits => .row (.one Digit.isDigit) (.many (.one Digit.isDigit))
  | word => .row (.one isWordStart) (.many (.one isWordPart))
  | operator =>
    .either (.row (exactly '=') (exactly '=')) <|
      .either (.row (exactly '!') (exactly '=')) (.one symbols.contains)
  | illegal => .one fun _ => true

/-- What a form leaves of a text if it matches at its start. -/
def rest? (f : Form) (cs : List Char) : Option (List Char) :=
  (f.pattern.rests cs).head?

/-- The first form that matches at the start of a text, and what it leaves. -/
def lead? (cs : List Char) : Option (Form × List Char) :=
  all.findSome? fun f => (f.rest? cs).map (f, ·)

/-! ### What each form leaves -/

variable (c : Char) (cs : List Char)

lemma rest?_newline :
    rest? newline (c :: cs) = if c = '\n' then some cs else none := by
  by_cases hc : c = '\n' <;> simp [rest?, pattern, exactly, hc]

lemma rest?_comment :
    rest? comment (c :: cs) =
      if c = '/' ∧ cs.head? = some '/' then
        some (cs.tail.dropWhile isInline) else none := by
  by_cases hc : c = '/'
  · cases cs with
    | nil => simp [rest?, pattern, exactly]
    | cons d ds =>
        by_cases hd : d = '/'
        · simpa [rest?, pattern, exactly, hc, hd] using head?_many isInline ds
        · simp [rest?, pattern, exactly, hc, hd]
  · simp [rest?, pattern, exactly, hc]

/-- The end of a string literal: a quote, or the end of the text. -/
def closing : Pattern := .either (exactly '"') .ending

/-- Where an item stands a string literal goes on behind it. -/
lemma rests_body_item {ds : List Char} (hc : c ≠ '"')
    (hitem : item.rests (c :: cs) = [ds]) (hlt : ds.length < (c :: cs).length) :
    (row (many item) closing).rests (c :: cs) =
      (row (many item) closing).rests ds := by
  have hopen : closing.rests (c :: cs) = [] := by
    simp [closing, exactly, hc]
  rw [rests_row, rests_many_of_one hitem hlt, List.flatMap_append,
    List.flatMap_singleton, hopen, List.append_nil]
  rfl

/-- Where none stands it has to end. -/
lemma rests_body_closing (hitem : item.rests cs = []) :
    (row (many item) closing).rests cs = closing.rests cs := by
  rw [rests_row, rests_many_of_none hitem, List.flatMap_singleton]

/-- The body of a string literal and its end are read in one way at most. -/
lemma rests_body :
    (row (many item) closing).rests cs =
      ((stringBody cs).map fun r => r.2.2).toList := by
  fun_induction stringBody cs with
  | case1 => rfl
  | case2 cs =>
      rw [rests_body_closing _ (by simp [item, exactly])]
      simp [closing, exactly]
  | case3 => rfl
  | case4 d cs ih =>
      have hitem : item.rests ('\\' :: d :: cs) = [cs] := by
        simp [item, exactly]
      have hlt : cs.length < ('\\' :: d :: cs).length := by
        simp only [List.length_cons]
        omega
      rw [rests_body_item _ _ (by decide) hitem hlt, ih, Option.map_map]
      rfl
  | case5 d cs hquote hlast hescape ih =>
      have hslash : d ≠ '\\' := by
        rintro rfl
        cases cs with
        | nil => exact hlast rfl rfl
        | cons e es => exact hescape e es rfl rfl
      have hitem : item.rests (d :: cs) = [cs] := by
        have hne : d ≠ '"' := hquote
        simp [item, exactly, hslash, hne]
      rw [rests_body_item _ _ hquote hitem (by simp), ih, Option.map_map]
      rfl

lemma rest?_string :
    rest? string (c :: cs) =
      if c = '"' then (stringBody cs).map fun r => r.2.2 else none := by
  by_cases hc : c = '"'
  · have hquote : (exactly '"').rests (c :: cs) = [cs] := by
      simp [exactly, hc]
    have hbody := rests_body cs
    rw [if_pos hc, rest?, pattern, rests_row, hquote, List.flatMap_singleton,
      ← closing, hbody, Option.head?_toList]
  · simp [rest?, pattern, exactly, hc]

/-- The symbols are the operators and delimiters of one character. -/
lemma isSome_ofSymbol? :
    (Token.Kind.ofSymbol? c).isSome = symbols.contains c := by
  unfold Token.Kind.ofSymbol?
  split <;> simp_all [symbols]

lemma rest?_operator :
    rest? operator (c :: cs) = (operator? c cs).map fun r => r.2 := by
  have hsymbol : (one symbols.contains).rests (c :: cs) =
      ((Token.Kind.ofSymbol? c).map fun _ => cs).toList := by
    rw [rests_one_cons, ← isSome_ofSymbol?]
    cases Token.Kind.ofSymbol? c <;> rfl
  unfold operator?
  split
  · simp [rest?, pattern, exactly]
  · simp [rest?, pattern, exactly]
  · next heq hne =>
    have hdouble : ∀ d : Char, (d = '=' ∨ d = '!') →
        (row (exactly d) (exactly '=')).rests (c :: cs) = [] := by
      intro d hd
      by_cases hc : c = d
      · cases cs with
        | nil => simp [exactly, hc]
        | cons e es =>
            have he : e ≠ '=' := by
              rintro rfl
              rcases hd with rfl | rfl
              · exact heq es hc rfl
              · exact hne es hc rfl
            simp [exactly, hc, he]
      · simp [exactly, hc]
    rw [rest?, pattern, rests_either, rests_either, hdouble '=' (Or.inl rfl),
      hdouble '!' (Or.inr rfl), hsymbol, List.nil_append, List.nil_append,
      Option.head?_toList, Option.map_map]
    rfl

end Form

open Form

/-- **The first alternative.**  The first piece of a text has the first form
that matches there, and it leaves what the pattern of that form leaves. -/
theorem lead?_cons (c : Char) (cs : List Char) :
    lead? (c :: cs) = some ((first c cs).1.form, (first c cs).2) := by
  have hrun (p q : Char → Bool) := Pattern.head?_run p q c cs
  have hblanks : rest? .blanks (c :: cs) = _ := hrun isBlank isBlank
  have hdigits : rest? .digits (c :: cs) = _ :=
    hrun Digit.isDigit Digit.isDigit
  have hword : rest? .word (c :: cs) = _ := hrun isWordStart isWordPart
  have hillegal : rest? .illegal (c :: cs) = some cs := rfl
  simp only [lead?, all, List.findSome?_cons, List.findSome?_nil, hblanks,
    hdigits, hword, hillegal, rest?_newline, rest?_comment, rest?_string,
    rest?_operator]
  -- pattern by pattern in their order: where one matches, so does the test of
  -- the reader, and where it does not, the next one is tried
  unfold first
  by_cases hline : c = '\n'
  · simp only [if_pos hline, Option.map_some]
    rfl
  simp only [if_neg hline, Option.map_none]
  by_cases hblank : isBlank c = true
  · simp only [if_pos hblank, Option.map_some]
    rfl
  simp only [if_neg hblank, Option.map_none]
  by_cases hslash : c = '/' ∧ cs.head? = some '/'
  · simp only [if_pos hslash, Option.map_some]
    rfl
  simp only [if_neg hslash, Option.map_none]
  by_cases hquote : c = '"'
  · simp only [if_pos hquote]
    rcases stringBody cs with _ | ⟨body, closed, rest⟩
    · -- no other form starts with a quote
      have hdigit : Digit.isDigit '"' = false := by decide
      have hstart : isWordStart '"' = false := by decide
      have hoperator : operator? '"' cs = none := rfl
      simp only [hquote, hdigit, hstart, hoperator, Bool.false_eq_true,
        if_false, Option.map_none, Option.map_some]
      rfl
    · rfl
  simp only [if_neg hquote, Option.map_none]
  by_cases hdigit : Digit.isDigit c = true
  · simp only [if_pos hdigit, Option.map_some]
    rfl
  simp only [if_neg hdigit, Option.map_none]
  by_cases hstart : isWordStart c = true
  · simp only [if_pos hstart, Option.map_some]
    rfl
  simp only [if_neg hstart, Option.map_none]
  rcases operator? c cs with _ | ⟨kind, rest⟩ <;> rfl

end Piece

end MonkeyLang

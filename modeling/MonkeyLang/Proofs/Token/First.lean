/-
Which piece a text starts with.

* `Piece.First c cs piece rest`: the rules of the first piece, one for each kind
  of piece, each of which asks for no more than what tells its kind;
* `first_eq_iff`: `first` goes by them;
* `operator?_symbol`: only before an equals sign an operator may be longer than
  one character.
-/
import MonkeyLang.Proofs.Text.Digits
import MonkeyLang.Token.Piece

namespace MonkeyLang

namespace Piece

variable {c : Char} {cs rest : List Char} {piece : Piece}

/-! ### Classes of characters -/

/-- What starts a word is an ASCII letter, or the underscore among them. -/
lemma toNat_of_isWordStart (h : isWordStart c = true) :
    65 ≤ c.toNat ∧ c.toNat ≤ 122 := by
  change (decide (65 ≤ c.val ∧ c.val ≤ 90) ||
    decide (97 ≤ c.val) && decide (c.val ≤ 122) || decide (c = '_')) = true at h
  simp only [Bool.or_eq_true, Bool.and_eq_true, decide_eq_true_eq,
    UInt32.le_iff_toNat_le] at h
  rcases h with (h | h) | rfl
  · exact ⟨h.1, Nat.le_trans h.2 (by decide)⟩
  · exact ⟨Nat.le_trans (by decide) h.1, h.2⟩
  · decide

/-- A word goes on with what starts one and with ASCII digits. -/
lemma isWordPart_iff :
    isWordPart c = true ↔ isWordStart c = true ∨ c.isDigit = true := by
  change (c.isAlpha || c.isDigit || decide (c = '_')) = true ↔
    (c.isAlpha || decide (c = '_')) = true ∨ c.isDigit = true
  simp only [Bool.or_eq_true]
  exact or_right_comm

lemma isDigit_eq_false_of_isWordStart (h : isWordStart c = true) :
    Digit.isDigit c = false := by
  rw [Bool.eq_false_iff]
  intro hdigit
  have hword := toNat_of_isWordStart h
  rcases Digit.toNat_of_isDigit hdigit with hdigit | hdigit <;> omega

/-- What starts no number and no word by its place before the digits. -/
lemma ne_of_le_toNat (h : 48 ≤ c.toNat) :
    c ≠ '\n' ∧ ¬ isBlank c = true ∧ c ≠ '/' ∧ c ≠ '"' := by
  have hother : ∀ d : Char, d.toNat < 48 → c ≠ d := by
    rintro d hd rfl
    omega
  refine ⟨hother _ (by decide), ?_, hother _ (by decide), hother _ (by decide)⟩
  simp only [isBlank, hother ' ' (by decide), hother '\t' (by decide),
    hother '\r' (by decide), decide_false, Bool.false_or, Bool.or_eq_true,
    decide_eq_true_eq]
  omega

/-- Only before an equals sign an operator may be longer. -/
lemma operator?_symbol (h : ∀ es, cs = '=' :: es → c ≠ '=' ∧ c ≠ '!') :
    operator? c cs = (Token.Kind.ofSymbol? c).map (·, cs) := by
  unfold operator?
  split
  · exact absurd rfl (h _ rfl).1
  · exact absurd rfl (h _ rfl).2
  · rfl

/-- An operator starts with a symbol, whatever stands behind it. -/
lemma operator?_eq_none :
    operator? c cs = none ↔ Token.Kind.ofSymbol? c = none := by
  unfold operator?
  split
  · exact iff_of_false nofun nofun
  · exact iff_of_false nofun nofun
  · exact Option.map_eq_none_iff

/-- No symbol starts a piece of another kind, but for two slashes. -/
lemma ne_of_ofSymbol? {kind : Token.Kind}
    (h : Token.Kind.ofSymbol? c = some kind) :
    c ≠ '\n' ∧ ¬ isBlank c = true ∧ c ≠ '"' ∧ ¬ Digit.isDigit c = true ∧
      ¬ isWordStart c = true := by
  unfold Token.Kind.ofSymbol? at h
  split at h <;> cases h <;> decide

/-! ### The rules -/

/-- What the first piece of a text of `c` and then `cs` is, and what is left
behind it. -/
inductive First : Char → List Char → Piece → List Char → Prop where
  | newline (cs : List Char) : First '\n' cs newline cs
  | blanks {c : Char} (hc : isBlank c = true) (cs : List Char) :
      First c cs (blanks (c :: cs.takeWhile isBlank)) (cs.dropWhile isBlank)
  | comment (cs : List Char) :
      First '/' ('/' :: cs) (comment (cs.takeWhile isInline))
        (cs.dropWhile isInline)
  | string {cs body rest : List Char} {closed : Bool}
      (h : stringBody cs = some (body, closed, rest)) :
      First '"' cs (string body closed) rest
  | quote {cs : List Char} (h : stringBody cs = none) :
      First '"' cs (illegal '"') cs
  | digits {c : Char} (hc : Digit.isDigit c = true) (cs : List Char) :
      First c cs (digits (c :: cs.takeWhile Digit.isDigit))
        (cs.dropWhile Digit.isDigit)
  | word {c : Char} (hc : isWordStart c = true) (cs : List Char) :
      First c cs (word (c :: cs.takeWhile isWordPart))
        (cs.dropWhile isWordPart)
  | operator {c : Char} {cs rest : List Char} {kind : Token.Kind}
      (hslash : ¬ (c = '/' ∧ cs.head? = some '/'))
      (h : operator? c cs = some (kind, rest)) :
      First c cs (operator kind) rest
  | illegal {c : Char} {cs : List Char} (hline : c ≠ '\n')
      (hblank : ¬ isBlank c = true) (hquote : c ≠ '"')
      (hdigit : ¬ Digit.isDigit c = true) (hword : ¬ isWordStart c = true)
      (h : operator? c cs = none) : First c cs (illegal c) cs

/-- What is read by one of the rules is the first piece: no other rule comes
before it. -/
lemma First.eq (h : First c cs piece rest) : first c cs = (piece, rest) := by
  -- the tests of the earlier rules fail at the first character of the later
  -- ones
  cases h with
  | newline => rfl
  | blanks hc =>
      have hline : c ≠ '\n' := by
        rintro rfl
        cases hc
      rw [first, if_neg hline, if_pos hc]
  | comment => rfl
  | string h =>
      unfold first
      rw [h]
      rfl
  | quote h =>
      unfold first
      rw [h]
      rfl
  | digits hc =>
      have hcode : 48 ≤ c.toNat := by
        rcases Digit.toNat_of_isDigit hc with hcode | hcode <;> omega
      obtain ⟨hline, hblank, hslash, hquote⟩ := ne_of_le_toNat hcode
      rw [first, if_neg hline, if_neg hblank, if_neg fun h => hslash h.1,
        if_neg hquote, if_pos hc]
  | word hc =>
      have hcode := (toNat_of_isWordStart hc).1
      obtain ⟨hline, hblank, hslash, hquote⟩ :=
        ne_of_le_toNat (Nat.le_trans (by decide) hcode)
      rw [first, if_neg hline, if_neg hblank, if_neg fun h => hslash h.1,
        if_neg hquote, if_neg (by rw [isDigit_eq_false_of_isWordStart hc]; nofun),
        if_pos hc]
  | operator hslash h =>
      obtain ⟨symbol, hsymbol⟩ : ∃ k, Token.Kind.ofSymbol? c = some k := by
        rw [← Option.ne_none_iff_exists', ← operator?_eq_none.ne, h]
        nofun
      obtain ⟨hline, hblank, hquote, hdigit, hword⟩ := ne_of_ofSymbol? hsymbol
      rw [first, if_neg hline, if_neg hblank, if_neg hslash, if_neg hquote,
        if_neg hdigit, if_neg hword, h]
  | illegal hline hblank hquote hdigit hword h =>
      have hslash : c ≠ '/' := by
        rintro rfl
        cases h
      rw [first, if_neg hline, if_neg hblank, if_neg fun h => hslash h.1,
        if_neg hquote, if_neg hdigit, if_neg hword, h]

/-- The first piece is read by one of the rules. -/
lemma first_spec (c : Char) (cs : List Char) :
    First c cs (first c cs).1 (first c cs).2 := by
  unfold first
  split_ifs with hline hblank hslash hquote hdigit hword
  · subst hline
    exact .newline cs
  · exact .blanks hblank cs
  · obtain ⟨rfl, hhead⟩ := hslash
    obtain _ | ⟨d, cs⟩ := cs
    · cases hhead
    · obtain rfl := Option.some.inj hhead
      exact .comment cs
  · subst hquote
    split
    · next h => exact .string h
    · next h => exact .quote h
  · exact .digits hdigit cs
  · exact .word hword cs
  · split
    · next h => exact .operator hslash h
    · next h => exact .illegal hline hblank hquote hdigit hword h

/-- **The first piece** of a text is the one that the rules say. -/
theorem first_eq_iff : first c cs = (piece, rest) ↔ First c cs piece rest := by
  refine ⟨fun h => ?_, First.eq⟩
  have hfirst := first_spec c cs
  rwa [h] at hfirst

end Piece

end MonkeyLang

/-
How texts are read from left to right.

* `Piece.Made`: what a piece that is read is made of; `made_of_mem_cut`: so it
  is for all pieces of a text;
* `Piece.exists_of_mem_tokens`: each token is that of a piece;
* `Piece.scan`: the tokens of a text that stands at a position;
* `Piece.Breaks`: texts that go on with no word and with no number;
* `scan_symbol`, `scan_blank`, `scan_digits`, `scan_boolean`: what stands at
  the start of a text, and the text behind it.
-/
import MonkeyLang.Proofs.Token.First
import MonkeyLang.Token.Stream

namespace MonkeyLang

lemma Position.after_cons (p : Position) (c : Char) (cs : List Char) :
    p.after (c :: cs) = (p.next c).after cs := rfl

/-- The kinds of operators and delimiters. -/
def Token.Kind.isSymbol : Token.Kind → Bool
  | illegal | eof | ident | int | string => false
  | function | letKey | trueKey | falseKey | ifKey | elseKey | returnKey
  | macroKey => false
  | _ => true

namespace Piece

variable {p : Position} {c : Char} {cs ds rest : List Char}

/-! ### Pieces that are read -/

/-- What a piece is made of when it is read. -/
def Made : Piece → Prop
  | digits ds => ∀ d ∈ ds, Digit.isDigit d = true
  | word cs => cs ≠ [] ∧ ∀ c ∈ cs, isWordPart c = true
  | operator kind => kind.isSymbol = true
  | _ => True

lemma operator?_isSymbol {kind : Token.Kind}
    (h : operator? c cs = some (kind, rest)) : kind.isSymbol = true := by
  unfold operator? at h
  split at h
  · cases h
    rfl
  · cases h
    rfl
  · obtain ⟨k, hk, he⟩ := Option.map_eq_some_iff.mp h
    cases he
    unfold Token.Kind.ofSymbol? at hk
    split at hk <;> cases hk <;> rfl

lemma made_first (c : Char) (cs : List Char) : (first c cs).1.Made := by
  have hfirst := first_spec c cs
  generalize (first c cs).1 = piece, (first c cs).2 = rest at hfirst
  cases hfirst with
  | digits hc =>
      exact List.forall_mem_cons.mpr
        ⟨hc, List.all_eq_true.mp List.all_takeWhile⟩
  | word hc =>
      exact ⟨List.cons_ne_nil _ _, List.forall_mem_cons.mpr
        ⟨isWordPart_iff.mpr (Or.inl hc),
          List.all_eq_true.mp List.all_takeWhile⟩⟩
  | operator _ h => exact operator?_isSymbol h
  | _ => trivial

/-- What holds of every first piece holds of all pieces. -/
lemma forall_mem_cut {P : Piece → Prop} (h : ∀ c cs, P (first c cs).1)
    (cs : List Char) : ∀ piece ∈ cut cs, P piece := by
  induction hlength : cs.length using Nat.strongRecOn generalizing cs with
  | ind n ih =>
    cases cs with
    | nil => exact fun piece hpiece => absurd hpiece List.not_mem_nil
    | cons c cs =>
        rw [List.length_cons] at hlength
        have hle := length_first_le c cs
        rw [cut_cons]
        exact List.forall_mem_cons.mpr ⟨h c cs, ih _ (by omega) _ rfl⟩

lemma made_of_mem_cut {piece : Piece} (h : piece ∈ cut cs) : piece.Made :=
  forall_mem_cut made_first cs piece h

/-- The token of a piece stands behind the text of the pieces before it. -/
lemma exists_of_mem_tokens {p : Position} {t : Token} {pieces : List Piece}
    (h : t ∈ tokens p pieces) : ∃ before piece behind,
      pieces = before ++ piece :: behind ∧
      piece.token? (p.after (before.flatMap text)) = some t := by
  induction pieces generalizing p with
  | nil => cases h
  | cons piece pieces ih =>
      rw [tokens, List.mem_append] at h
      rcases h with h | h
      · exact ⟨[], piece, pieces, rfl, Option.mem_toList.mp h⟩
      · obtain ⟨before, other, behind, rfl, ht⟩ := ih h
        refine ⟨piece :: before, other, behind, rfl, ?_⟩
        rw [List.flatMap_cons, Position.after_append]
        exact ht

/-! ### Reading on -/

/-- The tokens of a text that stands at a position. -/
def scan (p : Position) (cs : List Char) : List Token := tokens p (cut cs)

/-- The first piece of a text, and then the rest. -/
lemma scan_cons {piece : Piece} (h : first c cs = (piece, rest)) :
    scan p (c :: cs) =
      (piece.token? p).toList ++ scan (p.after piece.text) rest := by
  rw [scan, cut_cons, h, tokens]
  rfl

/-! ### Delimiters and blanks -/

/-- A symbol that is read no further than itself. -/
lemma scan_symbol {kind : Token.Kind}
    (hkind : Token.Kind.ofSymbol? c = some kind)
    (halone : c ≠ '=' ∧ c ≠ '!' ∧ c ≠ '/') :
    scan p (c :: cs) = ⟨kind, kind.label, p⟩ :: scan (p.next c) cs := by
  obtain ⟨heq, hnot, hslash⟩ := halone
  have hfirst : First c cs (operator kind) cs := by
    refine .operator (fun h => hslash h.1) ?_
    rw [operator?_symbol fun _ _ => ⟨heq, hnot⟩, hkind]
    rfl
  rw [scan_cons hfirst.eq, text, Token.Kind.label_ofSymbol? hkind]
  rfl

/-- A blank leaves no token. -/
lemma scan_of_isBlank (hc : isBlank c = true) :
    scan p (c :: cs) = scan (p.next c) cs := by
  rw [scan_cons (First.blanks hc cs).eq]
  cases cs with
  | nil => rfl
  | cons d ds =>
      by_cases hd : isBlank d = true
      · rw [scan_cons (First.blanks hd ds).eq, List.takeWhile_cons_of_pos hd,
          List.dropWhile_cons_of_pos hd]
        rfl
      · rw [List.takeWhile_cons_of_neg hd, List.dropWhile_cons_of_neg hd]
        rfl

lemma scan_blank : scan p (' ' :: cs) = scan (p.next ' ') cs :=
  scan_of_isBlank rfl

/-! ### Numbers and words -/

/-- A text goes on with no word and with no number: nothing is left, or some
other character stands there. -/
def Breaks (cs : List Char) : Prop :=
  ∀ c ∈ cs.head?, Digit.isDigit c = false ∧ isWordPart c = false

/-- Characters of a class up to one that is none of them. -/
lemma takeWhile_dropWhile {q : Char → Bool} (hds : ∀ d ∈ ds, q d = true)
    (hrest : ∀ c ∈ rest.head?, q c = false) :
    (ds ++ rest).takeWhile q = ds ∧ (ds ++ rest).dropWhile q = rest := by
  rw [List.takeWhile_append_of_pos hds, List.dropWhile_append_of_pos hds]
  cases rest with
  | nil => simp
  | cons c rest =>
      have hc := hrest c rfl
      simp [hc]

/-- The digits of a number. -/
lemma scan_digits (hne : ds ≠ []) (hds : ∀ d ∈ ds, Digit.isDigit d = true)
    (hrest : Breaks rest) :
    scan p (ds ++ rest) =
      ⟨.int, String.ofList ds, p⟩ :: scan (p.after ds) rest := by
  obtain _ | ⟨d, ds⟩ := ds
  · exact absurd rfl hne
  obtain ⟨hd, hds⟩ := List.forall_mem_cons.mp hds
  obtain ⟨htake, hdrop⟩ := takeWhile_dropWhile hds fun c hc => (hrest c hc).1
  have hfirst : First d (ds ++ rest) (digits (d :: ds)) rest := by
    simpa only [htake, hdrop] using First.digits hd (ds ++ rest)
  exact scan_cons hfirst.eq

/-- A word that starts with `c`. -/
lemma scan_word (c : Char) (cs : List Char) (hc : isWordStart c = true)
    (hcs : ∀ d ∈ cs, isWordPart d = true) (hrest : Breaks rest) :
    scan p (c :: (cs ++ rest)) =
      ⟨Token.Kind.ofWord (String.ofList (c :: cs)), String.ofList (c :: cs),
        p⟩ :: scan (p.after (c :: cs)) rest := by
  obtain ⟨htake, hdrop⟩ := takeWhile_dropWhile hcs fun c hc => (hrest c hc).2
  have hfirst : First c (cs ++ rest) (word (c :: cs)) rest := by
    simpa only [htake, hdrop] using First.word hc (cs ++ rest)
  exact scan_cons hfirst.eq

/-- A truth value. -/
lemma scan_boolean (b : Bool) (hrest : Breaks rest) :
    scan p ((if b then "true" else "false").toList ++ rest) =
      ⟨if b then .trueKey else .falseKey, if b then "true" else "false", p⟩ ::
        scan (p.after (if b then "true" else "false").toList) rest := by
  cases b with
  | true =>
      exact scan_word 't' ['r', 'u', 'e'] rfl (List.all_eq_true.mp rfl) hrest
  | false =>
      exact scan_word 'f' ['a', 'l', 's', 'e'] rfl (List.all_eq_true.mp rfl)
        hrest

end Piece

end MonkeyLang

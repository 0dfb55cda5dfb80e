/-
Where the tokens of a source text stand.

* `Position.rest?`: what is left of a text, split into its lines, from a
  position on; `rest?_next`, `rest?_after`: how it goes on behind a part of it;
* `Position.Before`: the order of positions; `before_after`: what is read
  leads to a later one;
* `Piece.Tiled`: tokens against the pieces of a text, each at the place of its
  piece, and the end token at the end;
* `Token.stream_tiled`: so it is for the tokens of every source text, whose
  positions increase.
-/
import MonkeyLang.Proofs.Parser.Balance
import MonkeyLang.Proofs.Token.Grammar
import MonkeyLang.Proofs.Token.Scanning

namespace MonkeyLang

namespace Position

/-! ### Lines and columns -/

/-- What is left of a text from a position on, if the text has such a
position.  Only the line feed ends a line. -/
def rest? (cs : List Char) (p : Position) : Option (List Char) :=
  match (cs.splitOn '\n').drop p.line with
  | [] => none
  | line :: lines =>
    if p.column ≤ line.length then
      some (['\n'].intercalate (line.drop p.column :: lines))
    else none

variable {p q r : Position} {c : Char} {cs ds es : List Char}

/-- There is no line feed inside a line. -/
lemma not_mem_line {line : List Char} (h : line ∈ cs.splitOn '\n') :
    '\n' ∉ line := by
  induction cs generalizing line with
  | nil => simp_all
  | cons c cs ih =>
      obtain ⟨head, tail, hsplit⟩ :=
        List.exists_cons_of_ne_nil (List.splitOn_ne_nil '\n' cs)
      rw [List.splitOn_cons_eq_if_modifyHead, hsplit] at h
      rw [hsplit] at ih
      by_cases hc : c = '\n'
      · rw [if_pos (by simpa using hc)] at h
        rcases List.mem_cons.mp h with rfl | h
        · exact List.not_mem_nil
        · exact ih h
      · rw [if_neg (by simpa using hc), List.modifyHead_cons] at h
        rcases List.mem_cons.mp h with rfl | h
        · have hhead := ih List.mem_cons_self
          simp [hhead, Ne.symm hc]
        · exact ih (List.mem_cons_of_mem _ h)

lemma rest?_eq_some_iff : p.rest? cs = some ds ↔
    ∃ line lines, (cs.splitOn '\n').drop p.line = line :: lines ∧
      p.column ≤ line.length ∧
      ['\n'].intercalate (line.drop p.column :: lines) = ds := by
  unfold rest?
  constructor
  · intro h
    split at h
    · cases h
    · next line lines hdrop =>
      split at h
      · next hle => exact ⟨line, lines, hdrop, hle, Option.some.inj h⟩
      · cases h
  · rintro ⟨line, lines, hdrop, hle, hds⟩
    rw [hdrop]
    exact (if_pos hle).trans (congrArg some hds)

/-- The whole text is left from its start on. -/
lemma rest?_start (cs : List Char) : start.rest? cs = some cs := by
  obtain ⟨line, lines, hsplit⟩ :=
    List.exists_cons_of_ne_nil (List.splitOn_ne_nil '\n' cs)
  refine rest?_eq_some_iff.mpr ⟨line, lines, hsplit, Nat.zero_le _, ?_⟩
  rw [start, List.drop_zero, ← hsplit, List.intercalate_splitOn]

lemma intercalate_cons (c : Char) (line : List Char)
    (lines : List (List Char)) :
    ['\n'].intercalate ((c :: line) :: lines) =
      c :: ['\n'].intercalate (line :: lines) := by
  cases lines <;> simp [List.intercalate_cons_cons]

/-- Behind a character what follows it is left. -/
lemma rest?_next (h : p.rest? cs = some (c :: ds)) :
    (p.next c).rest? cs = some ds := by
  obtain ⟨line, lines, hdrop, hle, htext⟩ := rest?_eq_some_iff.mp h
  rw [rest?_eq_some_iff]
  rcases hle.lt_or_eq with hlt | heq
  · -- the character stands in the line
    rw [List.drop_eq_getElem_cons hlt, intercalate_cons] at htext
    obtain ⟨hc, hds⟩ := List.cons.inj htext
    have hline : c ≠ '\n' := by
      rintro rfl
      have hmem : line ∈ cs.splitOn '\n' :=
        List.mem_of_mem_drop (hdrop ▸ List.mem_cons_self)
      exact not_mem_line hmem (hc ▸ List.getElem_mem hlt)
    rw [next, if_neg hline]
    exact ⟨line, lines, hdrop, hlt, hds⟩
  · -- it ends the line
    rw [heq, List.drop_length] at htext
    obtain _ | ⟨line', lines⟩ := lines
    · cases htext
    obtain ⟨hc, hds⟩ := List.cons.inj htext
    rw [next, if_pos hc.symm]
    refine ⟨line', lines, ?_, Nat.zero_le _, hds⟩
    rw [← List.tail_drop, hdrop, List.tail_cons]

/-- Behind a part of the text what follows it is left. -/
theorem rest?_after (h : p.rest? cs = some (ds ++ es)) :
    (p.after ds).rest? cs = some es := by
  induction ds generalizing p with
  | nil => exact h
  | cons d ds ih => exact ih (rest?_next h)

/-! ### The order of positions -/

/-- One position stands before another one: in an earlier line, or in the same
line and further to the left. -/
def Before (p q : Position) : Prop :=
  p.line < q.line ∨ p.line = q.line ∧ p.column < q.column

lemma Before.trans (hpq : p.Before q) (hqr : q.Before r) : p.Before r := by
  unfold Before at *
  omega

lemma before_next (p : Position) (c : Char) : p.Before (p.next c) := by
  unfold next Before
  split
  · exact Or.inl (Nat.lt_succ_self _)
  · exact Or.inr ⟨rfl, Nat.lt_succ_self _⟩

/-- What is read leads to a later position. -/
theorem before_after (h : ds ≠ []) : p.Before (p.after ds) := by
  induction ds generalizing p with
  | nil => exact absurd rfl h
  | cons d ds ih =>
      by_cases hds : ds = []
      · rw [hds]
        exact before_next p d
      · exact (before_next p d).trans (ih hds)

end Position

/-- No word is read as a string. -/
lemma Token.Kind.ofWord_ne_string (word : String) : ofWord word ≠ string :=
  ofWord_of_keywords (P := (· ≠ string)) nofun (by decide) word

namespace Piece

variable {p : Position} {piece : Piece} {pieces : List Piece} {t : Token}
  {ts : List Token} {cs : List Char}

/-! ### The token of a piece -/

/-- Line feeds, blanks and comments have no token. -/
def Form.isLayout : Form → Bool
  | newline | blanks | comment => true
  | _ => false

/-- The token of a piece stands where the piece does. -/
lemma position_of_token? (h : piece.token? p = some t) : t.position = p := by
  cases piece <;> cases h <;> rfl

/-- It is a string token if the piece is a string, and otherwise its text is
that of the piece. -/
lemma kind_of_token? (h : piece.token? p = some t)
    (hoperator : piece ≠ operator .string) :
    (t.kind = .string ↔ piece.form = .string) ∧
      (t.kind ≠ .string → t.text.toList = piece.text) := by
  cases piece <;> simp only [token?, Option.some.injEq, reduceCtorEq] at h <;>
    subst h <;> simp [form, text]
  case word => exact Token.Kind.ofWord_ne_string _
  case operator kind => rintro rfl; exact hoperator rfl

lemma token?_eq_none (h : piece.form.isLayout = true) :
    piece.token? p = none := by
  cases piece <;> first | rfl | cases h

lemma exists_token? (h : piece.form.isLayout = false) :
    ∃ t, piece.token? p = some t := by
  cases piece <;> first | exact ⟨_, rfl⟩ | cases h

/-! ### Tokens against pieces -/

/-- Some tokens are those of the pieces at the end of the text `cs`: line
feeds, blanks and comments have none, and every other piece has one, which
stands where the piece does; behind them stands the one end token, where
nothing is left of the text. -/
inductive Tiled (cs : List Char) : List Piece → List Token → Prop
  | done {t : Token} (hkind : t.kind = .eof) (htext : t.text = "")
      (hplace : t.position.rest? cs = some []) : Tiled cs [] [t]
  | layout {piece : Piece} {pieces : List Piece} {ts : List Token}
      (hform : piece.form.isLayout = true) (hrest : Tiled cs pieces ts) :
      Tiled cs (piece :: pieces) ts
  | token {piece : Piece} {pieces : List Piece} {t : Token}
      {ts : List Token} (hform : piece.form.isLayout = false)
      (hkind : t.kind ≠ .eof)
      (hplace : t.position.rest? cs =
        some (piece.text ++ pieces.flatMap text))
      (hstring : t.kind = .string ↔ piece.form = .string)
      (htext : t.kind ≠ .string → t.text.toList = piece.text)
      (hrest : Tiled cs pieces ts) :
      Tiled cs (piece :: pieces) (t :: ts)

/-- The tokens of pieces are laid where the pieces are. -/
lemma tiled_tokens
    (hpieces : ∀ piece ∈ pieces,
      piece ≠ operator .eof ∧ piece ≠ operator .string)
    (hplace : p.rest? cs = some (pieces.flatMap text)) :
    Tiled cs pieces
      (tokens p pieces ++ [Token.endAt (p.after (pieces.flatMap text))]) := by
  -- by induction over the pieces, for every place: each is layout, which has no
  -- token, or has one where it begins
  induction pieces generalizing p with
  | nil => exact .done rfl rfl hplace
  | cons piece pieces ih =>
      rw [List.flatMap_cons] at hplace
      obtain ⟨⟨heof, hstring⟩, hpieces⟩ := List.forall_mem_cons.mp hpieces
      have hrest := ih hpieces (Position.rest?_after hplace)
      rw [← Position.after_append] at hrest
      rw [tokens, List.append_assoc, List.flatMap_cons]
      cases hform : piece.form.isLayout with
      | true =>
          rw [token?_eq_none hform]
          exact .layout hform hrest
      | false =>
          obtain ⟨t, ht⟩ := exists_token? (p := p) hform
          obtain ⟨hkind, htext⟩ := kind_of_token? ht hstring
          rw [ht]
          exact .token hform (kind_ne_eof ht heof)
            (position_of_token? ht ▸ hplace) hkind htext hrest

/-- Pieces that are not empty have tokens further and further behind. -/
lemma pairwise_tokens (hpieces : ∀ piece ∈ pieces, piece.text ≠ []) :
    (tokens p pieces ++ [Token.endAt (p.after (pieces.flatMap text))]).Pairwise
        (fun s t => s.position.Before t.position) ∧
      ∀ t ∈ tokens p pieces ++ [Token.endAt (p.after (pieces.flatMap text))],
        t.position = p ∨ p.Before t.position := by
  induction pieces generalizing p with
  | nil =>
      exact ⟨List.pairwise_singleton _ _,
        fun t ht => Or.inl (List.mem_singleton.mp ht ▸ rfl)⟩
  | cons piece pieces ih =>
      obtain ⟨hpiece, hpieces⟩ := List.forall_mem_cons.mp hpieces
      obtain ⟨hpairwise, hbehind⟩ := ih (p := p.after piece.text) hpieces
      rw [← Position.after_append] at hpairwise hbehind
      have hlater : ∀ t ∈ tokens (p.after piece.text) pieces ++
          [Token.endAt (p.after (piece.text ++ pieces.flatMap text))],
          p.Before t.position := by
        intro t ht
        have hstep := Position.before_after (p := p) hpiece
        rcases hbehind t ht with heq | hbefore
        · exact heq ▸ hstep
        · exact hstep.trans hbefore
      rw [tokens, List.append_assoc, List.flatMap_cons]
      rcases htoken : piece.token? p with _ | t
      · exact ⟨hpairwise, fun t ht => Or.inr (hlater t ht)⟩
      · have hposition := position_of_token? htoken
        refine ⟨List.pairwise_cons.mpr ⟨?_, hpairwise⟩, ?_⟩
        · exact fun u hu => hposition ▸ hlater u hu
        · exact List.forall_mem_cons.mpr
            ⟨Or.inl hposition, fun u hu => Or.inr (hlater u hu)⟩

/-! ### The pieces of a text -/

/-- Each piece of a text has the first form that matches where it stands, and
its pattern leaves what stands behind it. -/
lemma lead?_cut {before behind : List Piece}
    (h : cut cs = before ++ piece :: behind) :
    Form.lead? (piece.text ++ behind.flatMap text) =
      some (piece.form, behind.flatMap text) := by
  induction before generalizing cs with
  | nil =>
      obtain _ | ⟨c, cs⟩ := cs
      · cases h
      rw [cut_cons] at h
      obtain ⟨rfl, rfl⟩ := List.cons.inj h
      rw [flatMap_text_cut, text_first, lead?_cons]
  | cons first' before ih =>
      obtain _ | ⟨c, cs⟩ := cs
      · cases h
      rw [cut_cons] at h
      exact ih (List.cons.inj h).2

end Piece

/-- **The tokens of a text.**  Every source text is cut without gap or overlap
into pieces that each have the first form that matches where they stand.  The
tokens are those of the pieces that are no line feeds, blanks or comments, and
one end token: each stands at the line and the column of its piece, its text
is that of the piece unless it is a string, and their positions increase. -/
theorem Token.stream_tiled (source : String) :
    ∃ pieces : List Piece,
      pieces.flatMap Piece.text = source.toList ∧
      (∀ before piece behind, pieces = before ++ piece :: behind →
        Piece.Form.lead? (piece.text ++ behind.flatMap Piece.text) =
          some (piece.form, behind.flatMap Piece.text)) ∧
      Piece.Tiled source.toList pieces (Token.stream source) ∧
      (Token.stream source).Pairwise
        fun s t => s.position.Before t.position := by
  have htext := Piece.flatMap_text_cut source.toList
  have hmade : ∀ piece ∈ Piece.cut source.toList,
      piece ≠ .operator .eof ∧ piece ≠ .operator .string := by
    refine fun piece hpiece => ⟨?_, ?_⟩
    · rintro rfl
      cases Piece.made_of_mem_cut hpiece
    · rintro rfl
      cases Piece.made_of_mem_cut hpiece
  have hplace : Position.start.rest? source.toList =
      some ((Piece.cut source.toList).flatMap Piece.text) := by
    rw [htext, Position.rest?_start]
  have htiled := Piece.tiled_tokens hmade hplace
  have hpairwise := Piece.pairwise_tokens (p := .start)
    (Piece.forall_mem_cut Piece.text_first_ne_nil source.toList)
  rw [htext] at htiled hpairwise
  exact ⟨Piece.cut source.toList, htext, fun _ _ _ => Piece.lead?_cut, htiled,
    hpairwise.1⟩

/-- A string over two lines: the name behind it stands in the second one. -/
example : (Token.stream "\"a\nb\" c").map Token.position =
    [⟨0, 0⟩, ⟨1, 3⟩, ⟨1, 4⟩] := by decide +kernel

end MonkeyLang

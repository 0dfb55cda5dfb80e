/-
The layout of a text does not count.

* `Piece.Border`: two parts of a text that meet between its pieces;
  `cut_border`: the pieces before a border stay before a line feed;
* `Piece.Layout`: texts of blanks, line feeds and comments that end in one;
  `Layout.scan`: they leave no tokens;
* `Token.stream_layout`: layout that starts with a line feed may stand at every
  border of a text without illegal tokens;
* `Parser.ofSource_layout`: it changes neither the tokens nor the program nor
  the wording of the faults, places aside.
-/
import MonkeyLang.Proofs.Parser.Places
import MonkeyLang.Proofs.Token.Lines

namespace MonkeyLang

namespace Piece

/-! ### Borders -/

/-- A piece that is no illegal character is over if something stands behind
it. -/
lemma ended_of_rest {c : Char} {cs rest : List Char} {piece : Piece}
    (h : first c cs = (piece, rest)) (hlegal : ∀ d, piece ≠ illegal d)
    (hrest : rest ≠ []) : piece.Ended := by
  cases piece with
  | string body closed =>
      cases closed with
      | true => rfl
      | false => exact absurd (first_open h) hrest
  | illegal d => exact absurd rfl (hlegal d)
  | _ => trivial

/-- So the pieces before others are over. -/
lemma ended_of_cut {before behind : List Piece} {cs : List Char}
    (h : cut cs = before ++ behind) (hbehind : behind ≠ [])
    (hlegal : ∀ d, illegal d ∉ before) : ∀ piece ∈ before, piece.Ended := by
  induction before generalizing cs with
  | nil => exact fun piece hpiece => absurd hpiece List.not_mem_nil
  | cons piece before ih =>
      rw [List.cons_append] at h
      obtain ⟨c, es, rest, rfl, hfirst, hrest⟩ := exists_first_of_cut h
      have hne : rest ≠ [] := by
        rintro rfl
        exact hbehind (List.append_eq_nil_iff.mp hrest.symm).2
      refine List.forall_mem_cons.mpr ⟨ended_of_rest hfirst ?_ hne,
        ih hrest fun d hd => hlegal d (List.mem_cons_of_mem _ hd)⟩
      rintro d rfl
      exact hlegal d List.mem_cons_self

/-- Between two texts there is a border of the pieces of the whole: its first
pieces make up the first text, and other ones stand behind them. -/
def Border (cs ds : List Char) : Prop :=
  ∃ before behind, cut (cs ++ ds) = before ++ behind ∧
    before.flatMap text = cs ∧ behind ≠ []

/-- The pieces before a border are also read before a line feed. -/
theorem cut_border {before behind : List Piece} {cs : List Char}
    (h : cut cs = before ++ behind) (hbehind : behind ≠ [])
    (hlegal : ∀ d, illegal d ∉ before) (ds : List Char) :
    cut (before.flatMap text ++ '\n' :: ds) = before ++ newline :: cut ds :=
  cut_before h (ended_of_cut h hbehind hlegal) ds

/-- The pieces behind a border are those of their text. -/
lemma cut_behind {before behind : List Piece} {cs : List Char}
    (h : cut cs = before ++ behind) :
    cut (behind.flatMap text) = behind := by
  induction before generalizing cs with
  | nil =>
      have hwhole := flatMap_text_cut cs
      rw [h, List.nil_append] at hwhole
      rw [hwhole, h, List.nil_append]
  | cons piece before ih =>
      obtain ⟨c, es, rest, rfl, -, hrest⟩ := exists_first_of_cut h
      exact ih hrest

/-! ### Layout -/

/-- Texts of blanks, line feeds and comments that end in a line feed. -/
inductive Layout : List Char → Prop where
  | nil : Layout []
  | blank {c : Char} {cs : List Char} (hc : isBlank c = true) (h : Layout cs) :
      Layout (c :: cs)
  | newline {cs : List Char} (h : Layout cs) : Layout ('\n' :: cs)
  | comment {body cs : List Char} (hbody : '\n' ∉ body) (h : Layout cs) :
      Layout ('/' :: '/' :: (body ++ '\n' :: cs))

/-- A line feed leaves no token. -/
lemma scan_newline {p : Position} {cs : List Char} :
    scan p ('\n' :: cs) = scan (p.next '\n') cs :=
  scan_cons rfl

/-- A comment leaves no token. -/
lemma scan_comment {p : Position} {body cs : List Char} (hbody : '\n' ∉ body) :
    scan p ('/' :: '/' :: (body ++ '\n' :: cs)) =
      scan (p.after ('/' :: '/' :: body)) ('\n' :: cs) := by
  have hinline : ∀ d ∈ body, isInline d = true := by
    intro d hd
    have hline : d ≠ '\n' := by
      rintro rfl
      exact hbody hd
    simpa [isInline] using hline
  have hend : ∀ c ∈ ('\n' :: cs).head?, isInline c = false := by
    intro c hc
    obtain rfl := Option.some.inj hc
    rfl
  obtain ⟨htake, hdrop⟩ := takeWhile_dropWhile hinline hend
  have hfirst : First '/' ('/' :: (body ++ '\n' :: cs)) (comment body)
      ('\n' :: cs) := by
    simpa only [htake, hdrop] using First.comment (body ++ '\n' :: cs)
  exact scan_cons hfirst.eq

/-- Layout leaves no tokens: what stands behind it is read as anywhere. -/
theorem Layout.scan {cs : List Char} (h : Layout cs) (p q : Position)
    (rest : List Char) : (Piece.scan p (cs ++ rest)).map Token.bare =
      (Piece.scan q rest).map Token.bare := by
  induction h generalizing p with
  | nil => exact tokens_bare _ p q
  | blank hc _ ih =>
      rw [List.cons_append, scan_of_isBlank hc]
      exact ih _
  | newline _ ih =>
      rw [List.cons_append, scan_newline]
      exact ih _
  | comment hbody _ ih =>
      rw [List.cons_append, List.cons_append, List.append_assoc,
        List.cons_append, scan_comment hbody, scan_newline]
      exact ih _

/-- Layout that starts with a line feed goes on as layout. -/
lemma Layout.exists_line {cs : List Char} (h : Layout cs)
    (hline : cs.head? = some '\n') : ∃ ds, cs = '\n' :: ds ∧ Layout ds := by
  cases h with
  | nil => cases hline
  | blank hc =>
      obtain rfl := Option.some.inj hline
      cases hc
  | newline h => exact ⟨_, rfl, h⟩
  | comment => cases hline

/-- Where no token is illegal there is no illegal character. -/
lemma not_mem_of_legal {p : Position} {pieces : List Piece} {d : Char}
    (h : ∀ t ∈ tokens p pieces, t.kind ≠ .illegal) : illegal d ∉ pieces := by
  intro hmem
  obtain ⟨before, behind, rfl⟩ := List.append_of_mem hmem
  refine h ⟨.illegal, d.toString, p.after (before.flatMap text)⟩ ?_ rfl
  rw [tokens_append, tokens]
  exact List.mem_append_right _ List.mem_cons_self

end Piece

/-! ### Tokens and programs -/

/-- **Layout between tokens.**  At every border of the pieces of a text without
illegal tokens there may be put a line feed and behind it blanks, line feeds and
comments that end in one: the tokens stay the same, places aside. -/
theorem Token.stream_layout {a b layout : String}
    (hborder : Piece.Border a.toList b.toList)
    (hlegal : ∀ t ∈ Token.stream (a ++ b), t.kind ≠ .illegal)
    (hlayout : Piece.Layout layout.toList)
    (hline : layout.toList.head? = some '\n') :
    (Token.stream (a ++ layout ++ b)).map Token.bare =
      (Token.stream (a ++ b)).map Token.bare := by
  obtain ⟨before, behind, hcut, ha, hbehind⟩ := hborder
  obtain ⟨ds, hds, hrest⟩ := hlayout.exists_line hline
  rw [← String.toList_append] at hcut
  have hlegal' : ∀ d, Piece.illegal d ∉ before := by
    intro d hd
    have hpieces : ∀ t ∈ Piece.tokens .start (before ++ behind),
        t.kind ≠ .illegal := by
      intro t ht
      refine hlegal t ?_
      rw [Token.stream, hcut]
      exact List.mem_append_left _ ht
    exact Piece.not_mem_of_legal hpieces (List.mem_append_left _ hd)
  -- behind the border the pieces are those of the second text by itself
  have hb : Piece.cut b.toList = behind := by
    have hwhole := Piece.flatMap_text_cut (a ++ b).toList
    rw [hcut, List.flatMap_append, ha, String.toList_append] at hwhole
    rw [← List.append_cancel_left hwhole]
    exact Piece.cut_behind hcut
  -- the pieces in front of the border are legal, so that none of them goes on
  -- over the line feed
  have hcut' : Piece.cut (a ++ layout ++ b).toList =
      before ++ .newline :: Piece.cut (ds ++ b.toList) := by
    rw [← Piece.cut_border hcut hbehind hlegal', ha, String.toList_append,
      String.toList_append, hds, List.append_assoc, List.cons_append]
  rw [Token.stream, Token.stream, hcut', hcut, Piece.tokens_append,
    Piece.tokens_append, ← hb]
  simp only [List.map_append]
  exact congrArg (_ ++ · ++ [.made .eof ""])
    (hrest.scan _ (Position.start.after (before.flatMap Piece.text)) b.toList)

/-- **Layout does not count.**  Put layout that starts with a line feed at a
border of the pieces of a text without illegal tokens.  Then the kinds and
texts of the tokens stay, and so do the program, places aside, and the wording
of its faults. -/
theorem Parser.ofSource_layout {a b layout : String}
    (hborder : Piece.Border a.toList b.toList)
    (hlegal : ∀ t ∈ Token.stream (a ++ b), t.kind ≠ .illegal)
    (hlayout : Piece.Layout layout.toList)
    (hline : layout.toList.head? = some '\n') (tracing tracing' : Bool) :
    (Token.stream (a ++ layout ++ b)).map Token.bare =
        (Token.stream (a ++ b)).map Token.bare ∧
      (Parser.ofSource (a ++ layout ++ b) tracing).program.bare =
        (Parser.ofSource (a ++ b) tracing').program.bare ∧
      (Parser.ofSource (a ++ layout ++ b) tracing).diagnostics.map
          Diagnostic.message =
        (Parser.ofSource (a ++ b) tracing').diagnostics.map
          Diagnostic.message := by
  have hstream := Token.stream_layout hborder hlegal hlayout hline
  exact ⟨hstream, (Parser.ofTokens_alike hstream tracing tracing').1,
    Parser.ofTokens_messages hstream tracing tracing'⟩

/-- Between a comment and an equals sign with an open string: a line feed, a
comment and a tab. -/
theorem Parser.ofSource_layout_string :
    Piece.Border "x//=\n".toList "= \"".toList ∧
    Piece.Layout "\n//\"=\n\t".toList ∧
    (Parser.ofSource ("x//=\n" ++ "\n//\"=\n\t" ++ "= \"")
        false).diagnostics.map Diagnostic.message =
      (Parser.ofSource ("x//=\n" ++ "= \"") false).diagnostics.map
        Diagnostic.message := by
  have hborder : Piece.Border "x//=\n".toList "= \"".toList :=
    ⟨[.word ['x'], .comment ['='], .newline],
      [.operator .assign, .blanks [' '], .string [] false], rfl, rfl, nofun⟩
  have hcomment : Piece.Layout ('/' :: '/' :: (['"', '='] ++ ['\n', '\t'])) :=
    .comment (by decide) (.blank rfl .nil)
  have hlayout : Piece.Layout "\n//\"=\n\t".toList := .newline hcomment
  exact ⟨hborder, hlayout,
    (Parser.ofSource_layout hborder (by decide) hlayout rfl false false).2.2⟩

end MonkeyLang

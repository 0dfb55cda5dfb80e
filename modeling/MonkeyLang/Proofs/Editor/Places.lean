/-
Where the symbols of a document stand in its lines.

* `Lines.after`: where a text ends in the lines of an editor;
  `Lines.foreign`: the characters in it that end a line there and not in the
  positions of tokens;
* `Lines.line_after`, `Lines.after_eq`: an editor is as many lines ahead;
* `Lines.exists_getD_splitFrom`: what stands behind a text is found in the line
  and at the column where it ends, and the line goes on to the next break;
* `Token.exists_before`: a name stands behind the text that leads to its
  position; `Parser.bindsFrom_ofSource`: each `let` binds such a name;
* `Index.stands`: so each symbol is found in the lines of its document, where
  its position says unless such characters stand before it;
* `Index.not_stands`: if one does, it need not be found there.
-/
import MonkeyLang.Editor.Documents
import MonkeyLang.Proofs.Parser.Yields
import MonkeyLang.Proofs.Session.Index
import MonkeyLang.Proofs.Token.Tiling

namespace MonkeyLang

namespace Lines

/-! ### Lines as an editor counts them -/

/-- The place behind a text that starts at `p`, in lines as an editor counts
them. -/
def after (p : Position) : List Char → Position
  | [] => p
  | '\r' :: '\n' :: cs => after ⟨p.line + 1, 0⟩ cs
  | c :: cs =>
    if isBreak c then after ⟨p.line + 1, 0⟩ cs
    else after ⟨p.line, p.column + 1⟩ cs

/-- The characters of a text that end a line for an editor only: all breaks but
the line feed and a carriage return before one. -/
def foreign : List Char → List Char
  | [] => []
  | '\r' :: '\n' :: cs => foreign cs
  | c :: cs => if isBreak c && c != '\n' then c :: foreign cs else foreign cs

variable {p q : Position} {word line cs : List Char} {c : Char} {fresh : Bool}

lemma foreign_cons (h : ∀ ds, c = '\r' → cs = '\n' :: ds → False) :
    foreign (c :: cs) =
      if isBreak c && c != '\n' then c :: foreign cs else foreign cs := by
  rw [foreign]
  exact h

/-- For each of them an editor is one line further. -/
lemma line_after (n : ℕ) (h : p.line = q.line + n) :
    (after p cs).line = (q.after cs).line + (n + (foreign cs).length) := by
  -- one case for each way on: the end, a pair of a carriage return and a line
  -- feed, another break, and what ends no line
  fun_induction after p cs generalizing q n with
  | case1 p => exact h
  | case2 p cs ih =>
      exact ih n (q := ⟨q.line + 1, 0⟩) (by rw [h, Nat.add_right_comm])
  | case3 p c cs hpair hbreak ih =>
      rw [Position.after_cons, foreign_cons hpair]
      by_cases hc : c = '\n'
      · subst hc
        exact ih n (q := ⟨q.line + 1, 0⟩) (by rw [h, Nat.add_right_comm])
      · have hline : (q.next c).line = q.line := by simp [Position.next, hc]
        rw [ih (n + 1) (q := q.next c) (by rw [hline, h, Nat.add_assoc])]
        simp [hbreak, hc]
        omega
  | case4 p c cs hpair hinline ih =>
      have hc : c ≠ '\n' := by
        rintro rfl
        exact hinline rfl
      have hline : (q.next c).line = q.line := by simp [Position.next, hc]
      rw [Position.after_cons, foreign_cons hpair,
        ih n (q := q.next c) (by rw [hline, h])]
      simp [hinline]

/-- Where there are none, an editor counts as the positions of tokens do. -/
lemma after_eq (h : foreign cs = []) : after p cs = p.after cs := by
  fun_induction after p cs with
  | case1 p => rfl
  | case2 p cs ih => exact ih h
  | case3 p c cs hpair hbreak ih =>
      rw [foreign_cons hpair] at h
      obtain rfl : c = '\n' := by
        by_contra hc
        simp [hbreak, hc] at h
      exact ih h
  | case4 p c cs hpair hinline ih =>
      have hc : c ≠ '\n' := by
        rintro rfl
        exact hinline rfl
      rw [foreign_cons hpair, if_neg (by simp [hinline])] at h
      rw [ih h, Position.after_cons, Position.next, if_neg hc]

/-! ### What stands at a place -/

lemma splitFrom_cons (h : ∀ ds, c = '\r' → cs = '\n' :: ds → False) :
    splitFrom line fresh (c :: cs) =
      if isBreak c then line.reverse :: splitFrom [] true cs
      else splitFrom (c :: line) false cs := by
  rw [splitFrom]
  exact h

/-- What was met of a line starts it, and it goes on to the next break. -/
lemma exists_splitFrom (line cs : List Char) : ∃ lines,
    splitFrom line false cs =
      (line.reverse ++ cs.takeWhile (!isBreak ·)) :: lines := by
  induction cs generalizing line with
  | nil => exact ⟨[], by simp [splitFrom]⟩
  | cons c cs ih =>
      by_cases hc : isBreak c = true
      · have hline : (c :: cs).takeWhile (!isBreak ·) = [] := by simp [hc]
        rw [hline, List.append_nil, splitFrom.eq_def]
        split
        · next h => cases h
        · exact ⟨_, rfl⟩
        · next h =>
          obtain ⟨rfl, rfl⟩ := List.cons.inj h
          exact ⟨_, if_pos hc⟩
      · obtain ⟨lines, hlines⟩ := ih (c :: line)
        refine ⟨lines, ?_⟩
        rw [splitFrom_cons (by rintro ds rfl; exact absurd rfl hc), if_neg hc,
          hlines]
        simp [hc]

/-- A word does not complete a line end. -/
lemma no_pair_append (hword : ∀ c ∈ word, isBreak c = false) (hne : word ≠ [])
    (h : ∀ ds, c = '\r' → cs = '\n' :: ds → False) (behind : List Char) :
    ∀ ds, c = '\r' → cs ++ (word ++ behind) = '\n' :: ds → False := by
  intro ds hc heq
  cases cs with
  | nil =>
      obtain ⟨d, word, rfl⟩ := List.exists_cons_of_ne_nil hne
      obtain rfl : d = '\n' := (List.cons.inj heq).1
      cases (List.forall_mem_cons.mp hword).1
  | cons d cs => exact h cs hc (by rw [(List.cons.inj heq).1])

/-- What stands behind a text is found where the text ends: behind the end of the
text, and before what follows up to the next break. -/
lemma exists_getD_splitFrom (hword : ∀ c ∈ word, isBreak c = false)
    (hne : word ≠ []) {before : List Char} (behind : List Char)
    {lines : List (List Char)} (hp : p = ⟨lines.length, line.length⟩) :
    ∃ front, front <:+ line.reverse ++ before ∧
      front.length = (after p before).column ∧
      (lines ++ splitFrom line fresh (before ++ (word ++ behind))).getD
          (after p before).line [] =
        front ++ (word ++ behind.takeWhile (!isBreak ·)) := by
  -- the induction follows the walk to the place; the line that is being split
  -- grows with it
  fun_induction after p before generalizing line lines fresh with
  | case1 p =>
      refine ⟨line.reverse, by simp, by rw [hp, List.length_reverse], ?_⟩
      -- the place is reached; what comes behind it ends no line before the word
      -- does
      obtain ⟨c, word, rfl⟩ := List.exists_cons_of_ne_nil hne
      have hbreak := List.forall_mem_cons.mp hword
      obtain ⟨rest, hrest⟩ := exists_splitFrom (c :: line) (word ++ behind)
      rw [List.takeWhile_append_of_pos (by simpa using hbreak.2)] at hrest
      rw [List.nil_append, List.cons_append,
        splitFrom_cons (by rintro ds rfl; cases hbreak.1),
        if_neg (by simp [hbreak.1]), hrest, hp]
      simp
  | case2 p before ih =>
      have hsplit : lines ++ splitFrom line fresh
          ('\r' :: '\n' :: (before ++ (word ++ behind))) =
          (lines ++ [line.reverse]) ++
            splitFrom [] true (before ++ (word ++ behind)) := by
        simp [splitFrom]
      rw [List.cons_append, List.cons_append, hsplit]
      refine (ih (by rw [hp]; simp)).imp fun front h => ⟨h.1.trans ?_, h.2⟩
      exact ⟨line.reverse ++ ['\r', '\n'], by simp⟩
  | case3 p c before hpair hbreak ih =>
      rw [List.cons_append, splitFrom_cons (no_pair_append hword hne hpair _),
        if_pos hbreak, List.append_cons lines]
      refine (ih (by rw [hp]; simp)).imp fun front h => ⟨h.1.trans ?_, h.2⟩
      exact ⟨line.reverse ++ [c], by simp⟩
  | case4 p c before hpair hinline ih =>
      rw [List.cons_append, splitFrom_cons (no_pair_append hword hne hpair _),
        if_neg hinline]
      refine (ih (by rw [hp]; simp)).imp fun front h => ⟨h.1.trans ?_, h.2⟩
      exact ⟨[], by simp⟩

/-- So it is found at the column where the text ends. -/
lemma prefix_splitFrom (hword : ∀ c ∈ word, isBreak c = false)
    (hne : word ≠ []) {before : List Char} (behind : List Char)
    {lines : List (List Char)} (hp : p = ⟨lines.length, line.length⟩) :
    word <+: ((lines ++ splitFrom line fresh
      (before ++ (word ++ behind))).getD (after p before).line []).drop
        (after p before).column := by
  obtain ⟨front, -, hcolumn, hline⟩ := exists_getD_splitFrom hword hne behind hp
  rw [hline, List.drop_left' hcolumn]
  exact List.prefix_append _ _

end Lines

/-! ### Where names stand -/

namespace Piece

/-- The token of a name is that of a word. -/
lemma word_of_token? {p : Position} {t : Token} {piece : Piece}
    (hmade : piece.Made) (h : piece.token? p = some t)
    (hkind : t.kind = .ident) :
    t.text.toList = piece.text ∧ piece.text ≠ [] ∧
      ∀ c ∈ piece.text, isWordPart c = true := by
  cases piece with
  | word cs =>
      cases h
      exact ⟨String.toList_ofList, hmade⟩
  | operator kind =>
      cases h
      obtain rfl : kind = .ident := hkind
      cases hmade
  | _ => cases h <;> cases hkind

/-- No character of a word ends a line. -/
lemma isBreak_of_isWordPart {c : Char} (h : isWordPart c = true) :
    Lines.isBreak c = false := by
  by_contra hbreak
  rw [Bool.not_eq_false, Lines.isBreak, List.contains_iff_mem] at hbreak
  have hbreaks : ∀ n ∈ Lines.breaks, isWordPart (Char.ofNat n) = false := by
    decide
  have hc := hbreaks _ hbreak
  rw [Char.ofNat_toNat, h] at hc
  cases hc

end Piece

/-- A name stands in its text behind what leads to its position, and it is a
word. -/
lemma Token.exists_word {text : String} {t : Token}
    (ht : t ∈ Token.stream text) (hkind : t.kind = .ident) :
    ∃ before behind, text.toList = before ++ (t.text.toList ++ behind) ∧
      t.position = Position.start.after before ∧ t.text.toList ≠ [] ∧
      ∀ c ∈ t.text.toList, Piece.isWordPart c = true := by
  rcases List.mem_append.mp ht with ht | ht
  · obtain ⟨before, piece, behind, hcut, htoken⟩ :=
      Piece.exists_of_mem_tokens ht
    have hmem : piece ∈ Piece.cut text.toList := by simp [hcut]
    obtain ⟨htext, hne, hword⟩ :=
      Piece.word_of_token? (Piece.made_of_mem_cut hmem) htoken hkind
    refine ⟨before.flatMap Piece.text, behind.flatMap Piece.text, ?_,
      Piece.position_of_token? htoken, htext ▸ hne, htext ▸ hword⟩
    rw [← Piece.flatMap_text_cut text.toList, hcut, htext,
      List.flatMap_append, List.flatMap_cons]
  · rw [List.mem_singleton.mp ht] at hkind
    cases hkind

/-- No line ends in it. -/
lemma Token.exists_before {text : String} {t : Token}
    (ht : t ∈ Token.stream text) (hkind : t.kind = .ident) :
    ∃ before behind, text.toList = before ++ (t.text.toList ++ behind) ∧
      t.position = Position.start.after before ∧ t.text.toList ≠ [] ∧
      ∀ c ∈ t.text.toList, Lines.isBreak c = false := by
  obtain ⟨before, behind, htext, hposition, hne, hword⟩ := exists_word ht hkind
  exact ⟨before, behind, htext, hposition, hne,
    fun c hc => Piece.isBreak_of_isWordPart (hword c hc)⟩

/-! ### Symbols -/

/-- A `let` binds a name that is one of these tokens. -/
def Node.BindsFrom (ts : List Token) (n : Node) : Prop :=
  ∀ t name v, n = .letStmt t name v → name ∈ ts ∧ name.kind = .ident

/-- Each `let` that the parser finds in a text binds one of its names. -/
lemma Parser.bindsFrom_ofSource (text : String) (tracing : Bool) :
    ∃ ss, (Parser.ofSource text tracing).program = .program ss ∧
      ∀ n ∈ ss, n.BindsFrom (Token.stream text) := by
  have hbuilds : Grammar.Builds
      (fun t => t.kind = .ident → t ∈ Token.stream text)
      (Node.BindsFrom (Token.stream text)) := by
    constructor
    case letStmt =>
      rintro t name v hname hkind - _ _ _ ⟨⟩
      exact ⟨hname hkind, hkind⟩
    all_goals
      intros
      rintro _ _ _ ⟨⟩
  exact hbuilds.ofTokens nofun (fun t ht _ => ht) tracing

namespace Index

variable {text name : String} {σ : Symbol}

/-- A symbol that is listed stands for one of the statements. -/
lemma mem_of_mem_foldl_setNew {σs : List Symbol} {bs : Bindings String Symbol}
    (h : (name, σ) ∈ σs.foldl (fun bs σ => bs.setNew σ.name σ) bs) :
    (name, σ) ∈ bs ∨ σ ∈ σs ∧ σ.name = name := by
  induction σs generalizing bs with
  | nil => exact Or.inl h
  | cons τ σs ih =>
      rcases ih h with h | ⟨h, hname⟩
      · rcases Bindings.mem_setNew h with h | h
        · exact Or.inl h
        · cases h
          exact Or.inr ⟨List.mem_cons_self, rfl⟩
      · exact Or.inr ⟨List.mem_cons_of_mem _ h, hname⟩

/-- A symbol stands for a statement that the parser finds. -/
lemma exists_statement (h : (name, σ) ∈ (ofText text).symbols) :
    σ.name = name ∧
      ∃ n ∈ statementsOf (Parser.ofSource text false).program,
        Symbol.ofStatement? n = some σ := by
  obtain h | ⟨h, hname⟩ := mem_of_mem_foldl_setNew h
  · cases h
  · exact ⟨hname, List.mem_filterMap.mp h⟩

/-- The statement is a `let`. -/
lemma exists_letStmt (h : (name, σ) ∈ (ofText text).symbols) :
    σ.name = name ∧ ∃ t u v,
      .letStmt t u v ∈ statementsOf (Parser.ofSource text false).program ∧
        u.text = name ∧ u.position = σ.position := by
  obtain ⟨hname, n, hn, hσ⟩ := exists_statement h
  cases n with
  | letStmt t u v =>
      cases hσ
      exact ⟨hname, t, u, v, hn, hname, rfl⟩
  | _ => cases hσ

/-- The name of a symbol is one in its text. -/
lemma exists_token (h : (name, σ) ∈ (ofText text).symbols) :
    σ.name = name ∧ ∃ t ∈ Token.stream text, t.kind = .ident ∧ t.text = name ∧
      t.position = σ.position := by
  obtain ⟨hname, t, u, v, hn, htext, hposition⟩ := exists_letStmt h
  obtain ⟨ss, hss, hbinds⟩ := Parser.bindsFrom_ofSource text false
  rw [hss] at hn
  obtain ⟨hu, hkind⟩ := hbinds _ hn t u v rfl
  exact ⟨hname, u, hu, hkind, htext, hposition⟩

/-- **Where symbols stand.**  Each symbol of a text stands behind the part of it
that leads to its position.  An editor finds its name in the line, and at the
column, where this part ends as an editor counts lines: as many lines ahead of
the position as there are characters in this part that end a line for an editor
only, and where there are none, at the position itself. -/
theorem stands (h : (name, σ) ∈ (ofText text).symbols) :
    ∃ before behind, text.toList = before ++ (name.toList ++ behind) ∧
      σ.position = Position.start.after before ∧
      name.toList <+:
        (Editor.lineOf text (Lines.after .start before).line).drop
          (Lines.after .start before).column ∧
      (Lines.after .start before).line =
        σ.position.line + (Lines.foreign before).length ∧
      (Lines.foreign before = [] →
        Lines.after .start before = σ.position) := by
  obtain ⟨-, t, ht, hkind, rfl, hposition⟩ := exists_token h
  obtain ⟨before, behind, htext, hplace, hne, hword⟩ :=
    Token.exists_before ht hkind
  rw [← hposition, hplace]
  refine ⟨before, behind, htext, rfl, ?_, ?_, Lines.after_eq⟩
  · have hstart : Position.start =
        ⟨([] : List (List Char)).length, ([] : List Char).length⟩ := rfl
    rw [Editor.lineOf, htext]
    exact Lines.prefix_splitFrom hword hne behind hstart
  · rw [Lines.line_after 0 rfl, Nat.zero_add]

/-- Behind a comment with a line separator in it an editor is a line ahead. -/
theorem stands_separated :
    ("x", ⟨"x", .value, ⟨1, 4⟩, []⟩) ∈
        (ofText "// one\u2028// two\nlet x = 1;").symbols ∧
      ∃ before behind, "// one\u2028// two\nlet x = 1;".toList =
          before ++ ("x".toList ++ behind) ∧
        ⟨1, 4⟩ = Position.start.after before ∧
        "x".toList <+: (Editor.lineOf "// one\u2028// two\nlet x = 1;"
          (Lines.after .start before).line).drop
            (Lines.after .start before).column ∧
        (Lines.after .start before).line =
          1 + (Lines.foreign before).length ∧
        (Lines.foreign before = [] →
          Lines.after .start before = ⟨1, 4⟩) := by
  have hx : ("x", ⟨"x", .value, ⟨1, 4⟩, []⟩) ∈
      (ofText "// one\u2028// two\nlet x = 1;").symbols := by
    decide +kernel
  exact ⟨hx, stands hx⟩

/-- Where its position says, something else may stand there. -/
theorem not_stands : ¬ ∀ text name σ,
    (name, σ) ∈ (ofText text).symbols →
    name.toList <+:
      (Editor.lineOf text σ.position.line).drop σ.position.column := by
  intro h
  have hx := h "// one\u2028// two\nlet x = 1;" "x"
    ⟨"x", .value, ⟨1, 4⟩, []⟩ (by decide +kernel)
  revert hx
  decide +kernel

end Index

end MonkeyLang

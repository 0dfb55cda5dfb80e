/-
What is shown where a name is bound.

* `Lines.foreign_append`: what stands before a word counts on its own;
* `Index.exists_line`: so stands each symbol of a text in which an editor counts
  lines as the positions of tokens do;
* `Index.get?_of_mem`: a symbol that is listed is found under its name;
* `Documents.hover_symbol`: there a hover shows what the symbol is.
-/
import MonkeyLang.Proofs.Editor.Words

namespace MonkeyLang

/-! ### Words that stand apart -/

namespace WordChar

/-- Where a word stands apart in a text, it does so in its line. -/
lemma Apart.line {before behind front : List Char} (h : Apart before behind)
    (hfront : front <:+ before) (q : Char → Bool) :
    Apart front (behind.takeWhile q) := by
  constructor
  · intro c hc
    obtain ⟨more, rfl⟩ := hfront
    refine h.1 c ?_
    have hne : front ≠ [] := by
      rintro rfl
      cases hc
    rwa [List.getLast?_append_of_ne_nil _ hne]
  · intro c hc
    rw [List.head?_takeWhile] at hc
    exact h.2 c (Option.filter_eq_some_iff.mp hc).1

end WordChar

/-! ### Symbols in their lines -/

namespace Lines

variable {word behind : List Char}

/-- What stands before a word counts on its own. -/
lemma foreign_append (hword : ∀ c ∈ word, isBreak c = false) (hne : word ≠ [])
    (before behind : List Char) :
    foreign (before ++ (word ++ behind)) =
      foreign before ++ foreign (word ++ behind) := by
  fun_induction foreign before with
  | case1 => rfl
  | case2 before ih => rw [List.cons_append, List.cons_append, foreign, ih]
  | case3 c before hpair hforeign ih =>
      rw [List.cons_append, foreign_cons (no_pair_append hword hne hpair _),
        if_pos hforeign, ih, List.cons_append]
  | case4 c before hpair hforeign ih =>
      rw [List.cons_append, foreign_cons (no_pair_append hword hne hpair _),
        if_neg hforeign, ih]

/-- What stands behind a text stands in a line behind the end of the text. -/
lemma exists_lineOf (hword : ∀ c ∈ word, isBreak c = false) (hne : word ≠ [])
    {text : String} {before : List Char}
    (htext : text.toList = before ++ (word ++ behind)) :
    ∃ front, front <:+ before ∧
      front.length = (after .start before).column ∧
      Editor.lineOf text (after .start before).line =
        front ++ (word ++ behind.takeWhile (!isBreak ·)) := by
  have hstart : Position.start =
      ⟨([] : List (List Char)).length, ([] : List Char).length⟩ := rfl
  rw [Editor.lineOf, htext]
  exact exists_getD_splitFrom hword hne behind hstart

end Lines

namespace Index

open WordChar

variable {text name : String} {σ : Symbol}

/-- The name of a symbol stands between `let` and an equals sign. -/
lemma exists_between (h : (name, σ) ∈ (ofText text).symbols) :
    ∃ t : Token, t.Between (Token.beforeEnd (Token.stream text)) ∧
      t.text = name ∧ t.position = σ.position := by
  obtain ⟨-, t, u, v, hn, htext, hposition⟩ := exists_letStmt h
  obtain ⟨ss, hss, hbetween⟩ :=
    Parser.between_ofTokens (Token.stream text) false
  rw [Parser.ofSource, hss] at hn
  exact ⟨u, hbetween _ hn t u v rfl, htext, hposition⟩

/-- Where an editor counts lines as the positions of tokens do, the name of a
symbol stands apart in the line and at the column of its position. -/
theorem exists_line (h : (name, σ) ∈ (ofText text).symbols)
    (hlines : Lines.foreign text.toList = []) :
    ∃ front tail, Editor.lineOf text σ.position.line =
        front ++ (name.toList ++ tail) ∧
      front.length = σ.position.column ∧ Apart front tail ∧
      name.toList ≠ [] ∧ ∀ c ∈ name.toList, isWordChar c = true := by
  obtain ⟨t, ht, rfl, hposition⟩ := exists_between h
  obtain ⟨before, behind, htext, hplace, hne, hword, hapart⟩ := ht.exists_apart
  have hinline : ∀ c ∈ t.text.toList, Lines.isBreak c = false :=
    fun c hc => Piece.isBreak_of_isWordPart (hword c hc)
  rw [htext, Lines.foreign_append hinline hne, List.append_eq_nil_iff] at hlines
  have hafter : Lines.after .start before = σ.position := by
    rw [Lines.after_eq hlines.1, ← hplace, hposition]
  obtain ⟨front, hfront, hcolumn, hline⟩ :=
    Lines.exists_lineOf hinline hne htext
  rw [hafter] at hcolumn hline
  exact ⟨front, _, hline, hcolumn, hapart.line hfront _, hne,
    fun c hc => isWordChar_of_isWordPart (hword c hc)⟩

/-- The symbols of a text have different names. -/
lemma nodup_keys_symbolsOf (ns : List Node) :
    (Bindings.keys (symbolsOf ns)).Nodup := by
  rw [symbolsOf]
  induction ns.filterMap Symbol.ofStatement? using List.reverseRecOn with
  | nil => exact List.nodup_nil
  | append_singleton σs σ ih =>
      rw [List.foldl_append]
      exact Bindings.nodup_keys_setNew ih σ.name σ

/-- A symbol that is listed is found under its name. -/
lemma get?_of_mem (h : (name, σ) ∈ (ofText text).symbols) :
    Bindings.get? name (ofText text).symbols = some σ :=
  (Bindings.get?_eq_some_iff (nodup_keys_symbolsOf _)).mpr h

end Index

/-! ### Hovers -/

namespace Documents

open Editor

variable {ds : Documents} {uri text name : String} {σ : Symbol}

/-- **A hover over a symbol describes it.**  Let a document be open in whose text
an editor counts lines as the positions of tokens do.  At each character of the
name of a symbol where the symbol is recorded, and at the end of it, a hover shows
that symbol: its signature, or else that of the function of the language of this
name, or else its name, what kind it is, and where it is bound, counted from
one. -/
theorem hover_symbol (hopen : ds.get? uri = some (.ofText text))
    (hlines : Lines.foreign text.toList = [])
    (hσ : (name, σ) ∈ (Index.ofText text).symbols) {k : ℕ}
    (hk : k ≤ name.length) :
    ds.hover uri ⟨σ.position.line, σ.position.column + k⟩ =
      .ok (some ((σ.signature?.or (builtinSignatures.lookup name)).getD name ++
        " — " ++ σ.kind.label ++ " (defined at " ++
        toString (σ.position.line + 1) ++ ":" ++
        toString (σ.position.column + 1) ++ ")")) := by
  obtain ⟨front, tail, hline, hcolumn, hapart, hne, hword⟩ :=
    Index.exists_line hσ hlines
  have hfound : wordAt (lineOf text σ.position.line) (σ.position.column + k) =
      .ok (some name) := by
    rw [← String.length_toList] at hk
    rw [hline, ← hcolumn, wordAt_of_apart hapart hword hk,
      asWord_of_ne_nil hne, String.ofList_toList]
  have hname : σ.name = name := (Index.exists_letStmt hσ).1
  have hget := Index.get?_of_mem hσ
  rw [hover, hopen]
  show (wordAt (lineOf text σ.position.line) (σ.position.column + k) >>= fun word =>
    pure (word.bind (describeWord (.ofText text)))) = _
  rw [hfound]
  show Except.ok (describeWord (.ofText text) name) = _
  rw [describeWord, hget]
  show Except.ok (some (describe (.ofText text) σ)) = _
  rw [describe, Index.signature?, hname, hget, Option.bind_some]

/-- At the end of a name that a comment stands before, and that a function of the
language has, too. -/
theorem hover_symbol_len :
    ("len", ⟨"len", .value, ⟨2, 1⟩, []⟩) ∈
        (Index.ofText "let a = 1;\r\nlet// b\n\tlen= 2").symbols ∧
      hover "a" ⟨2, 4⟩ [("a", .ofText "let a = 1;\r\nlet// b\n\tlen= 2")] =
        .ok (some "len(value) -> INTEGER — var (defined at 3:2)") := by
  have hσ : ("len", ⟨"len", .value, ⟨2, 1⟩, []⟩) ∈
      (Index.ofText "let a = 1;\r\nlet// b\n\tlen= 2").symbols := by
    decide +kernel
  have hopen : Bindings.get? "a"
      [("a", Document.ofText "let a = 1;\r\nlet// b\n\tlen= 2")] =
        some (.ofText "let a = 1;\r\nlet// b\n\tlen= 2") := by
    rw [Bindings.get?, if_pos rfl]
  have hshown := hover_symbol hopen (by decide +kernel) hσ (k := 3) (by decide)
  refine ⟨hσ, hshown.trans ?_⟩
  decide +kernel

end Documents

end MonkeyLang

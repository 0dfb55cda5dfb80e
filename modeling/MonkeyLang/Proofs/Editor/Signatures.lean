/-
The signatures that are shown where a symbol is called.

* `Token.IsName`: a text is spelled as a name; no sign and no blank stands in it;
* `splitCommas_listed`: names that are listed come back from their list;
* `Documents.paramsOf_written`: and so from the signature of a symbol;
* `Index.isName_of_mem`: the names and the parameters of symbols are names;
* `Editor.calleeBefore_name`: behind a name and a parenthesis that name is called;
* `Documents.signature_symbol`: there the signature of the symbol is shown, and
  its parameters.
-/
import MonkeyLang.Proofs.Editor.Hover
import MonkeyLang.Proofs.Editor.Requests
import MonkeyLang.Proofs.Parser.Printing

namespace MonkeyLang

/-! ### Names -/

/-- A text is spelled as the name of a variable is. -/
structure Token.IsName (text : String) : Prop where
  ne_nil : text.toList ≠ []
  isWordPart : ∀ c ∈ text.toList, Piece.isWordPart c = true

/-- No character of a word is blank. -/
lemma Blank.isBlank_of_isWordPart {c : Char} (h : Piece.isWordPart c = true) :
    Blank.isBlank c = false := by
  obtain ⟨hlow, hhigh⟩ := Piece.toNat_of_isWordPart h
  have hwide : c.toNat ∉ wideSpaces := by
    intro hspace
    have hgap : ∀ k ∈ wideSpaces, 128 ≤ k := by decide
    have hle := hgap _ hspace
    omega
  have hspace : c ≠ ' ' := by
    rintro rfl
    cases h
  simp only [isBlank, isSpace, isSeparator, Bool.or_eq_false_iff,
    Bool.and_eq_false_iff, decide_eq_false_iff_not, List.contains_eq_mem]
  exact ⟨⟨⟨hspace, Or.inr (by omega)⟩, hwide⟩, Or.inr (by omega)⟩

namespace Token.IsName

variable {text : String}

/-- No other character stands in a name. -/
lemma notMem (h : IsName text) {c : Char} (hc : Piece.isWordPart c = false) :
    c ∉ text.toList := by
  intro hmem
  rw [h.isWordPart c hmem] at hc
  cases hc

lemma isWordChar (h : IsName text) :
    ∀ c ∈ text.toList, WordChar.isWordChar c = true :=
  fun c hc => WordChar.isWordChar_of_isWordPart (h.isWordPart c hc)

/-- Without blanks at its ends a name is what it is. -/
lemma trim_eq (h : IsName text) :
    Blank.trim Blank.isBlank text.toList = text.toList :=
  Blank.trim_eq_self h.ne_nil
    (Blank.isBlank_of_isWordPart (h.isWordPart _ (List.head_mem h.ne_nil)))
    (Blank.isBlank_of_isWordPart (h.isWordPart _ (List.getLast_mem h.ne_nil)))

end Token.IsName

namespace Documents

open Piece Token

/-! ### Lists of names -/

/-- What stands before the first comma is the first part. -/
lemma splitCommas_append {cs : List Char} (h : ',' ∉ cs) (ds : List Char) :
    splitCommas (cs ++ ',' :: ds) = cs :: splitCommas ds := by
  induction cs with
  | nil => rfl
  | cons c cs ih =>
      obtain ⟨hc, hcs⟩ := not_or.mp (mt List.mem_cons.mpr h)
      rw [List.cons_append, splitCommas, ih hcs]
      rintro rfl
      exact hc rfl

/-- Without a comma there is one part. -/
lemma splitCommas_eq_self {cs : List Char} (h : ',' ∉ cs) :
    splitCommas cs = [cs] := by
  induction cs with
  | nil => rfl
  | cons c cs ih =>
      obtain ⟨hc, hcs⟩ := not_or.mp (mt List.mem_cons.mpr h)
      rw [splitCommas, ih hcs]
      rintro rfl
      exact hc rfl

/-- Texts without commas that are listed are the parts of the list, each but the
first one behind a blank. -/
lemma splitCommas_listed {cs : List Char} (h : ',' ∉ cs) {texts : List String}
    (htexts : ∀ s ∈ texts, ',' ∉ s.toList) :
    splitCommas (cs ++ moreText texts) =
      cs :: texts.map fun s => ' ' :: s.toList := by
  induction texts generalizing cs with
  | nil =>
      rw [moreText, List.flatMap_nil, List.append_nil, splitCommas_eq_self h]
      rfl
  | cons s texts ih =>
      obtain ⟨hs, htexts⟩ := List.forall_mem_cons.mp htexts
      have hblank : ',' ∉ ' ' :: s.toList :=
        mt List.mem_cons.mp (not_or.mpr ⟨by decide, hs⟩)
      rw [moreText, List.flatMap_cons, List.cons_append, splitCommas_append h,
        ← moreText, ih hblank htexts, List.map_cons]

/-- A list of names has no other signs in it than commas. -/
lemma mem_intercalate {names : List String} (h : ∀ s ∈ names, IsName s) :
    ∀ c ∈ (String.intercalate ", " names).toList,
      isWordPart c = true ∨ c = ',' ∨ c = ' ' := by
  cases names with
  | nil => exact fun c hc => absurd hc List.not_mem_nil
  | cons s names =>
      obtain ⟨hs, hnames⟩ := List.forall_mem_cons.mp h
      intro c hc
      rw [toList_intercalate, List.mem_append] at hc
      rcases hc with hc | hc
      · exact Or.inl (hs.isWordPart c hc)
      · obtain ⟨s', hs', hc⟩ := List.mem_flatMap.mp hc
        rcases List.mem_cons.mp hc with hc | hc
        · exact Or.inr (Or.inl hc)
        rcases List.mem_cons.mp hc with hc | hc
        · exact Or.inr (Or.inr hc)
        · exact Or.inl ((hnames s' hs').isWordPart c hc)

/-- The parts of a list of names are the names, but for blanks and an empty
part. -/
lemma trimmed_parts {names : List String} (h : ∀ s ∈ names, IsName s) :
    (((splitCommas (String.intercalate ", " names).toList).map
        (Blank.trim Blank.isBlank)).filter (!·.isEmpty)).map String.ofList =
      names := by
  cases names with
  | nil => rfl
  | cons s names =>
      obtain ⟨hs, hnames⟩ := List.forall_mem_cons.mp h
      -- behind a comma there stands a blank, and a name has none at its ends
      have htrim (s : String) (hs : IsName s) :
          Blank.trim Blank.isBlank (' ' :: s.toList) = s.toList := by
        rw [Blank.trim, List.dropWhile_cons_of_pos (by decide), ← Blank.trim,
          hs.trim_eq]
      have hparts : (splitCommas (String.intercalate ", " (s :: names)).toList).map
          (Blank.trim Blank.isBlank) = (s :: names).map String.toList := by
        rw [toList_intercalate, splitCommas_listed (hs.notMem (by decide))
          fun s hs => (hnames s hs).notMem (by decide), List.map_cons,
          hs.trim_eq, List.map_map, List.map_cons]
        congr 1
        exact List.map_congr_left fun s hs => htrim s (hnames s hs)
      have hfilter : ((s :: names).map String.toList).filter (!·.isEmpty) =
          (s :: names).map String.toList := by
        refine List.filter_eq_self.mpr fun cs hcs => ?_
        obtain ⟨s', hs', rfl⟩ := List.mem_map.mp hcs
        simpa using (h s' hs').ne_nil
      rw [hparts, hfilter, List.map_map]
      simp

/-! ### Signatures -/

/-- **The parameters come back.**  In the signature of a symbol, under a keyword
without a parenthesis, its parameters are found, whatever names they are, in
their order, and none if there are none. -/
theorem paramsOf_written {σ : Symbol} (hname : IsName σ.name) {keyword : String}
    (hkeyword : '(' ∉ keyword.toList) (hparams : ∀ p ∈ σ.params, IsName p) :
    paramsOf (σ.written keyword) = σ.params := by
  let inside := (String.intercalate ", " σ.params).toList
  have hlabel : (σ.written keyword).toList =
      (σ.name.toList ++ (" = ".toList ++ keyword.toList)) ++
        '(' :: (inside ++ [')']) := by
    simp [Symbol.written, inside]
  -- the first parenthesis is the one behind the keyword
  have hfront : ∀ c ∈ σ.name.toList ++ (" = ".toList ++ keyword.toList),
      (c != '(') = true := by
    intro c hc
    rw [bne_iff_ne]
    rintro rfl
    rcases List.mem_append.mp hc with hc | hc
    · exact hname.notMem (by decide) hc
    rcases List.mem_append.mp hc with hc | hc
    · revert hc
      decide
    · exact hkeyword hc
  -- and none is closed before all parameters are over
  have hinside : ∀ c ∈ inside, (c != ')') = true := by
    intro c hc
    rw [bne_iff_ne]
    rintro rfl
    rcases mem_intercalate hparams _ hc with h | h | h <;> cases h
  have hbehind : ((σ.written keyword).toList.dropWhile (· != '(')).tail =
      inside ++ [')'] := by
    rw [hlabel, List.dropWhile_append_of_pos hfront,
      List.dropWhile_cons_of_neg (by decide), List.tail_cons]
  have htaken : (inside ++ [')']).takeWhile (· != ')') = inside := by
    rw [List.takeWhile_append_of_pos hinside,
      List.takeWhile_cons_of_neg (by decide), List.append_nil]
  rw [paramsOf, hbehind, htaken]
  exact trimmed_parts hparams

end Documents

/-! ### Symbols -/

/-- The names that a node binds or takes as parameters are spelled as such. -/
def Node.WellNamed (n : Node) : Prop :=
  (∀ p ∈ (Symbol.classify n).2, Token.IsName p) ∧
    ∀ t u v, n = .letStmt t u v →
      Token.IsName u.text ∧ ∀ p ∈ (Symbol.classify v).2, Token.IsName p

/-- So it is with all that the grammar makes of tokens whose names are. -/
lemma Node.builds_wellNamed :
    Grammar.Builds (fun t => t.kind = .ident → Token.IsName t.text)
      WellNamed := by
  have hparams {ps : List Node}
      (h : ∀ p ∈ ps, Grammar.Parameter
        (fun t => t.kind = .ident → Token.IsName t.text) p) :
      ∀ s ∈ ps.map Node.name, Token.IsName s := by
    intro s hs
    obtain ⟨p, hp, rfl⟩ := List.mem_map.mp hs
    obtain ⟨u, rfl, hu, hkind⟩ := h p hp
    exact hu hkind
  constructor
  case letStmt =>
    intro t u v hu hkind hv
    refine ⟨List.forall_mem_nil _, ?_⟩
    rintro _ _ _ ⟨⟩
    exact ⟨hu hkind, hv.1⟩
  case function =>
    intro t ps b hps _
    refine ⟨hparams hps, ?_⟩
    rintro _ _ _ ⟨⟩
  case macroFn =>
    intro t ps b hps _
    refine ⟨hparams hps, ?_⟩
    rintro _ _ _ ⟨⟩
  -- the other nodes have no parameters and bind nothing
  all_goals
    intros
    refine ⟨List.forall_mem_nil _, ?_⟩
    rintro _ _ _ ⟨⟩

namespace Index

variable {text name : String} {σ : Symbol}

/-- A symbol and its parameters have names. -/
theorem isName_of_mem (h : (name, σ) ∈ (ofText text).symbols) :
    Token.IsName name ∧ ∀ p ∈ σ.params, Token.IsName p := by
  obtain ⟨rfl, n, hn, hσ⟩ := exists_statement h
  obtain ⟨ss, hss, hnamed⟩ := Node.builds_wellNamed.ofTokens nofun
    (fun t (ht : t ∈ Token.stream text) hkind => by
      obtain ⟨_, _, _, _, hne, hword⟩ := Token.exists_word ht hkind
      exact ⟨hne, hword⟩) false
  rw [Parser.ofSource, hss] at hn
  cases n with
  | letStmt t u v =>
      cases hσ
      exact (hnamed _ hn).2 t u v rfl
  | _ => cases hσ

end Index

/-! ### Calls -/

namespace Editor

open WordChar

/-- Behind a name and a parenthesis that name is called. -/
lemma calleeBefore_name {front : List Char} {name : String}
    (hfront : ∀ c ∈ front.getLast?, WordChar.isWordChar c = false)
    (h : Token.IsName name) :
    calleeBefore (front ++ (name.toList ++ ['('])) = some name := by
  have hback : (front ++ (name.toList ++ ['('])).reverse =
      '(' :: (front ++ name.toList).reverse := by
    simp
  rw [calleeBefore, hback, calleeFrom, List.reverse_reverse,
    runBefore_append h.isWordChar, runBefore_eq_nil hfront, List.nil_append,
    asWord_of_ne_nil h.ne_nil, String.ofList_toList]

end Editor

namespace Documents

open Editor

variable {ds : Documents} {uri text name : String} {σ : Symbol}

/-- **Help with a call of a symbol.**  Let a document be open, and let the line of
a place have before it the name of a function or a macro of its text, not behind a
word character, and an opening parenthesis.  Then the signature of that symbol is
shown, and with it the parameters that it has, in their order. -/
theorem signature_symbol (hopen : ds.get? uri = some (.ofText text))
    (hσ : (name, σ) ∈ (Index.ofText text).symbols) (hkind : σ.kind ≠ .value)
    {p : Position} {front : List Char}
    (hline : (lineOf text p.line).take p.column =
      front ++ (name.toList ++ ['(']))
    (hfront : ∀ c ∈ front.getLast?, WordChar.isWordChar c = false) :
    ds.answer (.signature uri p) = .ok (.signature (some
      ⟨name ++ " = " ++ (if σ.kind = .function then "fn" else "macro") ++ "(" ++
        String.intercalate ", " σ.params ++ ")", σ.params⟩)) := by
  obtain ⟨hnamed, hparams⟩ := Index.isName_of_mem hσ
  obtain rfl : σ.name = name := (Index.exists_letStmt hσ).1
  let keyword := if σ.kind = .function then "fn" else "macro"
  have hkeyword : '(' ∉ keyword.toList := by
    by_cases h : σ.kind = .function
    · simp [keyword, h]
    · simp [keyword, h]
  have hlabel : (Index.ofText text).signature? σ.name =
      some (σ.written keyword) := by
    rw [Index.signature?, Index.get?_of_mem hσ, Option.bind_some,
      Symbol.signature?]
    cases h : σ.kind with
    | value => exact absurd h hkind
    | function => simp [keyword, h]
    | macroFn => simp [keyword, h]
  -- what stands before the place ends in the call of the name
  have hhelp : ds.signatureHelp uri p =
      some ⟨σ.written keyword, σ.params⟩ := by
    rw [signatureHelp_eq, hopen, Option.bind_some]
    show (calleeBefore ((lineOf text p.line).take p.column)).bind _ = _
    rw [hline, calleeBefore_name hfront hnamed, Option.bind_some, signatureOf]
    show ((Index.ofText text).signature? σ.name).map _ = _
    rw [hlabel, Option.map_some, paramsOf_written hnamed hkeyword hparams]
  rw [answer, signatureAt_eq, hhelp]
  rfl

/-- A text that calls a function of two parameters in the arguments of a macro
without any. -/
def nestedText : String :=
  "let f = fn(x, y_2) \x7b y_2 \x7d;\nlet m = macro() \x7b quote(1) \x7d;\nm(f("

/-- Behind the second parenthesis the function is shown, and behind the first one
the macro. -/
theorem signature_symbol_nested :
    answer [("a", .ofText nestedText)] (.signature "a" ⟨2, 4⟩) =
        .ok (.signature (some ⟨"f = fn(x, y_2)", ["x", "y_2"]⟩)) ∧
      answer [("a", .ofText nestedText)] (.signature "a" ⟨2, 2⟩) =
        .ok (.signature (some ⟨"m = macro()", []⟩)) := by
  have hopen : Bindings.get? "a" [("a", Document.ofText nestedText)] =
      some (.ofText nestedText) := by
    rw [Bindings.get?, if_pos rfl]
  have hf : ("f", ⟨"f", .function, ⟨0, 4⟩, ["x", "y_2"]⟩) ∈
      (Index.ofText nestedText).symbols := by decide +kernel
  have hm : ("m", ⟨"m", .macroFn, ⟨1, 4⟩, []⟩) ∈
      (Index.ofText nestedText).symbols := by decide +kernel
  have hinner : (lineOf nestedText 2).take 4 =
      ['m', '('] ++ ("f".toList ++ ['(']) := by decide +kernel
  have houter : (lineOf nestedText 2).take 2 = [] ++ ("m".toList ++ ['(']) := by
    decide +kernel
  have hsign : ∀ c ∈ ['m', '('].getLast?, WordChar.isWordChar c = false := by
    rintro c ⟨⟩
    decide
  have hstart : ∀ c ∈ ([] : List Char).getLast?,
      WordChar.isWordChar c = false := by
    rintro c ⟨⟩
  exact ⟨signature_symbol hopen hf (by decide) (p := ⟨2, 4⟩) hinner hsign,
    signature_symbol hopen hm (by decide) (p := ⟨2, 2⟩) houter hstart⟩

end Documents

end MonkeyLang

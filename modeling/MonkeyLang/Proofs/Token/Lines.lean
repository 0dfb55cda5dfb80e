/-
Texts that go on in a new line.

* `Piece.Ended`: a piece that is over where it ends, whatever follows in a new
  line;
* `first_border`: which such piece comes first depends on what stands behind it
  by one character, which may as well be a line feed;
* `cut_before` and `cut_line`: so pieces that are over are cut as they are when
  something else follows in a new line, and then that is cut;
* `ended_of_tokens`: pieces are over if no token is illegal and the last is no
  string; `ended_of_no_quote`: so they are if the text has no quotes;
* `Token.stream_of_ended`, `Token.stream_line`: the tokens of such a text and a
  line feed are followed by those of what stands behind, in other places.
-/
import MonkeyLang.Proofs.Parser.Balance
import MonkeyLang.Proofs.Token.Scanning
import MonkeyLang.Tree.Alike

namespace MonkeyLang

namespace Piece

/-! ### The first piece -/

/-- A piece that is over where it ends: no string without its closing quote,
and no quote that starts no string. -/
def Ended : Piece → Prop
  | string _ closed => closed = true
  | illegal c => c ≠ '"'
  | _ => True

/-- Characters of a class, up to a text that starts with another one or with a
line feed. -/
lemma run_border {q : Char → Bool} (hq : q '\n' = false)
    {cs ds rest : List Char} (hcs : ds ++ cs.dropWhile q = cs)
    (hhead : rest.head? = (cs.dropWhile q).head? ∨ rest.head? = some '\n') :
    (ds ++ rest).takeWhile q = cs.takeWhile q ∧
      (ds ++ rest).dropWhile q = rest := by
  have htake : ds = cs.takeWhile q :=
    List.append_cancel_right (hcs.trans List.takeWhile_append_dropWhile.symm)
  have hrest : ∀ c ∈ rest.head?, q c = false := by
    intro c hc
    rcases hhead with hhead | hhead
    · have hnot := List.head?_dropWhile_not q cs
      rw [← hhead, Option.mem_def.mp hc] at hnot
      simpa using hnot
    · rw [hhead] at hc
      obtain rfl := Option.some.inj hc
      exact hq
  rw [htake]
  exact takeWhile_dropWhile (List.all_eq_true.mp List.all_takeWhile) hrest

/-- A character that is no backslash starts no escape. -/
lemma stringBody_cons {c : Char} {cs : List Char} (hbackslash : c ≠ '\\')
    (hquote : c ≠ '"') :
    stringBody (c :: cs) = (stringBody cs).map
      fun (body, closed, rest) => (c :: body, closed, rest) := by
  rw [stringBody]
  · exact hquote
  · rintro rfl
    exact absurd rfl hbackslash
  · rintro _ _ rfl
    exact absurd rfl hbackslash

/-- A string literal is read up to its quote, whatever stands behind it. -/
lemma stringBody_closed {cs body rest : List Char}
    (h : stringBody cs = some (body, true, rest)) (rest' : List Char) :
    stringBody (body ++ '"' :: rest') = some (body, true, rest') := by
  fun_induction stringBody cs generalizing body with
  | case1 => cases h
  | case2 =>
      cases h
      rfl
  | case3 => cases h
  | case4 c cs ih =>
      obtain ⟨⟨b, k, r⟩, hb, he⟩ := Option.map_eq_some_iff.mp h
      cases he
      simp [stringBody, ih hb]
  | case5 c cs hquote hlast hescape ih =>
      obtain ⟨⟨b, k, r⟩, hb, he⟩ := Option.map_eq_some_iff.mp h
      cases he
      have hbackslash : c ≠ '\\' := by
        rintro rfl
        cases cs with
        | nil => exact hlast rfl rfl
        | cons d ds => exact hescape d ds rfl rfl
      rw [List.cons_append, stringBody_cons hbackslash hquote, ih hb]
      rfl

/-- Without one it takes the whole text. -/
lemma stringBody_open {cs body rest : List Char}
    (h : stringBody cs = some (body, false, rest)) : rest = [] := by
  fun_induction stringBody cs generalizing body with
  | case1 => cases h; rfl
  | case2 => cases h
  | case3 => cases h
  | case4 c cs ih =>
    obtain ⟨⟨b, k, r⟩, hb, he⟩ := Option.map_eq_some_iff.mp h
    cases he
    exact ih hb
  | case5 c cs _ _ _ ih =>
    obtain ⟨⟨b, k, r⟩, hb, he⟩ := Option.map_eq_some_iff.mp h
    cases he
    exact ih hb

/-- An operator is read with the same text behind it if that starts alike, or
with a line feed. -/
lemma operator?_border {c : Char} {ds rest rest' : List Char}
    {kind : Token.Kind} (h : operator? c (ds ++ rest) = some (kind, rest))
    (hhead : rest'.head? = rest.head? ∨ rest'.head? = some '\n') :
    operator? c (ds ++ rest') = some (kind, rest') := by
  -- one character or two: a longer operator would need a sign of equality
  -- behind the character
  by_cases hlonger : ∀ es, ds ++ rest = '=' :: es → c ≠ '=' ∧ c ≠ '!'
  · rw [operator?_symbol hlonger] at h
    obtain ⟨k, hk, hkind⟩ := Option.map_eq_some_iff.mp h
    obtain ⟨rfl, hds⟩ := Prod.mk.inj hkind
    obtain rfl : ds = [] := List.append_left_eq_self.mp hds
    have hlonger' : ∀ es, [] ++ rest' = '=' :: es → c ≠ '=' ∧ c ≠ '!' := by
      rintro es rfl
      rcases hhead with hhead | hhead
      · obtain ⟨es, hes⟩ := List.head?_eq_some_iff.mp hhead.symm
        exact hlonger es hes
      · cases hhead
    rw [operator?_symbol hlonger', hk]
    rfl
  · obtain ⟨es, hes, hc⟩ :
        ∃ es, ds ++ rest = '=' :: es ∧ (c = '=' ∨ c = '!') := by
      simpa [or_iff_not_imp_left] using hlonger
    have hrest : es = rest := by
      rw [hes] at h
      rcases hc with rfl | rfl <;> exact (Prod.mk.inj (Option.some.inj h)).2
    obtain rfl : ds = ['='] := by
      rw [hrest] at hes
      exact List.append_cancel_right hes
    rcases hc with rfl | rfl <;> cases h <;> rfl

/-- The text of the first piece is what it was read from. -/
lemma text_of_first {c : Char} {ds rest : List Char} {piece : Piece}
    (h : first c (ds ++ rest) = (piece, rest)) : piece.text = c :: ds := by
  have hwhole := text_first c (ds ++ rest)
  rw [h, ← List.cons_append] at hwhole
  exact List.append_cancel_right hwhole

/-- **The first piece.**  A piece that is over is the first one also before a
text that starts as what stood behind it did, or with a line feed. -/
theorem first_border {c : Char} {ds rest rest' : List Char} {piece : Piece}
    (h : first c (ds ++ rest) = (piece, rest)) (hended : piece.Ended)
    (hhead : rest'.head? = rest.head? ∨ rest'.head? = some '\n') :
    first c (ds ++ rest') = (piece, rest') := by
  have htext := text_of_first h
  rw [first_eq_iff] at h ⊢
  generalize hcs : ds ++ rest = cs at h
  -- by the rule that reads the piece: a run of characters ends where the next
  -- one does not belong to it, and neither does a line feed
  cases h with
  | newline =>
      obtain rfl : ds = [] := List.append_left_eq_self.mp hcs
      exact .newline rest'
  | blanks hc =>
      obtain ⟨htake, hdrop⟩ := run_border rfl hcs hhead
      simpa only [htake, hdrop] using First.blanks hc (ds ++ rest')
  | comment cs =>
      obtain rfl : '/' :: cs.takeWhile isInline = ds := (List.cons.inj htext).2
      obtain ⟨htake, hdrop⟩ := run_border rfl (List.cons.inj hcs).2 hhead
      rw [List.cons_append]
      simpa only [htake, hdrop] using
        First.comment (cs.takeWhile isInline ++ rest')
  | string h =>
      obtain rfl := hended
      obtain rfl : _ ++ ['"'] = ds := (List.cons.inj htext).2
      rw [List.append_assoc, List.singleton_append]
      exact .string (stringBody_closed h rest')
  | quote => exact absurd rfl hended
  | digits hc =>
      obtain ⟨htake, hdrop⟩ := run_border (by decide) hcs hhead
      simpa only [htake, hdrop] using First.digits hc (ds ++ rest')
  | word hc =>
      obtain ⟨htake, hdrop⟩ := run_border rfl hcs hhead
      simpa only [htake, hdrop] using First.word hc (ds ++ rest')
  | operator hslash h =>
      subst hcs
      refine .operator ?_ (operator?_border h hhead)
      rintro ⟨hc, hd⟩
      refine hslash ⟨hc, ?_⟩
      cases ds with
      | nil =>
          rcases hhead with hhead | hhead
          · exact hhead.symm.trans hd
          · cases hhead.symm.trans hd
      | cons => exact hd
  | illegal hline hblank hquote hdigit hword h =>
      obtain rfl : ds = [] := List.append_left_eq_self.mp hcs
      exact .illegal hline hblank hquote hdigit hword
        (operator?_eq_none.mpr (operator?_eq_none.mp h))

/-- Behind a string without its closing quote nothing is left. -/
lemma first_open {c : Char} {cs body rest : List Char}
    (h : first c cs = (string body false, rest)) : rest = [] := by
  cases first_eq_iff.mp h with
  | string h => exact stringBody_open h

/-! ### All pieces -/

/-- Pieces start with the first piece of their text. -/
lemma exists_first_of_cut {cs : List Char} {piece : Piece}
    {pieces : List Piece} (h : cut cs = piece :: pieces) :
    ∃ c ds rest, cs = c :: (ds ++ rest) ∧
      first c (ds ++ rest) = (piece, rest) ∧ cut rest = pieces := by
  obtain _ | ⟨c, cs⟩ := cs
  · cases h
  rw [cut_cons] at h
  obtain ⟨hpiece, hrest⟩ := List.cons.inj h
  have htext := text_first c cs
  obtain ⟨d, ds, hds⟩ := List.exists_cons_of_ne_nil (text_first_ne_nil c cs)
  rw [hds, List.cons_append] at htext
  obtain ⟨-, hcs⟩ := List.cons.inj htext
  refine ⟨c, ds, (first c cs).2, by rw [hcs], ?_, hrest⟩
  rw [hcs, ← hpiece]

/-- Pieces that are over are also read before a new line, whatever stood behind
them. -/
theorem cut_before {before behind : List Piece} {cs : List Char}
    (h : cut cs = before ++ behind) (hended : ∀ piece ∈ before, piece.Ended)
    (ds : List Char) :
    cut (before.flatMap text ++ '\n' :: ds) = before ++ newline :: cut ds := by
  induction before generalizing cs with
  | nil => exact cut_cons '\n' ds
  | cons piece before ih =>
      obtain ⟨hpiece, hbefore⟩ := List.forall_mem_cons.mp hended
      rw [List.cons_append] at h
      obtain ⟨c, es, rest, rfl, hfirst, hrest⟩ := exists_first_of_cut h
      -- the next character is that of the next piece, or the line feed
      have hhead : (before.flatMap text ++ '\n' :: ds).head? = rest.head? ∨
          (before.flatMap text ++ '\n' :: ds).head? = some '\n' := by
        rw [← flatMap_text_cut rest, hrest, List.flatMap_append]
        cases before.flatMap text with
        | nil => exact Or.inr rfl
        | cons => exact Or.inl rfl
      rw [List.flatMap_cons, text_of_first hfirst, List.append_assoc,
        List.cons_append, cut_cons, first_border hfirst hpiece hhead,
        ih hrest hbefore]
      rfl

/-- A text of pieces that are over is cut alike when a new line follows. -/
theorem cut_line {cs : List Char} (h : ∀ piece ∈ cut cs, piece.Ended)
    (ds : List Char) :
    cut (cs ++ '\n' :: ds) = cut cs ++ newline :: cut ds := by
  have hcut := cut_before (List.append_nil (cut cs)).symm h ds
  rwa [flatMap_text_cut] at hcut

/-- Where no token is illegal and the last one is no string, all pieces are
over. -/
lemma ended_of_tokens {cs : List Char} {p : Position}
    (hlegal : ∀ t ∈ tokens p (cut cs), t.kind ≠ .illegal)
    (hlast : ∀ t ∈ (tokens p (cut cs)).getLast?, t.kind ≠ .string) :
    ∀ piece ∈ cut cs, piece.Ended := by
  induction hlength : cs.length using Nat.strongRecOn generalizing cs p with
  | ind n ih =>
    obtain _ | ⟨c, cs⟩ := cs
    · exact fun piece hpiece => absurd hpiece List.not_mem_nil
    rw [List.length_cons] at hlength
    rw [cut_cons, tokens] at hlegal hlast
    rw [List.forall_mem_append] at hlegal
    have hrest := ih _ (by have hle := length_first_le c cs; omega) hlegal.2
      (fun t ht => hlast t (by rw [List.getLast?_append, ht]; rfl)) rfl
    rw [cut_cons, List.forall_mem_cons]
    refine ⟨?_, hrest⟩
    rcases hfirst : first c cs with ⟨piece, rest⟩
    rw [hfirst] at hlegal hlast
    cases piece with
    | illegal d => exact absurd rfl (hlegal.1 _ List.mem_cons_self)
    | string body closed =>
        cases closed with
        | true => rfl
        | false =>
            -- nothing is left behind it, so it is the last token
            rw [first_open hfirst] at hlast
            exact absurd rfl (hlast _ rfl)
    | _ => trivial

/-- A piece without quotes is over. -/
lemma ended_of_no_quote {piece : Piece} (h : '"' ∉ piece.text) :
    piece.Ended := by
  cases piece with
  | string body closed => exact absurd List.mem_cons_self h
  | illegal c =>
      rintro rfl
      exact h List.mem_cons_self
  | _ => trivial

/-! ### Tokens -/

/-- Pieces have the same tokens wherever they stand, places aside. -/
lemma tokens_bare (pieces : List Piece) (p q : Position) :
    (tokens p pieces).map Token.bare = (tokens q pieces).map Token.bare := by
  induction pieces generalizing p q with
  | nil => rfl
  | cons piece pieces ih =>
      have hpiece : (piece.token? p).toList.map Token.bare =
          (piece.token? q).toList.map Token.bare := by
        cases piece <;> rfl
      rw [tokens, tokens, List.map_append, List.map_append, hpiece, ih]

end Piece

/-- The tokens of a text are those of its pieces, up to the end token. -/
lemma Token.beforeEnd_stream (source : String) :
    Token.beforeEnd (Token.stream source) =
      Piece.tokens .start (Piece.cut source.toList) :=
  (List.append_cancel_right (Token.stream_eq source)).symm

/-- The tokens of pieces that are over are followed by those of the text that
stands in a new line behind them, in other places. -/
lemma Token.stream_of_ended {a : String}
    (h : ∀ piece ∈ Piece.cut a.toList, piece.Ended) (b : String) :
    ∃ us, Token.stream (a ++ "\n" ++ b) =
        Token.beforeEnd (Token.stream a) ++ us ∧
      us.map Token.bare = (Token.stream b).map Token.bare := by
  have hcut := Piece.cut_line h b.toList
  have htext : (a ++ "\n" ++ b).toList = a.toList ++ '\n' :: b.toList := by
    simp
  have hstream := congrArg
    (· ++ [Token.endAt (Position.start.after (a ++ "\n" ++ b).toList)])
    (Piece.tokens_append .start (Piece.cut a.toList)
      (.newline :: Piece.cut b.toList))
  rw [← hcut, ← htext, List.append_assoc] at hstream
  rw [Token.beforeEnd_stream]
  refine ⟨_, hstream, ?_⟩
  rw [Token.stream, List.map_append, List.map_append]
  exact congrArg (· ++ [.made .eof ""])
    (Piece.tokens_bare (Piece.cut b.toList) _ _)

/-- **In a new line.**  Where no token of a text is illegal and the last one
is no string, its tokens are followed by those of the text that stands in a
new line behind it, in other places. -/
theorem Token.stream_line {a : String}
    (hlegal : ∀ t ∈ Token.beforeEnd (Token.stream a), t.kind ≠ .illegal)
    (hlast : ∀ t ∈ (Token.beforeEnd (Token.stream a)).getLast?,
      t.kind ≠ .string) (b : String) :
    ∃ us, Token.stream (a ++ "\n" ++ b) =
        Token.beforeEnd (Token.stream a) ++ us ∧
      us.map Token.bare = (Token.stream b).map Token.bare := by
  rw [Token.beforeEnd_stream] at hlegal hlast
  exact Token.stream_of_ended (Piece.ended_of_tokens hlegal hlast) b

end MonkeyLang

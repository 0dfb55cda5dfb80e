/-
Parsing one stream behind another.

* `rounds_border`: the parser reads the statements of a stream that ends in a
  semicolon and leaves no bracket open, and then those of what stands behind
  it, as if it started there;
* `program_append`: so programs are appended to each other, the faults are
  those of the second stream, and what the first one binds stays in the index.
-/
import MonkeyLang.Editor.Index
import MonkeyLang.Proofs.Bindings
import MonkeyLang.Proofs.Parser.Balance
import MonkeyLang.Proofs.Parser.Border

namespace MonkeyLang

open Parse Grammar

namespace Grammar

variable {expr expr' : ℕ → Parse Node} {r : Reader} {m : ℕ}

/-! ### Rounds of statements -/

lemma rounds_end {stop : Token.Kind → Bool} (hr : stop r.current.kind = true) :
    rounds (statementRound expr stop) (m + 1) r = some (some [], r) := by
  have hround : statementRound expr stop r = some (.done, r) := by
    show (if stop r.current.kind then _ else _ : Parse _) r = _
    rw [if_pos hr]
    rfl
  show (statementRound expr stop r).bind _ = _
  rw [hround]
  rfl

lemma rounds_go {stop : Token.Kind → Bool} (hr : stop r.current.kind ≠ true) :
    rounds (statementRound expr stop) (m + 1) r =
      (statement expr r).bind fun p =>
        (rounds (statementRound expr stop) m p.2.advance).map fun q =>
          (q.1.map (p.1 :: ·), q.2) := by
  have hround : statementRound expr stop r =
      (statement expr r).map fun p => (.item p.1, p.2.advance) := by
    show (if stop r.current.kind then _ else _ : Parse _) r = _
    rw [if_neg hr]
    show (statement expr r).bind _ = _
    cases statement expr r <;> rfl
  show (statementRound expr stop r).bind _ = _
  rw [hround]
  cases statement expr r with
  | none => rfl
  | some p =>
      show (rounds (statementRound expr stop) m p.2.advance).bind _ =
        (rounds (statementRound expr stop) m p.2.advance).map _
      cases rounds (statementRound expr stop) m p.2.advance <;> rfl

/-- A statement leads the others. -/
lemma rounds_lead {s s' : Reader} {n? : Option Node} {ns : List (Option Node)}
    (hgoes : endsProgram r.current.kind ≠ true)
    (hstatement : statement expr r = some (n?, s))
    (hrest : rounds (statementRound expr endsProgram) m s.advance =
      some (some ns, s')) :
    rounds (statementRound expr endsProgram) (m + 1) r =
      some (some (n? :: ns), s') := by
  rw [rounds_go hgoes, hstatement, Option.bind_some, hrest]
  rfl

/-- Behind a statement that closes its brackets a token is left, and the
brackets behind that one are those that were due. -/
lemma closed_of_spans {n : Node} {us vs : List Token}
    (hspans : (Phrase.statement n).Spans us vs)
    (hdue : us.foldlM Bracket.step [] = some []) :
    vs ≠ [] ∧ vs.tail.foldlM Bracket.step [] = some [] := by
  obtain ⟨ts, k, rfl, hk, hderives⟩ := hspans
  rw [List.foldlM_append, hderives.due, Option.bind_eq_bind,
    Option.bind_some] at hdue
  have hvs : vs ≠ [] := by
    intro hnil
    have hpos := hk.mpr hnil
    rw [hnil] at hdue
    have hopen : List.replicate k Token.Kind.rbrace ++ [] = [] :=
      Option.some.inj hdue
    rw [List.append_nil, List.replicate_eq_nil_iff] at hopen
    omega
  obtain rfl : k = 0 := by
    by_contra hpos
    exact hvs (hk.mp (Nat.pos_of_ne_zero hpos))
  exact ⟨hvs, hdue⟩

/-- A program does not end where a token is left. -/
lemma goes_on {t : Token} {ts : List Token} (hr : r.At (t :: ts)) :
    endsProgram r.current.kind ≠ true := by
  rw [hr.current]
  intro h
  exact hr.kind_ne_eof t List.mem_cons_self (of_decide_eq_true h)

/-- It ends where none is. -/
lemma endsProgram_of_nil (hr : r.At []) : endsProgram r.current.kind = true := by
  rw [hr.current]
  exact decide_eq_true hr.eof_kind

/-- If rounds of statements over some tokens are without faults, the first one
reads a statement and the others read what is left. -/
lemma first_round {ts : List Token} {t : Token} {bound : ℕ} {s : Reader}
    {found : Option (List (Option Node))} (hsound : Sound expr bound)
    (hr : r.At (t :: ts)) (hus : (t :: ts).length < bound)
    (hm : (t :: ts).length < m + 1)
    (hrun : rounds (statementRound expr endsProgram) (m + 1) r =
      some (found, s))
    (hclean : s.diagnostics = #[]) :
    ∃ n vs s₁ found₁, statement expr r = some (some n, s₁) ∧ s₁.At vs ∧
      s₁.diagnostics = #[] ∧ (Phrase.statement n).Spans (t :: ts) vs ∧
      vs.tail.length < (t :: ts).length ∧
      rounds (statementRound expr endsProgram) m s₁.advance =
        some (found₁, s) ∧ found = found₁.map (some n :: ·) := by
  -- the round has read a statement, and its faults are among those at the end,
  -- so there were none
  rw [rounds_go (goes_on hr)] at hrun
  obtain ⟨n?, vs, s₁, hstatement, hs₁, hvs, hclean₁⟩ :=
    hsound.reads_statement hus r hr
  rw [hstatement, Option.bind_some] at hrun
  obtain ⟨⟨found₁, s₂⟩, hrest, hfound⟩ := Option.map_eq_some_iff.mp hrun
  cases hfound
  have hlength : vs.tail.length < (t :: ts).length := by
    have hle := hvs.length_le
    rw [List.length_tail]
    simp only [List.length_cons] at hle ⊢
    omega
  -- the same for the rounds behind it, over fewer tokens
  have hrests : Reads vs.tail (rounds (statementRound expr endsProgram) m)
      _ := hsound.reads_rounds_statements rfl m (hlength.trans hus) (by omega)
  obtain ⟨_, _, _, hrest', -, -, hclean₂⟩ := hrests _ hs₁.advance
  rw [hrest] at hrest'
  cases hrest'
  obtain ⟨hclean₁', -⟩ := hclean₂ hclean
  obtain ⟨-, n, rfl, hspans⟩ := hclean₁ hclean₁'
  exact ⟨n, vs, s₁, found₁, hstatement, hs₁, hclean₁', hspans, hlength, hrest,
    rfl⟩

/-- **Across the border.**  Where the tokens of a reader are read without a
fault, and they close their brackets and end in a semicolon, a reader that is
ahead of it reads the same statements and then goes on with what stands
behind. -/
lemma rounds_border {X us : List Token} {bound m' : ℕ} {r' s : Reader}
    {found : Option (List (Option Node))} (hsound : Sound expr bound)
    (hmirror : Mirrors (some X) expr expr') (hr : r.At us)
    (hus : us.length < bound) (hm : us.length < m) (hm' : m + X.length ≤ m')
    (hahead : r.Ahead (some X) r') (hdue : us.foldlM Bracket.step [] = some [])
    (hrun : rounds (statementRound expr endsProgram) m r = some (found, s))
    (hclean : s.diagnostics = #[]) :
    ∃ ns k r'', found = some ns ∧ X.length < k ∧ r''.unread = X ∧
      r''.diagnostics = #[] ∧ r''.eof = r'.eof ∧
      ∀ ms s', rounds (statementRound expr' endsProgram) k r'' =
          some (some ms, s') →
        rounds (statementRound expr' endsProgram) m' r' =
          some (some (ns ++ ms), s') := by
  induction m generalizing us r r' m' found s with
  | zero => omega
  | succ m ih =>
      obtain ⟨m', rfl⟩ : ∃ j, m' = j + 1 := ⟨m' - 1, by omega⟩
      obtain _ | ⟨t, ts⟩ := us
      · rw [rounds_end (endsProgram_of_nil hr)] at hrun
        cases hrun
        refine ⟨[], m' + 1, r', rfl, by omega, ?_, ?_, rfl, fun _ _ => id⟩
        · rw [hahead.unread, hr.unread]
          rfl
        · rw [hahead.diagnostics, hclean]
      · obtain ⟨n, vs, s₁, found₁, hstatement, hs₁, hclean₁, hspans, hlength,
          hrest, rfl⟩ := first_round hsound hr hus hm hrun hclean
        -- no bracket is open behind the statement, so the tokens do not end
        obtain ⟨hvs, hdue'⟩ := closed_of_spans hspans hdue
        have hborder : s₁.Border (some X) :=
          Or.inr ⟨by rwa [hs₁.unread], hclean₁⟩
        obtain ⟨-, hborder₀, hfollows⟩ :=
          hmirror.follows_statement _ _ hstatement hborder
        obtain ⟨s₁', hstatement', hs₁', heof⟩ := hfollows r' hahead
        obtain ⟨ns, k, r'', rfl, hk, hunread, hfaults, heof', hgoOn⟩ :=
          ih hs₁.advance (hlength.trans hus) (by omega)
            (by omega : m + X.length ≤ m') (hs₁'.advance hborder) hdue' hrest
            hclean
        refine ⟨some n :: ns, k, r'', rfl, hk, hunread, hfaults,
          heof'.trans heof, fun ms s' hms => ?_⟩
        have hgoes := goes_on hr
        rw [← hahead.current_eq hborder₀] at hgoes
        exact rounds_lead hgoes hstatement' (hgoOn ms s' hms)

/-! ### Programs -/

/-- A repetition of statements is never broken off. -/
lemma rounds_statements_isSome {stop : Token.Kind → Bool}
    {found : Option (List (Option Node))} {s : Reader}
    (h : rounds (statementRound expr stop) m r = some (found, s)) :
    ∃ ns, found = some ns := by
  induction m generalizing r found s with
  | zero => cases h
  | succ m ih =>
      by_cases hstop : stop r.current.kind = true
      · rw [rounds_end hstop] at h
        cases h
        exact ⟨[], rfl⟩
      · rw [rounds_go hstop] at h
        obtain ⟨⟨n?, s₁⟩, -, h⟩ := Option.bind_eq_some_iff.mp h
        obtain ⟨⟨rest, s₂⟩, hrest, hfound⟩ := Option.map_eq_some_iff.mp h
        cases hfound
        obtain ⟨ns, rfl⟩ := ih hrest
        exact ⟨n? :: ns, rfl⟩

/-- The rounds of statements that a program consists of. -/
def programRounds (r : Reader) :
    Option (Option (List (Option Node)) × Reader) :=
  rounds (statementRound (expression (r.unread.length + 1)) endsProgram)
    (r.unread.length + 1) r

/-- The program is made of what they find. -/
lemma program_eq (r : Reader) :
    program r = (programRounds (r.enter .program)).map fun p =>
      (.program ((p.1.getD []).filterMap id), p.2.leave .program) := by
  show Option.bind (Option.bind (Option.bind
    (programRounds (r.enter .program)) _) _) _ = _
  cases programRounds (r.enter .program) <;> rfl

/-- Behind tokens without faults that close their brackets and end in a
semicolon the rounds go on as if they started there. -/
lemma programRounds_append {us : List Token} {r₁ r₂ r s₁ s₂ : Reader}
    {ns ms : List (Option Node)} (hr₁ : r₁.At us)
    (hdue : Bracket.due us = some [])
    (hahead : r₁.Ahead (some r₂.unread) r) (hr₂ : r₂.eof.kind = .eof)
    (heof : r.eof = r₂.eof) (hclean₂ : r₂.diagnostics = #[])
    (hrun₁ : programRounds r₁ = some (some ns, s₁))
    (hclean₁ : s₁.diagnostics = #[])
    (hrun₂ : programRounds r₂ = some (some ms, s₂)) :
    ∃ s, programRounds r = some (some (ns ++ ms), s) ∧
      s.diagnostics = s₂.diagnostics := by
  have hlength : r.unread.length = r₁.unread.length + r₂.unread.length := by
    rw [hahead.unread, List.length_append, Option.getD_some]
  have hmirrors {X : Option (List Token)} {d : ℕ} (hd : d ≤ r.unread.length) :
      Mirrors X (expression (d + 1)) (expression (r.unread.length + 1)) :=
    mirrors_expression (Nat.succ_le_succ hd)
  have hbound : us.length < r₁.unread.length + 1 := by
    rw [hr₁.unread]
    exact Nat.lt_succ_self _
  obtain ⟨_, k, r', hns, hk, hunread', hclean', heof', hgoOn⟩ :=
    rounds_border (sound_expression _) (hmirrors (by omega)) hr₁ hbound hbound
      (by omega : r₁.unread.length + 1 + r₂.unread.length ≤
        r.unread.length + 1) hahead hdue hrun₁ hclean₁
  cases hns
  -- at the border it stands as the second reader does at its start
  have hsame : r₂.Ahead none r' :=
    { unread := by rw [hunread', Option.getD_none, List.append_nil]
      diagnostics := by rw [hclean', hclean₂]
      eof_kind := hr₂
      eof := fun _ => by rw [heof', heof]
      last := fun h => absurd rfl h }
  have hfollows := follows_rounds (I := fun _ => True)
    (fun _ _ => (hmirrors (by omega)).follows_statementRound)
    hk (fun _ => trivial) _ _ hrun₂ (Or.inl rfl)
  obtain ⟨s, hrun, hs, -⟩ := hfollows.2.2 r' hsame
  exact ⟨s, hgoOn ms s hrun, hs.diagnostics⟩

end Grammar

namespace Parser

variable {ts : List Token} {tracing : Bool}

/-- What the parser gives is what the rounds find. -/
lemma ofTokens_of_rounds {ns : List (Option Node)} {s : Reader}
    (h : programRounds ((Reader.ofTokens ts tracing).enter .program) =
      some (some ns, s)) :
    (Parser.ofTokens ts tracing).program = .program (ns.filterMap id) ∧
      (Parser.ofTokens ts tracing).diagnostics = s.diagnostics.toList := by
  have hrun : Parser.run (.ofTokens ts tracing) =
      some (.program (ns.filterMap id), s.leave .program) := by
    show program (.ofTokens ts tracing) = _
    rw [program_eq, h]
    rfl
  rw [Parser.ofTokens, hrun]
  exact ⟨rfl, congrArg Array.toList (s.diagnostics_leave .program)⟩

/-- They find some statements, or none, on every stream. -/
lemma exists_rounds (ts : List Token) (tracing : Bool) :
    ∃ ns s, programRounds ((Reader.ofTokens ts tracing).enter .program) =
      some (some ns, s) := by
  obtain ⟨n, -, r, hrun, -⟩ :=
    reads_program _ (Reader.at_ofTokens ts tracing)
  rw [program_eq] at hrun
  obtain ⟨⟨found, s⟩, hrounds, -⟩ := Option.map_eq_some_iff.mp hrun
  obtain ⟨ns, rfl⟩ := rounds_statements_isSome hrounds
  exact ⟨ns, s, hrounds⟩

/-- The reader of a stream has the tokens that it starts with before it, and then
those of the rest. -/
lemma unread_append (hts : ∀ t ∈ ts, t.kind ≠ .eof) (us : List Token)
    (tracing tracing' : Bool) :
    (Reader.ofTokens (ts ++ us) tracing).unread =
        ts ++ (Reader.ofTokens us tracing').unread ∧
      (Reader.ofTokens (ts ++ us) tracing).eof =
        (Reader.ofTokens us tracing').eof := by
  have hopen : ∀ t ∈ ts, Reader.isEnd t = false := fun t ht =>
    decide_eq_false (hts t ht)
  constructor
  · show (ts ++ us).takeWhile (!Reader.isEnd ·) = _
    rw [List.takeWhile_append_of_pos fun t ht => by rw [hopen t ht]; rfl]
    rfl
  · show ((ts ++ us).find? Reader.isEnd).getD (.made .eof "") = _
    rw [List.find?_append,
      List.find?_eq_none.mpr fun t ht => by rw [hopen t ht]; decide]
    rfl

/-- The reader of a stream is ahead of that of tokens that it starts with. -/
lemma ahead_ofTokens (hts : ∀ t ∈ ts, t.kind ≠ .eof)
    (hlast : ∀ t ∈ ts.getLast?, t.kind = .semicolon) (us : List Token)
    (tracing tracing' tracing'' : Bool) :
    (Reader.ofTokens ts tracing).Ahead
        (some (Reader.ofTokens us tracing').unread)
        (Reader.ofTokens (ts ++ us) tracing'') ∧
      (Reader.ofTokens (ts ++ us) tracing'').eof =
        (Reader.ofTokens us tracing').eof := by
  obtain ⟨hunread', heof⟩ := unread_append hts us tracing'' tracing'
  have hunread : (Reader.ofTokens ts tracing).unread = ts :=
    List.takeWhile_eq_self_iff.mpr fun t ht => by
      rw [Reader.isEnd, decide_eq_false (hts t ht)]
      rfl
  exact ⟨{
      unread := by rw [hunread', hunread]; rfl
      diagnostics := rfl
      eof_kind := (Reader.at_ofTokens ts tracing).eof_kind
      eof := fun h => absurd h (Option.some_ne_none _)
      last := fun _ => by rwa [hunread] }, heof⟩

/-- Tokens without faults that close their brackets and end in a semicolon
are parsed on their own, whatever stands behind them. -/
lemma ofTokens_border (hts : ∀ t ∈ ts, t.kind ≠ .eof)
    (hclean : (Parser.ofTokens ts tracing).diagnostics = [])
    (hdue : Bracket.due ts = some [])
    (hlast : ∀ t ∈ ts.getLast?, t.kind = .semicolon) (us : List Token)
    (tracing' tracing'' : Bool) :
    ∃ ss vs, (Parser.ofTokens ts tracing).program = .program ss ∧
      (Parser.ofTokens us tracing').program = .program vs ∧
      (Parser.ofTokens (ts ++ us) tracing'').program = .program (ss ++ vs) ∧
      (Parser.ofTokens (ts ++ us) tracing'').diagnostics =
        (Parser.ofTokens us tracing').diagnostics := by
  have hat := Reader.at_ofTokens ts tracing
  rw [Token.beforeEnd, List.takeWhile_eq_self_iff.mpr
    fun t ht => decide_eq_true (hts t ht)] at hat
  obtain ⟨ns, s₁, hrun₁⟩ := exists_rounds ts tracing
  obtain ⟨ms, s₂, hrun₂⟩ := exists_rounds us tracing'
  obtain ⟨hprogram₁, hfaults₁⟩ := ofTokens_of_rounds hrun₁
  obtain ⟨hprogram₂, hfaults₂⟩ := ofTokens_of_rounds hrun₂
  obtain ⟨hahead, heof⟩ :=
    ahead_ofTokens hts hlast us tracing tracing' tracing''
  -- what entering the rule of the program counts and traces changes no token
  have hentered (ts : List Token) (tracing : Bool) :=
    (Reader.ofTokens ts tracing).enter_eq .program
  rw [← (hentered us tracing').1] at hahead
  -- the rounds over both are the rounds over the first and then those over the
  -- second one
  obtain ⟨s, hrun, hs⟩ := programRounds_append
    (hat.congr (hentered ts tracing).1 (hentered ts tracing).2.1) hdue
    (hahead.congr (hentered ts tracing) (hentered (ts ++ us) tracing''))
    (by rw [(hentered us tracing').2.1]
        exact (Reader.at_ofTokens us tracing').eof_kind)
    (by rw [(hentered us tracing').2.1, (hentered _ tracing'').2.1, heof])
    (hentered us tracing').2.2 hrun₁
    (Array.toList_eq_nil_iff.mp (hfaults₁.symm.trans hclean)) hrun₂
  obtain ⟨hprogram, hfaults⟩ := ofTokens_of_rounds hrun
  refine ⟨_, _, hprogram₁, hprogram₂, ?_, ?_⟩
  · rw [hprogram, List.filterMap_append]
  · rw [hfaults, hs, hfaults₂]

end Parser

/-! ### The index -/

/-- What statements bind stays bound when others follow them. -/
lemma Index.symbolsOf_append {ss : List Node} {name : String} {symbol : Symbol}
    (h : (symbolsOf ss).get? name = some symbol) (us : List Node) :
    (symbolsOf (ss ++ us)).get? name = some symbol := by
  rw [symbolsOf, List.filterMap_append, List.foldl_append, ← symbolsOf]
  generalize symbolsOf ss = bs at h ⊢
  induction us.filterMap Symbol.ofStatement? generalizing bs with
  | nil => exact h
  | cons s symbols ih => exact ih _ (Bindings.get?_setNew h s.name s)

/-- **Statement by statement.**  Let some tokens be parsed without faults, let
them close their brackets and end in a semicolon.  Whatever stands behind
them, the program of both is the statements of the first followed by those of
the second, and the faults are those of the second.  So a text that starts
with such tokens has in its index whatever they bind. -/
theorem Parser.program_append {ts : List Token} {tracing : Bool}
    (hts : ∀ t ∈ ts, t.kind ≠ .eof)
    (hclean : (Parser.ofTokens ts tracing).diagnostics = [])
    (hdue : Bracket.due ts = some [])
    (hlast : ∀ t ∈ ts.getLast?, t.kind = .semicolon) (us : List Token) :
    ∃ ss vs, (Parser.ofTokens ts tracing).program = .program ss ∧
      (Parser.ofTokens us tracing).program = .program vs ∧
      (Parser.ofTokens (ts ++ us) tracing).program = .program (ss ++ vs) ∧
      (Parser.ofTokens (ts ++ us) tracing).diagnostics =
        (Parser.ofTokens us tracing).diagnostics ∧
      ∀ text, Token.stream text = ts ++ us → ∀ name symbol,
        (Index.symbolsOf ss).get? name = some symbol →
        (Index.ofText text).symbols.get? name = some symbol := by
  obtain ⟨ss, vs, hfirst, hsecond, hboth, hfaults⟩ :=
    Parser.ofTokens_border hts hclean hdue hlast us tracing tracing
  refine ⟨ss, vs, hfirst, hsecond, hboth, hfaults, fun text htext => ?_⟩
  obtain ⟨ss', ws, hfirst', -, hboth', -⟩ :=
    Parser.ofTokens_border hts hclean hdue hlast us tracing false
  have hss : ss' = ss := Node.program.inj (hfirst'.symm.trans hfirst)
  have hsymbols : (Index.ofText text).symbols =
      Index.symbolsOf (ss ++ ws) := by
    rw [Index.ofText, Parser.ofSource, htext, hboth', hss]
    rfl
  intro name symbol hsymbol
  rw [hsymbols]
  exact Index.symbolsOf_append hsymbol ws

/-- A text whose second line has no equals sign. -/
def brokenText : String := "let a = [1];\nlet a ) ("

/-- The tokens of its first line. -/
def unbrokenTokens : List Token := (Token.stream brokenText).take 7

theorem Parser.program_append_broken :
    (∀ t ∈ unbrokenTokens, t.kind ≠ .eof) ∧
    (Parser.ofTokens unbrokenTokens true).diagnostics = [] ∧
    Bracket.due unbrokenTokens = some [] ∧
    (∀ t ∈ unbrokenTokens.getLast?, t.kind = .semicolon) ∧
    ∃ ss vs, (Parser.ofTokens unbrokenTokens true).program = .program ss ∧
      (Parser.ofTokens ((Token.stream brokenText).drop 7) true).program =
        .program vs ∧
      (Parser.ofTokens (unbrokenTokens ++ (Token.stream brokenText).drop 7)
        true).program = .program (ss ++ vs) ∧
      (Parser.ofTokens (unbrokenTokens ++ (Token.stream brokenText).drop 7)
        true).diagnostics =
          (Parser.ofTokens ((Token.stream brokenText).drop 7)
            true).diagnostics ∧
      ∀ text, Token.stream text =
          unbrokenTokens ++ (Token.stream brokenText).drop 7 →
        ∀ name symbol, (Index.symbolsOf ss).get? name = some symbol →
          (Index.ofText text).symbols.get? name = some symbol :=
  have hts : ∀ t ∈ unbrokenTokens, t.kind ≠ .eof := by decide +kernel
  have hclean : (Parser.ofTokens unbrokenTokens true).diagnostics = [] := by
    decide +kernel
  have hdue : Bracket.due unbrokenTokens = some [] := by decide +kernel
  have hlast : ∀ t ∈ unbrokenTokens.getLast?, t.kind = .semicolon := by
    decide +kernel
  ⟨hts, hclean, hdue, hlast, Parser.program_append hts hclean hdue hlast _⟩

end MonkeyLang

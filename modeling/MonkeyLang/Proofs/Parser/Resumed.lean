/-
How the parser goes on with the `let`s of another text.

* `Grammar.rounds_enough`: as soon as there are enough rounds for the tokens,
  their number does not count;
* `Grammar.rounds_resumed`: a reader of the same tokens in other places, which
  met faults before, finds the same statements;
* `Grammar.statement_of_let`: a `let` is its value behind a name and an equals
  sign, and `Grammar.first_let` that the first one has all of these;
* `Grammar.exists_statements_of_let`: behind the keyword they are three
  statements;
* `Grammar.rounds_reopened`: a reader that passed the first `let` finds three
  expressions in its place and then the statements behind it;
* `Grammar.programRounds_feeding`: so it is behind flat tokens that end where an
  expression has to start; behind other flat tokens all are found.
-/
import MonkeyLang.Proofs.Parser.Lines
import MonkeyLang.Proofs.Parser.Recovery

namespace MonkeyLang

open Parse Grammar
open List (Forall₂)

namespace Grammar

variable {expr : ℕ → Parse Node} {r r' : Reader} {m m' bound : ℕ}
  {earlier : List Diagnostic.Cause}

/-! ### Rounds -/

/-- More rounds than tokens change nothing. -/
lemma rounds_enough (hsound : Sound expr bound) {us : List Token}
    (hr : r.At us) (hus : us.length < bound) (hm : us.length < m')
    {found : Option (List (Option Node))} {s : Reader}
    (hrun : rounds (statementRound expr endsProgram) m r = some (found, s)) :
    rounds (statementRound expr endsProgram) m' r = some (found, s) := by
  -- each round leaves fewer tokens, so there are always rounds left
  induction m generalizing us r m' found s with
  | zero => cases hrun
  | succ m ih =>
      obtain ⟨m', rfl⟩ : ∃ j, m' = j + 1 := ⟨m' - 1, by omega⟩
      obtain _ | ⟨t, ts⟩ := us
      · rw [rounds_end (endsProgram_of_nil hr)] at hrun ⊢
        exact hrun
      · rw [rounds_go (goes_on hr)] at hrun ⊢
        obtain ⟨n?, vs, s₁, hstatement, hs₁, hvs, -⟩ :=
          hsound.reads_statement hus r hr
        rw [hstatement, Option.bind_some] at hrun ⊢
        obtain ⟨⟨found₁, s₂⟩, hrest, hfound⟩ := Option.map_eq_some_iff.mp hrun
        have hlength : vs.tail.length < ts.length + 1 := by
          have hle := hvs.length_le
          rw [List.length_cons] at hle
          rw [List.length_tail]
          omega
        rw [List.length_cons] at hus hm
        rw [ih hs₁.advance (hlength.trans hus) (by omega) hrest,
          Option.map_some]
        exact congrArg some hfound

/-- Deeper nesting changes nothing. -/
lemma rounds_deeper {depth depth' : ℕ} (h : depth ≤ depth')
    (heof : r.eof.kind = .eof) {found : Option (List (Option Node))}
    {s : Reader}
    (hrun : rounds (statementRound (expression depth) endsProgram) m r =
      some (found, s)) :
    ∃ s', rounds (statementRound (expression depth') endsProgram) m r =
        some (found, s') ∧ s'.diagnostics = s.diagnostics := by
  have hsame : r.Ahead none r :=
    { unread := (List.append_nil _).symm
      diagnostics := rfl
      eof_kind := heof
      eof := fun _ => rfl
      last := fun hX => absurd rfl hX }
  have hfollows := follows_rounds (I := fun _ => True)
    (fun _ _ => (mirrors_expression h).follows_statementRound)
    (Nat.le_refl m) (fun _ => trivial) _ _ hrun (Or.inl rfl)
  obtain ⟨s', hrun', hs', -⟩ := hfollows.2.2 r hsame
  exact ⟨s', hrun', hs'.diagnostics⟩

/-- **The same statements.**  Readers of the same tokens in other places find
the same statements, however many faults the second one met before. -/
lemma rounds_resumed {depth : ℕ} (hr : r.Alike earlier r')
    {ms : List (Option Node)} {s : Reader}
    (hrun : rounds (statementRound (expression depth) endsProgram) m r =
      some (some ms, s)) :
    ∃ ns s', rounds (statementRound (expression depth) endsProgram) m r' =
        some (some ns, s') ∧ Forall₂ (Option.Rel Same) ms ns := by
  have halike := alike_rounds
    ((placeless_expression depth).alike_statementRound endsProgram) m _ r r' hr
  rw [hrun] at halike
  generalize rounds (statementRound (expression depth) endsProgram) m r' = found
    at halike ⊢
  cases halike with
  | some hfound =>
      rename_i found
      obtain ⟨ns?, s'⟩ := found
      cases hfound.1 with
      | some hns => exact ⟨_, s', rfl, hns⟩

/-! ### Single statements -/

/-- The value of a statement, and the semicolon that may stand behind it. -/
def operand (expr : ℕ → Parse Node) : Parse Node := do
  let value ← expr lowest
  skip .semicolon
  return value

lemma operand_run : operand expr r = (expr lowest r).map fun p =>
    (p.1, if p.2.next.kind = .semicolon then p.2.advance else p.2) := by
  show (expr lowest r).bind _ = _
  cases expr lowest r with
  | none => rfl
  | some p =>
      show (skip .semicolon p.2).bind _ = _
      rw [skip_run]
      rfl

/-- A value and what is made of it. -/
lemma value_run {α : Type} (answer : Node → α) :
    (do
      let value ← expr lowest
      skip .semicolon
      return answer value : Parse α) r =
      (operand expr r).map fun p => (answer p.1, p.2) := by
  show (expr lowest r).bind _ = _
  rw [operand_run]
  cases expr lowest r with
  | none => rfl
  | some p =>
      show (skip .semicolon p.2).bind _ = _
      rw [skip_run]
      rfl

/-- Which rule reads a statement that starts with a token of a kind. -/
def statementRule (expr : ℕ → Parse Node) :
    Token.Kind → Parse (Option Node)
  | .letKey => letStatement expr
  | .returnKey => do return some (← returnStatement expr)
  | _ => do return some (← expressionStatement expr)

lemma statement_run : statement expr r =
    (statementRule expr r.current.kind (r.enter .statement)).map
      fun p => (p.1, p.2.leave .statement) := by
  rw [statement, entering_run, current_run, Reader.current_enter]
  rfl

lemma statementRule_expression {kind : Token.Kind} (hlet : kind ≠ .letKey)
    (hreturn : kind ≠ .returnKey) :
    statementRule expr kind = do return some (← expressionStatement expr) := by
  unfold statementRule
  split
  · exact absurd rfl hlet
  · exact absurd rfl hreturn
  · rfl

/-- A statement that starts with no keyword is its value. -/
lemma statement_of_operand (hlet : r.current.kind ≠ .letKey)
    (hreturn : r.current.kind ≠ .returnKey) :
    statement expr r =
      (operand expr ((r.enter .statement).enter .expressionStatement)).map
        fun p => (some (.exprStmt r.current p.1),
          (p.2.leave .expressionStatement).leave .statement) := by
  rw [statement_run, statementRule_expression hlet hreturn]
  let r₂ := (r.enter .statement).enter .expressionStatement
  show (Option.bind (Option.bind ((do
    let value ← expr lowest
    skip .semicolon
    return Node.exprStmt r₂.current value : Parse Node) r₂) _) _).map _ = _
  rw [value_run, Reader.current_enter, Reader.current_enter]
  cases operand expr r₂ <;> rfl

/-- A `let` is its value behind a name and an equals sign. -/
lemma statement_of_let {t name q : Token} {ws : List Token}
    (hunread : r.unread = t :: name :: q :: ws) (ht : t.kind = .letKey)
    (hname : name.kind = .ident) (hq : q.kind = .assign) :
    statement expr r =
      (operand expr ((r.enter .statement).enter
          .letStatement).advance.advance.advance).map
        fun p => (some (.letStmt t name p.1),
          (p.2.leave .letStatement).leave .statement) := by
  rw [statement_run, Reader.current, hunread, List.headD_cons, ht]
  -- both tokens that the rule expects are there, so it comes to the value
  let r₁ := (r.enter .statement).enter .letStatement
  have hunread₁ : r₁.unread = t :: name :: q :: ws := by
    simp [r₁, hunread]
  show (Option.bind (expecting .ident none _ r₁) _).map _ = _
  rw [expecting_run, if_pos (by rw [Reader.next, hunread₁]; exact hname)]
  show (Option.bind (expecting .assign none _ r₁.advance) _).map _ = _
  have hunread₂ : r₁.advance.unread = name :: q :: ws :=
    congrArg List.tail hunread₁
  rw [expecting_run, if_pos (by rw [Reader.next, hunread₂]; exact hq)]
  have ht₁ : r₁.current = t := by rw [Reader.current, hunread₁]; rfl
  have hname₁ : r₁.advance.current = name := by
    rw [Reader.current, hunread₂]; rfl
  let answer (value : Node) := some (Node.letStmt r₁.current
    r₁.advance.current value)
  show (Option.bind ((do
    let value ← expr lowest
    skip .semicolon
    return answer value : Parse (Option Node))
      r₁.advance.advance.advance) _).map _ = _
  rw [value_run answer, ← ht₁, ← hname₁]
  cases operand expr r₁.advance.advance.advance <;> rfl

/-! ### Statements that do not move on -/

/-- A name that nothing goes on with is an expression. -/
lemma expressionWith_name (hkind : r.current.kind = .ident)
    (hnext : r.next.kind.precedence = lowest) :
    ∃ s, expressionWith expr lowest r = some (.ident r.current, s) ∧
      s.unread = r.unread ∧ s.eof = r.eof := by
  let r₁ := ((r.enter .expression).enter .identifier).leave .identifier
  have hr₁ : r₁.unread = r.unread ∧ r₁.eof = r.eof := by simp [r₁]
  have hcurrent : ((r.enter .expression).enter .identifier).current =
      r.current := by simp
  have hstop : ¬ lowest < r₁.next.kind.precedence := by
    rw [Reader.next, hr₁.1, hr₁.2]
    exact Nat.not_lt.mpr (Nat.le_of_eq hnext)
  refine ⟨r₁.leave .expression, ?_, ?_, ?_⟩
  · rw [expressionWith, entering_run, current_run, Reader.current_enter, hkind]
    show ((if lowest < r₁.next.kind.precedence then _ else _ : Parse Node)
      r₁).map _ = _
    rw [if_neg hstop, ← hcurrent]
    rfl
  · rw [Reader.unread_leave, hr₁.1]
  · rw [Reader.eof_leave, hr₁.2]

/-- A statement is over at once if its value does not move on. -/
lemma statement_stays (hlet : r.current.kind ≠ .letKey)
    (hreturn : r.current.kind ≠ .returnKey) (hnext : r.next.kind ≠ .semicolon)
    (hvalue : ∀ r₁ : Reader, r₁.unread = r.unread → r₁.eof = r.eof →
      ∃ v s, expr lowest r₁ = some (v, s) ∧ s.unread = r₁.unread ∧
        s.eof = r₁.eof) :
    ∃ v s, statement expr r = some (some (.exprStmt r.current v), s) ∧
      s.unread = r.unread ∧ s.eof = r.eof := by
  have hunread : ((r.enter .statement).enter .expressionStatement).unread =
      r.unread := by simp
  have heof : ((r.enter .statement).enter .expressionStatement).eof =
      r.eof := by simp
  obtain ⟨v, s, hrun, hs, hseof⟩ := hvalue _ hunread heof
  have hskip : s.next.kind ≠ .semicolon := by
    rw [Reader.next, hs, hunread, hseof, heof]
    exact hnext
  refine ⟨v, (s.leave .expressionStatement).leave .statement, ?_, ?_, ?_⟩
  · rw [statement_of_operand hlet hreturn, operand_run, hrun, Option.map_some,
      if_neg hskip]
    rfl
  · rw [Reader.unread_leave, Reader.unread_leave, hs, hunread]
  · rw [Reader.eof_leave, Reader.eof_leave, hseof, heof]

/-- So it is with a name before an equals sign. -/
lemma statement_name (hkind : r.current.kind = .ident)
    (hnext : r.next.kind = .assign) :
    ∃ v s, statement (expressionWith expr) r =
        some (some (.exprStmt r.current v), s) ∧
      s.unread = r.unread ∧ s.eof = r.eof := by
  refine statement_stays (by rw [hkind]; decide) (by rw [hkind]; decide)
    (by rw [hnext]; decide) fun r₁ hunread heof => ?_
  rw [Reader.current, ← hunread, ← heof] at hkind
  rw [Reader.next, ← hunread, ← heof] at hnext
  obtain ⟨s, hrun, hs⟩ := @expressionWith_name expr r₁ hkind
    (congrArg Token.Kind.precedence hnext)
  exact ⟨_, s, hrun, hs⟩

/-- And so it is with the equals sign, which starts no expression. -/
lemma statement_sign (hkind : r.current.kind = .assign)
    (hnext : r.next.kind ≠ .semicolon) :
    ∃ v s, statement (expressionWith expr) r =
        some (some (.exprStmt r.current v), s) ∧
      s.unread = r.unread ∧ s.eof = r.eof := by
  refine statement_stays (by rw [hkind]; decide) (by rw [hkind]; decide)
    hnext fun r₁ hunread heof => ?_
  rw [Reader.current, ← hunread, ← heof] at hkind
  refine ⟨_, _, expressionWith_none (by rw [Reader.current, hkind]; rfl), ?_, ?_⟩
  · rw [Reader.unread_leave]
    exact Reader.unread_enter _ _
  · rw [Reader.eof_leave]
    exact Reader.eof_enter _ _

/-! ### Without the first keyword -/

/-- The name and the equals sign of a `let` are two statements if a reader
starts behind the keyword.  Then the value is next. -/
lemma exists_name_and_sign {name q : Token} {ws : List Token}
    (hunread : r.unread = name :: q :: ws) (hname : name.kind = .ident)
    (hq : q.kind = .assign) (hw : (ws.headD r.eof).kind ≠ .semicolon) :
    ∃ v₁ v₂ s, s.unread = ws ∧ s.eof = r.eof ∧ ∀ m ms s',
      rounds (statementRound (expressionWith expr) endsProgram) m s =
          some (some ms, s') →
        rounds (statementRound (expressionWith expr) endsProgram) (m + 2) r =
          some (some (some (.exprStmt name v₁) :: some (.exprStmt q v₂) :: ms),
            s') := by
  have hgoes {r : Reader} {t : Token} (ht : r.current = t)
      (hkind : t.kind ≠ .eof) : endsProgram r.current.kind ≠ true :=
    fun hend => hkind (ht ▸ of_decide_eq_true hend)
  -- the name stays unread, and the round passes it
  have hcurrent₁ : r.current = name := by rw [Reader.current, hunread]; rfl
  have hnext₁ : r.next = q := by rw [Reader.next, hunread]; rfl
  obtain ⟨v₁, s₁, hrun₁, hs₁, heof₁⟩ := @statement_name expr r
    (hcurrent₁ ▸ hname) (hnext₁ ▸ hq)
  -- and so does the equals sign
  have hunread₂ : s₁.advance.unread = q :: ws := by
    rw [Reader.advance, hs₁, hunread, List.tail_cons]
  have hcurrent₂ : s₁.advance.current = q := by
    rw [Reader.current, hunread₂]
    rfl
  have hnext₂ : s₁.advance.next.kind ≠ .semicolon := by
    have heof : s₁.advance.eof = r.eof := heof₁
    rw [Reader.next, hunread₂, List.tail_cons, heof]
    exact hw
  obtain ⟨v₂, s₂, hrun₂, hs₂, heof₂⟩ := @statement_sign expr s₁.advance
    (hcurrent₂ ▸ hq) hnext₂
  rw [hcurrent₁] at hrun₁
  rw [hcurrent₂] at hrun₂
  refine ⟨v₁, v₂, s₂.advance, ?_, heof₂.trans heof₁, fun m ms s' hms => ?_⟩
  · rw [Reader.advance, hs₂, hunread₂, List.tail_cons]
  · exact rounds_lead (hgoes hcurrent₁ (by rw [hname]; decide)) hrun₁
      (rounds_lead (hgoes hcurrent₂ (by rw [hq]; decide)) hrun₂ hms)

/-- The value is a statement, too, and leaves the reader where it is behind the
`let`. -/
lemma exists_value {depth : ℕ} {s : Reader} {v : Node} (h : r.Alike earlier r')
    (hw : r.current.kind.startsExpression = true)
    (hrun : operand (expression depth) r = some (v, s)) :
    ∃ t w s', statement (expression depth) r' =
        some (some (.exprStmt t w), s') ∧ s.Alike earlier s' := by
  have hkind : r'.current.kind = r.current.kind :=
    (Token.bare_eq_iff.mp h.current).1.symm
  have hlet : r'.current.kind ≠ .letKey := fun hlet => by
    rw [← hkind, hlet] at hw
    cases hw
  have hreturn : r'.current.kind ≠ .returnKey := fun hreturn => by
    rw [← hkind, hreturn] at hw
    cases hw
  let r₁ := (r'.enter .statement).enter .expressionStatement
  have hentered : r.Alike earlier r₁ :=
    h.congr ⟨rfl, rfl, rfl⟩ (by simp [r₁])
  have hvalue := (placeless_expression depth).alike_value
    (f := id) (g := id) (fun _ _ h => h) _ _ _ hentered
  change Option.Rel _ (operand _ r) (operand _ r₁) at hvalue
  rw [hrun] at hvalue
  rw [statement_of_operand hlet hreturn]
  generalize operand (expression depth) r₁ = x at hvalue ⊢
  cases hvalue with
  | some hx =>
      exact ⟨_, _, _, rfl, hx.2.congr ⟨rfl, rfl, rfl⟩ (by simp)⟩

/-- What a reader passes that stands behind the keyword of a `let`: the name,
the equals sign and the value are statements. -/
lemma exists_statements_of_let {depth : ℕ} {name q : Token}
    {r₀ s₀ : Reader} {v : Node}
    (hname : name.kind = .ident) (hq : q.kind = .assign)
    (hw : r₀.current.kind.startsExpression = true)
    (hclean : r₀.diagnostics = #[])
    (hrun : operand (expression (depth + 1)) r₀ = some (v, s₀))
    (hunread : r'.unread.map Token.bare =
      (name :: q :: r₀.unread).map Token.bare)
    (heof : r'.eof.bare = r₀.eof.bare) :
    ∃ es earlier s', s₀.Alike earlier s' ∧
      (∀ n? ∈ es, ∃ t v, n? = some (.exprStmt t v)) ∧
      ∀ m ms s, rounds (statementRound (expression (depth + 1)) endsProgram) m
          s'.advance = some (some ms, s) →
        rounds (statementRound (expression (depth + 1)) endsProgram) (m + 3)
          r' = some (some (es ++ ms), s) := by
  obtain ⟨u, us, hu, hbare, hus⟩ := List.map_eq_cons_iff.mp hunread
  obtain ⟨p, ws, rfl, hbareq, hws⟩ := List.map_eq_cons_iff.mp hus
  have hhead : (ws.headD r'.eof).bare = r₀.current.bare := by
    rw [Reader.current, ← List.headD_map (f := Token.bare), hws, heof,
      List.headD_map]
  have hfirst : (ws.headD r'.eof).kind = r₀.current.kind :=
    (Token.bare_eq_iff.mp hhead).1
  -- the value starts with no semicolon, which would be passed with the equals
  -- sign
  have hsemicolon : (ws.headD r'.eof).kind ≠ .semicolon := fun hkind => by
    rw [← hfirst, hkind] at hw
    cases hw
  obtain ⟨v₁, v₂, s₁, hs₁, heof₁, hlead⟩ :=
    @exists_name_and_sign (expression depth) r' u p ws hu
      ((Token.bare_eq_iff.mp hbare).1.trans hname)
      ((Token.bare_eq_iff.mp hbareq).1.trans hq) hsemicolon
  -- from here on both readers stand before the same value
  have halike : r₀.Alike s₁.causes s₁ :=
    ⟨by rw [hs₁, hws], by rw [heof₁, heof], by simp [Reader.causes, hclean]⟩
  obtain ⟨t, w, s', hstatement, hs'⟩ := exists_value halike hw hrun
  have hgoes : endsProgram s₁.current.kind ≠ true := fun hend => by
    rw [(Token.bare_eq_iff.mp halike.current).1, of_decide_eq_true hend] at hw
    cases hw
  exact ⟨[some (.exprStmt u v₁), some (.exprStmt p v₂), some (.exprStmt t w)],
    _, s', hs', by simp, fun m ms s hms =>
      hlead _ _ _ (rounds_lead hgoes hstatement hms)⟩

/-- If rounds of statements without faults find nothing but `let`s, the first
one has read a keyword, a name, an equals sign and a value. -/
lemma first_let {depth : ℕ} {us : List Token} (hr : r.At us) (hne : us ≠ [])
    (hdepth : us.length < depth) (hm : us.length < m)
    {ms : List (Option Node)} {s : Reader}
    (hrun : rounds (statementRound (expression depth) endsProgram) m r =
      some (some ms, s))
    (hclean : s.diagnostics = #[])
    (hlets : ∀ n, some n ∈ ms → ∃ t u v, n = .letStmt t u v) :
    ∃ t name q w ws v s₁ vs ms', us = t :: name :: q :: w :: ws ∧
      t.kind = .letKey ∧ name.kind = .ident ∧ q.kind = .assign ∧
      w.kind.startsExpression = true ∧ ms = some (.letStmt t name v) :: ms' ∧
      statement (expression depth) r = some (some (.letStmt t name v), s₁) ∧
      s₁.At vs ∧ vs.tail.length ≤ ws.length ∧
      rounds (statementRound (expression depth) endsProgram) (m - 1)
        s₁.advance = some (some ms', s) := by
  obtain ⟨t, ts, rfl⟩ := List.exists_cons_of_ne_nil hne
  obtain ⟨m, rfl⟩ : ∃ j, m = j + 1 := ⟨m - 1, by omega⟩
  obtain ⟨n, vs, s₁, found₁, hstatement, hs₁, -, hspans, -, hrest, hfound⟩ :=
    first_round (sound_expression depth) hr hdepth hm hrun hclean
  obtain ⟨ms', rfl, rfl⟩ := Option.map_eq_some_iff.mp hfound.symm
  obtain ⟨t', name, v, rfl⟩ := hlets n List.mem_cons_self
  obtain ⟨us, k, hus, -, hderives⟩ := hspans
  cases hderives with
  | letStmt ht hname hq hv hclosing =>
      rename_i q vts cs
      obtain ⟨w, wts, rfl, hw⟩ := hv.starts
      refine ⟨t', name, q, w, wts ++ cs ++ vs.tail, v, s₁, vs, ms', ?_, ht,
        hname, hq, hw, rfl, hstatement, hs₁, ?_, hrest⟩
      · rw [hus]
        simp
      · simp only [List.length_append]
        omega

/-- **Without the first keyword.**  A reader that stands behind the keyword of
the first of some `let`s finds expressions in the place of this one and then the
others. -/
lemma rounds_reopened {depth K : ℕ} {us : List Token} (hr : r.At us)
    (hne : us ≠ []) (hdepth : us.length < depth + 1) (hm : us.length < m)
    {ms : List (Option Node)} {s : Reader}
    (hrun : rounds (statementRound (expression (depth + 1)) endsProgram) m r =
      some (some ms, s))
    (hfresh : r.diagnostics = #[]) (hclean : s.diagnostics = #[])
    (hlets : ∀ n, some n ∈ ms → ∃ t u v, n = .letStmt t u v)
    (hunread : r'.unread.map Token.bare = us.tail.map Token.bare)
    (heof : r'.eof.bare = r.eof.bare) (hK : us.length < K) :
    ∃ n ms' es ns s', ms = some n :: ms' ∧
      rounds (statementRound (expression (depth + 1)) endsProgram) K r' =
        some (some (es ++ ns), s') ∧
      (∀ n? ∈ es, ∃ t v, n? = some (.exprStmt t v)) ∧
      Forall₂ (Option.Rel Same) ms' ns := by
  obtain ⟨t, name, q, w, ws, v, s₁, vs, ms', rfl, ht, hname, hq, hw, rfl,
    hstatement, hs₁, hlength, hrest⟩ :=
    first_let hr hne hdepth hm hrun hclean hlets
  rw [statement_of_let hr.unread ht hname hq] at hstatement
  obtain ⟨⟨v₀, s₀⟩, hoperand, hs₀⟩ := Option.map_eq_some_iff.mp hstatement
  obtain ⟨-, hleave⟩ := Prod.mk.inj hs₀
  let r₀ := ((r.enter .statement).enter .letStatement).advance.advance.advance
  have hr₀ : r₀.unread = w :: ws := by
    simp [r₀, Reader.advance, hr.unread]
  have heof₀ : r₀.eof = r.eof := by simp [r₀, Reader.advance]
  have hfresh₀ : r₀.diagnostics = #[] := by
    simp [r₀, Reader.advance, hfresh]
  have hw₀ : r₀.current.kind.startsExpression = true := by
    rw [Reader.current, hr₀]
    exact hw
  rw [List.tail_cons, ← hr₀] at hunread
  obtain ⟨es, earlier, s', halike, hes, hlead⟩ :=
    exists_statements_of_let hname hq hw₀ hfresh₀ hoperand hunread
      (heof.trans (congrArg Token.bare heof₀.symm))
  -- the others are found by both
  have halike₁ : s₁.Alike earlier s' :=
    halike.congr (by simp [← hleave]) ⟨rfl, rfl, rfl⟩
  simp only [List.length_cons] at hdepth hK
  have henough : rounds (statementRound (expression (depth + 1)) endsProgram)
      (K - 3) s₁.advance = some (some ms', s) :=
    rounds_enough (sound_expression (depth + 1)) hs₁.advance (by omega)
      (by omega) hrest
  obtain ⟨ns, s₃, hns, hsame⟩ := rounds_resumed halike₁.advance henough
  have hall := hlead _ _ _ hns
  rw [show K - 3 + 3 = K by omega] at hall
  exact ⟨_, ms', es, ns, s₃, rfl, hall, hes, hsame⟩

/-! ### Programs -/

/-- What starts with a `let` does so in all places. -/
lemma lets_of_bare {us X : List Token} (h : X.map Token.bare = us.map Token.bare)
    (hus : Token.Lets us) : Token.Lets X := by
  obtain ⟨t, u, vs, rfl, ht, hu⟩ := hus
  obtain ⟨t', ws, rfl, ht', hws⟩ := List.map_eq_cons_iff.mp h
  obtain ⟨u', vs', rfl, hu', -⟩ := List.map_eq_cons_iff.mp hws
  exact ⟨t', u', vs', rfl, (Token.bare_eq_iff.mp ht').1.trans ht,
    (Token.bare_eq_iff.mp hu').1.trans hu⟩

/-- **Behind what is no program.**  Let a reader find nothing but `let`s, without
faults.  Behind flat tokens the same `let`s are found again; but if an
expression is missing where the flat tokens end, the first `let` is not, and
there are expressions in its place. -/
theorem programRounds_feeding {us X : List Token} {e : Token}
    {r₁ r₂ s₁ s₂ : Reader} {ns ms : List (Option Node)} (hr₂ : r₂.At us)
    (hne : us ≠ []) (hfresh : r₂.diagnostics = #[])
    (hX : X.map Token.bare = us.map Token.bare) (he : e.bare = r₂.eof.bare)
    (h : r₁.Feeds X e r) (hfed : ¬ r₁.Starved)
    (hrun₁ : programRounds r₁ = some (some ns, s₁))
    (hrun₂ : programRounds r₂ = some (some ms, s₂))
    (hclean : s₂.diagnostics = #[])
    (hlets : ∀ n, some n ∈ ms → ∃ t u v, n = .letStmt t u v) :
    ∃ es ws s, programRounds r = some (some (ns ++ (es ++ ws)), s) ∧
      (∀ n? ∈ es, ∃ t v, n? = some (.exprStmt t v)) ∧
      (¬ s₁.Starved ∧ Forall₂ (Option.Rel Same) ms ws ∨
        s₁.Starved ∧ ∃ n ms', ms = some n :: ms' ∧
          Forall₂ (Option.Rel Same) ms' ws) := by
  have hlength : r.unread.length = r₁.unread.length + us.length := by
    have hsame := congrArg List.length hX
    rw [List.length_map, List.length_map] at hsame
    rw [h.unread, List.length_append, hsame]
  -- the `let`s may be nested as deep as the whole program
  have hdepth : r₂.unread.length + 1 ≤ r.unread.length + 1 := by
    rw [hr₂.unread]
    omega
  obtain ⟨s₂', hdeep, hs₂'⟩ := rounds_deeper hdepth hr₂.eof_kind hrun₂
  rw [hr₂.unread] at hdeep
  rw [← hs₂'] at hclean
  have hus : us.length < r.unread.length + 1 := by omega
  obtain ⟨t, name, q, w, vs, v, s₃, vs', ms', hfirst, ht, hname, -⟩ :=
    first_let hr₂ hne hus (Nat.lt_succ_self _) hdeep hclean hlets
  have hlet : Token.Lets X := lets_of_bare hX ⟨t, name, _, hfirst, ht, hname⟩
  have hbound : r₁.unread.length + 1 + X.length ≤ r.unread.length + 1 := by
    rw [h.unread, List.length_append]
    omega
  have hdeeper : r₁.unread.length + 1 ≤ r.unread.length + 1 := by omega
  obtain ⟨_, hns, k, r', hk, heof, hend, hgoOn⟩ := rounds_feeding hlet
    (feeding_expression hlet hdeeper) h hfed hbound hrun₁
  cases hns
  rw [← List.length_map (f := Token.bare), hX, List.length_map] at hk
  rw [← heof] at he
  obtain ⟨hs₁, hr'⟩ | ⟨hs₁, hr'⟩ := hend
  · have henough := rounds_enough (sound_expression _) hr₂ hus hk hdeep
    have halike : r₂.Alike r'.causes r' :=
      ⟨by rw [hr₂.unread, hr', hX], he.symm, by simp [Reader.causes, hfresh]⟩
    obtain ⟨ws, s, hws, hsame⟩ := rounds_resumed halike henough
    exact ⟨[], ws, s, hgoOn _ _ hws, by simp, Or.inl ⟨hs₁, hsame⟩⟩
  · have htail : r'.unread.map Token.bare = us.tail.map Token.bare := by
      rw [hr', List.map_tail, hX, ← List.map_tail]
    obtain ⟨n, ms', es, ws, s, rfl, hws, hes, hsame⟩ := rounds_reopened hr₂ hne
      hus (Nat.lt_succ_self _) hdeep hfresh hclean hlets htail he hk
    exact ⟨es, ws, s, hgoOn _ _ hws, hes, Or.inr ⟨hs₁, n, ms', rfl, hsame⟩⟩

end Grammar

end MonkeyLang

/-
Whatever the parser reads without faults derives the tree that it gives.

* `Sound.reads_startRule`, `Sound.reads_extend`: what the rules read that an
  expression starts with and goes on with, if the nested expressions are read
  as they are derived;
* `sound_expression`: expressions are so read, however deep they are nested;
* `ofTokens_derives`: a stream on which the parser reports nothing derives
  the program.
-/
import MonkeyLang.Proofs.Parser.Sequences
import Mathlib.Data.List.TakeWhile

namespace MonkeyLang

open Parse Grammar

namespace Grammar

namespace Sound

variable {expr : ℕ → Parse Node} {bound : ℕ} {t : Token} {ts : List Token}
  {level : ℕ} (hexpr : Sound expr bound)

include hexpr

/-! ### Expressions that start with a token of their own -/

omit hexpr in
/-- An expression of one token. -/
lemma readAs_token {n : Node} (h : Derives (.bare n) [t] 0)
    (hfits : ∀ next, n.Fits level next) : n.ReadAs level (t :: ts) (t :: ts) :=
  Or.inr ⟨Phrase.spans_token h, hfits _⟩

omit hexpr in
lemma reads_integer (ht : t.kind = .int) :
    Reads (t :: ts) integer fun n vs => n.ReadAs level (t :: ts) vs := by
  refine reads_entering (reads_current_cons ?_)
  split
  · next n hn =>
    obtain ⟨hread, hmax⟩ := Option.filter_eq_some_iff.mp hn
    exact reads_pure (readAs_token
      (.intLit ht hread (by simpa using hmax)) fun _ => trivial)
  · exact reads_report

lemma reads_prefixOperation (ht : t.kind.isPrefix = true)
    (hts : ts.length < bound) :
    Reads (t :: ts) (prefixOperation expr) fun n vs =>
      n.ReadAs level (t :: ts) vs := by
  refine reads_entering (reads_current_cons (reads_advance ?_))
  refine (hexpr tight ts (by decide) (Nat.le_refl _) hts).map ?_
  rintro r vs - ⟨hnext, hr⟩
  obtain ⟨us, k, hus, hk, hderives⟩ := hr.at_place .operand rfl
  refine Or.inr ⟨⟨t :: us, k, ?_, hk, .prefixOp ht hderives⟩, hnext⟩
  rw [hus, List.cons_append]

lemma reads_group (ht : t.kind = .lparen) (hts : ts.length < bound) :
    Reads (t :: ts) (group expr) fun n vs => n.ReadAs level (t :: ts) vs := by
  refine reads_entering (reads_advance ?_)
  refine (hexpr.reads_free hts).bind fun n vs hvs => ?_
  refine reads_expecting (by decide) fun c ws hws hc => reads_pure fun hn => ?_
  obtain ⟨us, hus, hderives⟩ := hn.before hws
  refine Or.inl fun place => Phrase.spans_closed (.group ht hc hderives) ?_
  rw [hus]
  simp

lemma reads_conditional (ht : t.kind = .ifKey) (hts : ts.length < bound) :
    Reads (t :: ts) (conditional expr) fun n vs =>
      n.ReadAs level (t :: ts) vs := by
  refine reads_entering (reads_current_cons ?_)
  refine reads_expecting (by decide) fun o us hus ho => reads_advance ?_
  obtain rfl : ts = o :: us := hus
  have husBound : us.length < bound := Nat.lt_of_succ_lt hts
  refine (hexpr.reads_free husBound).bind fun n vs hvs => ?_
  refine reads_expecting (by decide) fun c ws hws hc => ?_
  refine reads_expecting (by decide) fun m xs hxs hm => ?_
  obtain rfl : ws = m :: xs := hxs
  have hle := Token.length_add_two_le hvs hws
  rw [List.length_cons] at hle
  -- the condition stands between its parentheses; the block tells only later
  -- whether it is closed
  refine (hexpr.reads_block hm (by omega)).bind fun a ys hys => ?_
  refine reads_next fun s hs => ?_
  -- with an `else` behind it the first block is closed, without it may be open
  split
  · next helse =>
    obtain ⟨e, ws', hys', he⟩ := Token.Kind.exists_cons_of_first
      (by decide) (hs.symm.trans helse)
    refine reads_advance (reads_expecting (by decide) fun p zs hzs hp => ?_)
    rw [hys'] at hzs
    obtain rfl : ws' = p :: zs := hzs
    have hle' := Token.length_add_two_le hys hys'
    simp only [List.length_cons] at hle'
    refine (hexpr.reads_block hp (by omega)).map ?_
    rintro b ys' - ⟨vs', k, hvs', hk, hb⟩ ha hn
    obtain ⟨ts₁, hts₁, hcondition⟩ := hn.before hws
    obtain ⟨ts₂, hts₂, hconsequence⟩ := ha.before hys'
    refine Or.inr ⟨⟨t :: o :: (ts₁ ++ c :: (ts₂ ++ e :: vs')), k, ?_, hk,
      .ifThenElse ht ho hc he hcondition hconsequence hb⟩, trivial⟩
    rw [hts₁, hts₂, hvs']
    simp
  · refine reads_pure fun ha hn => ?_
    obtain ⟨ts₁, hts₁, hcondition⟩ := hn.before hws
    obtain ⟨ts₂, k, hts₂, hk, hconsequence⟩ := ha
    refine Or.inr ⟨⟨t :: o :: (ts₁ ++ c :: ts₂), k, ?_, hk,
      .ifThen ht ho hc hcondition hconsequence⟩, trivial⟩
    rw [hts₁, hts₂]
    simp

/-- Functions and macros differ in the node they make. -/
lemma reads_abstraction {make : Token → List Node → Node → Node}
    (hts : ts.length < bound)
    (hmake : ∀ o c ns b us vs k, o.kind = .lparen → c.kind = .rparen →
      Derives (.params ns) us 0 → Derives (.block b) vs k →
      Derives (.bare (make t ns b)) (t :: o :: (us ++ c :: vs)) k)
    (hfits : ∀ ns b next, (make t ns b).Fits level next) :
    Reads (t :: ts) (abstraction expr make) fun n vs =>
      n.ReadAs level (t :: ts) vs := by
  refine reads_current_cons ?_
  refine reads_expecting (by decide) fun o us hus ho => ?_
  obtain rfl : ts = o :: us := hus
  refine reads_parameters.bind fun ns? vs hvs => ?_
  cases ns? with
  | none => exact reads_pure fun ⟨_, _, _, _, h, _⟩ => nomatch h
  | some ns =>
      refine reads_expecting (by decide) fun m xs hxs hm => ?_
      have hle := Token.length_add_two_le hvs hxs
      rw [List.length_cons] at hle hts
      refine (hexpr.reads_block hm (by omega)).map ?_
      rintro b ys - ⟨ts₂, k, hts₂, hk, hb⟩
        ⟨_, ts₁, c, ws, ⟨⟩, hus, rfl, hc, hns⟩
      obtain rfl : ws = m :: xs := hxs
      refine Or.inr ⟨⟨t :: o :: (ts₁ ++ c :: ts₂), k, ?_, hk,
        hmake o c ns b ts₁ ts₂ k ho hc hns hb⟩, hfits ns b _⟩
      rw [hus, hts₂]
      simp

lemma reads_array (ht : t.kind = .lbracket) (hts : ts.length < bound) :
    Reads (t :: ts) (array expr) fun n vs => n.ReadAs level (t :: ts) vs := by
  refine reads_entering (reads_current_cons ?_)
  refine (hexpr.reads_list (by decide) hts).bind fun es? vs hvs => ?_
  cases es? with
  | none => exact reads_pure fun ⟨_, _, _, _, h, _⟩ => nomatch h
  | some es =>
      refine reads_pure ?_
      rintro ⟨_, us, c, ws, ⟨⟩, hus, rfl, hc, hes⟩
      refine Or.inr ⟨Phrase.spans_closed (.array ht hc hes) ?_, trivial⟩
      rw [hus]
      simp

lemma reads_hash (ht : t.kind = .lbrace) (hts : ts.length < bound) :
    Reads (t :: ts) (hash expr) fun n vs => n.ReadAs level (t :: ts) vs := by
  refine reads_entering (reads_current_cons ?_)
  have hbound : (t :: ts).length ≤ bound := Nat.succ_le_of_lt hts
  refine (reads_repeated fun m hm => hexpr.reads_rounds_hash m (by omega)
    hbound hm).bind fun ps? vs hvs => ?_
  cases ps? with
  | none => exact reads_pure fun ⟨_, _, h, _⟩ => nomatch h
  | some ps =>
      refine reads_expecting (by decide) fun c ws hws hc => reads_pure ?_
      rintro ⟨_, us, ⟨⟩, hus, hps⟩
      refine Or.inr ⟨Phrase.spans_closed (.hash ht hc hps) ?_, trivial⟩
      have hts' : ts = us ++ vs.tail := hus
      rw [hts', hws]
      simp

variable (level) in
/-- Whatever rule an expression starts with. -/
lemma reads_startRule {rule : Parse Node} (hts : ts.length < bound)
    (hrule : startRule? expr t.kind = some rule) :
    Reads (t :: ts) rule fun n vs => n.ReadAs level (t :: ts) vs := by
  -- one case for each kind of token that an expression starts with
  cases ht : t.kind <;> rw [ht] at hrule <;> cases hrule
  case ident =>
    exact reads_entering (reads_current_cons (reads_pure
      (readAs_token (.ident ht) fun _ => trivial)))
  case int => exact reads_integer ht
  case string =>
    exact reads_entering (reads_current_cons (reads_pure
      (readAs_token (.strLit ht) fun _ => trivial)))
  case trueKey =>
    refine reads_entering (reads_current_cons (reads_pure ?_))
    rw [ht]
    exact readAs_token (.trueLit ht) fun _ => trivial
  case falseKey =>
    refine reads_entering (reads_current_cons (reads_pure ?_))
    rw [ht]
    exact readAs_token (.falseLit ht) fun _ => trivial
  case bang | minus => exact hexpr.reads_prefixOperation (by rw [ht]; rfl) hts
  case lparen => exact hexpr.reads_group ht hts
  case ifKey => exact hexpr.reads_conditional ht hts
  case function =>
    exact reads_entering (hexpr.reads_abstraction hts
      (fun o c ns b us vs k ho hc hns hb => .function ht ho hc hns hb)
      fun _ _ _ => trivial)
  case macroKey =>
    exact reads_entering (hexpr.reads_abstraction hts
      (fun o c ns b us vs k ho hc hns hb => .macroFn ht ho hc hns hb)
      fun _ _ _ => trivial)
  case lbracket => exact hexpr.reads_array ht hts
  case lbrace => exact hexpr.reads_hash ht hts

/-! ### Expressions that go on with an expression -/

section

variable (level) (us : List Token) {vs : List Token} {left : Node}
  (hvs : vs.tail = t :: ts) (hts : ts.length < bound)

include hvs hts

lemma reads_call (ht : t.kind = .lparen) :
    Reads (t :: ts) (call expr left) fun n ws =>
      (Phrase.expression .applied left).Spans us vs → n.ReadAs level us ws := by
  refine reads_entering (reads_current_cons ?_)
  refine (hexpr.reads_list (by decide) hts).bind fun as? ws _ => ?_
  cases as? with
  | none => exact reads_pure fun ⟨_, _, _, _, h, _⟩ => nomatch h
  | some as =>
      refine reads_pure ?_
      rintro ⟨_, xs, c, ws, ⟨⟩, hxs, rfl, hc, has⟩ hleft
      obtain ⟨ys, hus, hderives⟩ := hleft.before hvs
      refine Or.inr ⟨Phrase.spans_closed (.call ht hc hderives has) ?_, trivial⟩
      rw [hus, hxs]
      simp

lemma reads_index (ht : t.kind = .lbracket) :
    Reads (t :: ts) (index expr left) fun n ws =>
      (Phrase.expression .applied left).Spans us vs → n.ReadAs level us ws := by
  refine reads_entering (reads_current_cons (reads_advance ?_))
  refine (hexpr.reads_free hts).bind fun i ws _ => ?_
  refine reads_expecting (by decide) fun c xs hxs hc =>
    reads_pure fun hi hleft => ?_
  obtain ⟨zs, hzs, hposition⟩ := hi.before hxs
  obtain ⟨ys, hus, hderives⟩ := hleft.before hvs
  refine Or.inr ⟨Phrase.spans_closed (.index ht hc hderives hposition) ?_,
    trivial⟩
  have hts' : ts = zs ++ c :: xs := hzs
  rw [hus, hts']
  simp

lemma reads_infixOperation (ht : t.kind.isInfix = true)
    (hlevel : level < t.kind.precedence) :
    Reads (t :: ts) (infixOperation expr left) fun n ws =>
      (Phrase.expression (.left t.kind) left).Spans us vs →
        n.ReadAs level us ws := by
  obtain ⟨hlow, htight⟩ := Token.Kind.precedence_of_isInfix ht
  refine reads_entering (reads_current_cons (reads_advance ?_))
  refine (hexpr t.kind.precedence ts (Nat.le_of_lt hlow) (Nat.le_of_lt htight)
    hts).map ?_
  rintro r ws - ⟨hnext, hr⟩ hleft
  obtain ⟨xs, k, hxs, hk, hright⟩ := hr.at_place (.right t.kind) rfl
  obtain ⟨ys, hus, hderives⟩ := hleft.before hvs
  refine Or.inr ⟨⟨ys ++ t :: xs, k, ?_, hk, .infixOp ht hderives hright⟩,
    hlevel, hnext⟩
  rw [hus, hxs]
  simp

/-- What goes on with an expression takes it at a place that suits it. -/
lemma reads_extend (hlow : lowest ≤ level)
    (hlevel : level < t.kind.precedence) :
    Reads (t :: ts) (extend expr left) fun n ws =>
      left.ReadAs level us vs → n.ReadAs level us ws := by
  have hnext : Token.Kind.first vs.tail = t.kind := by rw [hvs]; rfl
  refine reads_current_cons ?_
  -- a parenthesis and a bracket bind most strongly, so what they are applied to
  -- was read at a place for that; it was read as a left operand where an
  -- operator follows
  split
  · next ht =>
    refine (hexpr.reads_call level us hvs hts ht).mono fun n ws _ hn hleft => ?_
    refine hn (hleft.at_place .applied ?_)
    rw [hnext, ht]
    show tight < Token.Kind.precedence _
    decide
  · next ht =>
    refine (hexpr.reads_index level us hvs hts ht).mono
      fun n ws _ hn hleft => ?_
    refine hn (hleft.at_place .applied ?_)
    rw [hnext, ht]
    show tight < Token.Kind.precedence _
    decide
  · next hparen hbracket =>
    have hinfix : t.kind.isInfix = true := by
      have hstrong : lowest < t.kind.precedence :=
        Nat.lt_of_le_of_lt hlow hlevel
      revert hparen hbracket hstrong
      cases t.kind <;> decide
    refine (hexpr.reads_infixOperation level us hvs hts hinfix hlevel).mono
      fun n ws _ hn hleft => ?_
    exact hn (hleft.at_place (.left t.kind) hnext)

end

/-- An expression goes on while operators follow that bind more strongly. -/
lemma reads_extensions (hlow : lowest ≤ level) (us : List Token) (m : ℕ)
    {vs : List Token} {left : Node} (hvs : vs.tail.length < m)
    (hbound : vs.tail.length ≤ bound) :
    Reads vs (extensions expr level m left) fun n ws =>
      left.ReadAs level us vs → (Token.Kind.first ws.tail).precedence ≤ level ∧
        n.ReadAs level us ws := by
  -- the induction is on the rounds that are left, of which there are more than
  -- tokens; each takes an operator at least
  induction m generalizing vs left with
  | zero => omega
  | succ m ih =>
      refine reads_next fun t' ht' => ?_
      split
      · next hlevel =>
        rw [ht'] at hlevel
        refine reads_advance ?_
        cases htail : vs.tail with
        -- the end binds nothing
        | nil =>
            rw [htail] at hlevel
            exact absurd hlow (Nat.not_le.mpr hlevel)
        | cons t ts =>
            rw [htail] at hlevel hvs hbound
            rw [List.length_cons] at hvs hbound
            refine (hexpr.reads_extend level us htail (by omega) hlow hlevel).bind
              fun n ws hws => ?_
            have hle := hws.length_le
            rw [List.length_cons] at hle
            have hlt : ws.tail.length ≤ ts.length := by
              rw [List.length_tail]
              omega
            exact (ih (by omega) (by omega)).mono
              fun n' xs _ hn' hn hleft => hn' (hn hleft)
      · next hlevel =>
        rw [ht'] at hlevel
        exact reads_pure fun hleft => ⟨Nat.not_lt.mp hlevel, hleft⟩

/-- An expression one rule deeper. -/
lemma expressionWith : Sound (Grammar.expressionWith expr) (bound + 1) := by
  intro level us hlow hhigh hus
  refine reads_entering (reads_current fun e he => ?_)
  obtain _ | ⟨t, ts⟩ := us
  · have hnone : startRule? expr (List.headD [] e).kind = none := by
      rw [List.headD_nil, he]
      rfl
    rw [hnone]
    exact reads_report
  · have hts : ts.length < bound := Nat.lt_of_succ_lt_succ hus
    rw [List.headD_cons]
    split
    · exact reads_report
    · next rule hrule =>
      refine (hexpr.reads_startRule level hts hrule).bind fun left vs hvs => ?_
      have hle := hvs.length_le
      rw [List.length_cons] at hle
      refine reads_get fun r hr => ?_
      refine (hexpr.reads_extensions hlow (t :: ts) _ ?_ ?_).mono
        fun n ws _ hn hleft => hn hleft
      · rw [hr, List.length_tail]
        omega
      · rw [List.length_tail]
        omega

end Sound

/-- Expressions that are nested deep enough for the tokens there are. -/
theorem sound_expression (depth : ℕ) : Sound (expression depth) depth := by
  induction depth with
  | zero => exact fun _ _ _ _ h => absurd h (Nat.not_lt_zero _)
  | succ depth ih => exact ih.expressionWith

/-! ### Programs -/

/-- A program takes all tokens of the stream. -/
lemma reads_program {us : List Token} :
    Reads us program fun n _ => ∃ ss k, n = .program ss ∧
      Derives (.statements ss) us k := by
  refine Reads.of_kind_ne_eof fun hends =>
    reads_entering (reads_get fun r hr => ?_)
  have hbound : us.length < r.unread.length + 1 := by rw [hr]; omega
  refine ((sound_expression _).reads_statements rfl hbound).map ?_
  rintro ss vs hvs ⟨ts, k, hus, -, hstop, hderives⟩
  have hkind : Token.Kind.first vs = .eof := of_decide_eq_true hstop
  obtain rfl := Token.Kind.eq_nil_of_first
    (fun t ht => hends t (hvs.subset ht)) hkind
  rw [List.append_nil] at hus
  exact ⟨ss, k, rfl, hus ▸ hderives⟩

end Grammar

/-- The tokens of a stream before the first end token. -/
def Token.beforeEnd (ts : List Token) : List Token :=
  ts.takeWhile (·.kind ≠ .eof)

/-- A reader starts on the tokens before the first end token. -/
lemma Reader.at_ofTokens (ts : List Token) (tracing : Bool) :
    (Reader.ofTokens ts tracing).At (Token.beforeEnd ts) := by
  refine ⟨?_, ?_, fun t ht => by simpa using List.mem_takeWhile_imp ht⟩
  · show ts.takeWhile (!Reader.isEnd ·) = _
    simp [Token.beforeEnd, Reader.isEnd]
  · show ((ts.find? Reader.isEnd).getD (.made .eof "")).kind = .eof
    cases hfind : ts.find? Reader.isEnd with
    | none => rfl
    | some t => simpa [Reader.isEnd] using List.find?_some hfind

/-- The tokens before the first end token derive the program that the parser
gives, if it reports nothing. -/
lemma exists_derives {ts : List Token} {tracing : Bool}
    (h : (Parser.ofTokens ts tracing).diagnostics = []) :
    ∃ ss k, (Parser.ofTokens ts tracing).program = .program ss ∧
      Derives (.statements ss) (Token.beforeEnd ts) k := by
  obtain ⟨n, vs, r, hrun, -, -, hclean⟩ :=
    reads_program _ (Reader.at_ofTokens ts tracing)
  have hparser : Parser.run (.ofTokens ts tracing) = some (n, r) := hrun
  rw [Parser.ofTokens, hparser] at h ⊢
  exact (hclean (Array.toList_eq_nil_iff.mp h)).2

/-- **The parser is sound.**  If the parser reports nothing on a stream, the
tokens before the first end token derive the program that it gives, and they
are the tokens of its nodes, each once and in order, with punctuation in
between. -/
theorem ofTokens_derives {ts : List Token} {tracing : Bool}
    (h : (Parser.ofTokens ts tracing).diagnostics = []) :
    ∃ ss k, (Parser.ofTokens ts tracing).program = .program ss ∧
      Derives (.statements ss) (Token.beforeEnd ts) k ∧
      Punctuated (Node.program ss).tokens (Token.beforeEnd ts) := by
  obtain ⟨ss, k, hprogram, hderives⟩ := exists_derives h
  exact ⟨ss, k, hprogram, hderives, hderives.punctuated⟩

/-- The tokens of `-a * (b) + fn(x) { x`, whose last block is open. -/
def openFunctionTokens : List Token :=
  [.made .minus "-", .made .ident "a", .made .asterisk "*",
   .made .lparen "(", .made .ident "b", .made .rparen ")", .made .plus "+",
   .made .function "fn", .made .lparen "(", .made .ident "x",
   .made .rparen ")", .made .lbrace "\x7b", .made .ident "x"]

theorem ofTokens_derives_openFunction :
    (Parser.ofTokens openFunctionTokens false).diagnostics = [] ∧
    ∃ ss k, (Parser.ofTokens openFunctionTokens false).program = .program ss ∧
      Derives (.statements ss) (Token.beforeEnd openFunctionTokens) k ∧
      Punctuated (Node.program ss).tokens
        (Token.beforeEnd openFunctionTokens) :=
  have hclean :
      (Parser.ofTokens openFunctionTokens false).diagnostics = [] := by
    decide +kernel
  ⟨hclean, ofTokens_derives hclean⟩

end MonkeyLang

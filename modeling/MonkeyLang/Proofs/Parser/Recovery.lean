/-
How the parser goes on behind tokens that make no program.

* `Token.Kind.isFlat`: the kinds of which a text without brackets and quotes is
  made;
* `Reader.Starved`: the tokens end where an expression has to start;
* `Reader.Feeds X e r r'`: behind the flat tokens of the first reader the second
  one has more, `X`, which start with a `let`;
* `Parse.Feeds`: what a rule gives from the first one it gives from the second,
  and only one that starves has read to the end;
* `Grammar.Feeding`: nested expressions are read so; the lemmas say that all
  rules are, and `feeding_expression` that all expressions are;
* `Grammar.Continues`: some statements are found and then those of `X`, or of
  the rest of `X` behind its `let`;
* `rounds_feeding`: the second reader finds the statements of the first one and
  goes on with `X`, without its `let` if the first one starves.
-/
import MonkeyLang.Proofs.Parser.Concat

namespace MonkeyLang

open Parse Grammar

/-- The kinds of tokens without brackets and quotes. -/
def Token.Kind.isFlat : Token.Kind → Bool
  | eof | string | lparen | rparen | lbrace | rbrace | lbracket | rbracket =>
    false
  | _ => true

/-- Some tokens start with a `let` and a name. -/
def Token.Lets (X : List Token) : Prop :=
  ∃ t u vs, X = t :: u :: vs ∧ t.kind = .letKey ∧ u.kind = .ident

namespace Reader

/-! ### Readers with more tokens -/

/-- The tokens ended where an expression had to start. -/
def Starved (r : Reader) : Prop :=
  ∃ d ∈ r.diagnostics, d.cause = .noExpression .eof

/-- Both readers have the same flat tokens before them, the second one more
behind them. -/
structure Feeds (X : List Token) (e : Token) (r r' : Reader) : Prop where
  flat : ∀ t ∈ r.unread, t.kind.isFlat = true
  unread : r'.unread = r.unread ++ X
  eof_kind : r.eof.kind = .eof
  eof : r'.eof = e

variable {X : List Token} {e : Token} {r r' : Reader}

/-- Only what is left and the end token count. -/
lemma Feeds.congr {s s' : Reader} (h : r.Feeds X e r')
    (hs : s.unread = r.unread ∧ s.eof = r.eof)
    (hs' : s'.unread = r'.unread ∧ s'.eof = r'.eof) : s.Feeds X e s' where
  flat := by rw [hs.1]; exact h.flat
  unread := by rw [hs.1, hs'.1, h.unread]
  eof_kind := by rw [hs.2, h.eof_kind]
  eof := by rw [hs'.2, h.eof]

lemma Feeds.enter (h : r.Feeds X e r') (rule : Rule) :
    (r.enter rule).Feeds X e (r'.enter rule) :=
  h.congr ⟨r.unread_enter rule, r.eof_enter rule⟩
    ⟨r'.unread_enter rule, r'.eof_enter rule⟩

lemma Feeds.leave (h : r.Feeds X e r') (rule : Rule) :
    (r.leave rule).Feeds X e (r'.leave rule) :=
  h.congr ⟨r.unread_leave rule, r.eof_leave rule⟩
    ⟨r'.unread_leave rule, r'.eof_leave rule⟩

lemma Feeds.report (h : r.Feeds X e r') (cause cause' : Diagnostic.Cause)
    (t t' : Token) : (r.report cause t).Feeds X e (r'.report cause' t') :=
  h.congr ⟨rfl, rfl⟩ ⟨rfl, rfl⟩

lemma starved_enter (rule : Rule) : (r.enter rule).Starved ↔ r.Starved := by
  rw [Starved, Starved, diagnostics_enter]

lemma starved_leave (rule : Rule) : (r.leave rule).Starved ↔ r.Starved := by
  rw [Starved, Starved, diagnostics_leave]

/-- Only a fault at the end of the tokens is one of starving. -/
lemma starved_report (cause : Diagnostic.Cause) (t : Token) :
    (r.report cause t).Starved ↔ r.Starved ∨ cause = .noExpression .eof := by
  simp [Starved, report, or_and_right, exists_or]

/-- A reader that stands on a token advances with the other one. -/
lemma Feeds.advance (h : r.Feeds X e r') (hne : r.unread ≠ []) :
    r.advance.Feeds X e r'.advance where
  flat t ht := h.flat t (List.mem_of_mem_tail ht)
  unread := by
    show r'.unread.tail = r.unread.tail ++ X
    rw [h.unread, List.tail_append_of_ne_nil hne]
  eof_kind := h.eof_kind
  eof := h.eof

/-- Then both stand on the same token. -/
lemma Feeds.current (h : r.Feeds X e r') (hne : r.unread ≠ []) :
    r'.current = r.current ∧ r.current.kind.isFlat = true := by
  obtain ⟨t, ts, hunread⟩ := List.exists_cons_of_ne_nil hne
  have hflat := h.flat t (by rw [hunread]; exact List.mem_cons_self)
  rw [Reader.current, Reader.current, h.unread, hunread]
  exact ⟨rfl, hflat⟩

/-- The next token is the same where there is one. -/
lemma Feeds.next_inner (h : r.Feeds X e r') (htail : r.unread.tail ≠ []) :
    r'.next = r.next ∧ r.next.kind.isFlat = true := by
  have hne : r.unread ≠ [] := fun hnil => htail (congrArg List.tail hnil)
  exact (h.advance hne).current htail

lemma Feeds.next_kind_eof (h : r.Feeds X e r') (htail : r.unread.tail = []) :
    r.next.kind = .eof := by
  rw [Reader.next, htail]
  exact h.eof_kind

/-- Behind the last token the second reader finds the `let`. -/
lemma Feeds.next_kind_let (h : r.Feeds X e r') (hX : Token.Lets X)
    (hne : r.unread ≠ []) (htail : r.unread.tail = []) :
    r'.next.kind = .letKey := by
  obtain ⟨t, u, vs, rfl, ht, -⟩ := hX
  rw [Reader.next, h.unread, List.tail_append_of_ne_nil hne, htail]
  exact ht

/-- Where the first reader has nothing left the second stands on the `let`, and
the name is next. -/
lemma Feeds.of_nil (h : r.Feeds X e r') (hX : Token.Lets X)
    (hnil : r.unread = []) :
    r.current.kind = .eof ∧ r'.current.kind = .letKey ∧
      r.next.kind = .eof ∧ r'.next.kind = .ident := by
  obtain ⟨t, u, vs, rfl, ht, hu⟩ := hX
  rw [Reader.current, Reader.current, Reader.next, Reader.next, h.unread, hnil]
  exact ⟨h.eof_kind, ht, h.eof_kind, hu⟩

/-- Behind the last token nothing goes on with an expression or ends a
statement. -/
lemma Feeds.next_last (h : r.Feeds X e r') (hX : Token.Lets X)
    (htail : r.unread.tail = []) :
    (r.next.kind.precedence = lowest ∧ r.next.kind ≠ .semicolon) ∧
      r'.next.kind.precedence = lowest ∧ r'.next.kind ≠ .semicolon := by
  rw [h.next_kind_eof htail]
  by_cases hnil : r.unread = []
  · rw [(h.of_nil hX hnil).2.2.2]
    decide
  · rw [h.next_kind_let hX hnil htail]
    decide

/-- A reader that stands on one of its tokens and did not starve. -/
structure Inside (X : List Token) (e : Token) (r r' : Reader) : Prop where
  feeds : r.Feeds X e r'
  ne_nil : r.unread ≠ []
  fed : ¬ r.Starved

lemma Inside.settled (h : r.Inside X e r') : r.Starved ↔ r.unread = [] :=
  iff_of_false h.fed h.ne_nil

lemma Inside.enter (h : r.Inside X e r') (rule : Rule) :
    (r.enter rule).Inside X e (r'.enter rule) where
  feeds := h.feeds.enter rule
  ne_nil := by rw [unread_enter]; exact h.ne_nil
  fed := by rw [starved_enter]; exact h.fed

end Reader

namespace Parse

variable {α β : Type} {X : List Token} {e : Token} {r r' : Reader}

/-! ### Composition -/

/-- What `p` gives from the first reader `p'` gives from the second.  Only if
the first one starved nothing is left for it. -/
def Feeds (X : List Token) (e : Token) (p p' : Parse α) (r r' : Reader) :
    Prop :=
  ∀ a s, p r = some (a, s) → ∃ s', p' r' = some (a, s') ∧
    s.Feeds X e s' ∧ (s.Starved ↔ s.unread = [])

lemma Feeds.bind {p p' : Parse α} {k k' : α → Parse β}
    (hp : Feeds X e p p' r r')
    (hk : ∀ a s s', s.Feeds X e s' → (s.Starved ↔ s.unread = []) →
      Feeds X e (k a) (k' a) s s') :
    Feeds X e (p >>= k) (p' >>= k') r r' := by
  intro b t hrun
  change (p r).bind _ = _ at hrun
  obtain ⟨⟨a, s⟩, hp₁, hk₁⟩ := Option.bind_eq_some_iff.mp hrun
  obtain ⟨s', hp', hs, hstarved⟩ := hp a s hp₁
  obtain ⟨t', hk', ht⟩ := hk a s s' hs hstarved b t hk₁
  refine ⟨t', ?_, ht⟩
  change (p' r').bind _ = _
  rw [hp']
  exact hk'

lemma feeds_exhausted {p' : Parse α} : Feeds X e exhausted p' r r' := nofun

lemma feeds_pure (h : r.Feeds X e r') (hstarved : r.Starved ↔ r.unread = [])
    (a : α) : Feeds X e (pure a) (pure a) r r' := by
  rintro b s ⟨⟩
  exact ⟨r', rfl, h, hstarved⟩

/-- A last step that only changes the answer. -/
lemma Feeds.map {p p' : Parse α} (hp : Feeds X e p p' r r') (f : α → β) :
    Feeds X e (do return f (← p)) (do return f (← p')) r r' :=
  hp.bind fun a _ _ h hstarved => feeds_pure h hstarved (f a)

lemma feeds_entering {p p' : Parse α} {rule : Rule}
    (hp : Feeds X e p p' (r.enter rule) (r'.enter rule)) :
    Feeds X e (entering rule p) (entering rule p') r r' := by
  have hleave : ∀ (a : α) s s', s.Feeds X e s' → (s.Starved ↔ s.unread = []) →
      Feeds X e (do modify (Reader.leave rule); return a)
        (do modify (Reader.leave rule); return a) s s' := by
    rintro a s s' h hstarved b t ⟨⟩
    refine ⟨s'.leave rule, rfl, h.leave rule, ?_⟩
    rw [Reader.starved_leave, Reader.unread_leave]
    exact hstarved
  exact (hp.bind hleave : Feeds X e _ _ (r.enter rule) (r'.enter rule))

/-! ### Steps -/

lemma feeds_current {k k' : Token → Parse β} (h : r.Inside X e r')
    (hk : r.current.kind.isFlat = true →
      Feeds X e (k r.current) (k' r.current) r r') :
    Feeds X e (current >>= k) (current >>= k') r r' := by
  obtain ⟨hcurrent, hflat⟩ := h.feeds.current h.ne_nil
  show Feeds X e (k r.current) (k' r'.current) r r'
  rw [hcurrent]
  exact hk hflat

lemma feeds_advance {k k' : Unit → Parse β}
    (hk : Feeds X e (k ()) (k' ()) r.advance r'.advance) :
    Feeds X e (advance >>= k) (advance >>= k') r r' :=
  hk

/-- Reporting a fault inside the tokens does not starve a reader. -/
lemma feeds_report {cause cause' : Diagnostic.Cause} {t t' : Token} {a : α}
    (h : r.Inside X e r') (hcause : cause ≠ .noExpression .eof) :
    Feeds X e (do modify (Reader.report cause t); return a)
      (do modify (Reader.report cause' t'); return a) r r' := by
  rintro b s ⟨⟩
  refine ⟨r'.report cause' t', rfl, h.feeds.report _ _ _ _, ?_⟩
  rw [Reader.starved_report]
  exact iff_of_false (not_or.mpr ⟨h.fed, hcause⟩) h.ne_nil

/-- Reading on behind a token of the kind that has to follow, which is one of
the tokens of the first reader. -/
lemma feeds_expecting {kind : Token.Kind} {otherwise : α} {rest rest' : Parse α}
    (h : r.Inside X e r') (hX : Token.Lets X) (hkind : kind ≠ .eof)
    (hlet : kind ≠ .letKey)
    (hrest : kind.isFlat = true → r.advance.Inside X e r'.advance →
      Feeds X e rest rest' r.advance r'.advance) :
    Feeds X e (expecting kind otherwise rest)
      (expecting kind otherwise rest') r r' := by
  have hcause : Diagnostic.Cause.unexpected kind r.next.kind ≠
      .noExpression .eof := nofun
  intro a s hfirst
  rw [expecting_run] at hfirst ⊢
  by_cases htail : r.unread.tail = []
  · rw [if_neg (by rw [h.feeds.next_kind_eof htail]; exact hkind.symm)] at hfirst
    rw [if_neg (by rw [h.feeds.next_kind_let hX h.ne_nil htail]; exact hlet.symm)]
    exact feeds_report h hcause a s hfirst
  · obtain ⟨hnext, hflat⟩ := h.feeds.next_inner htail
    rw [hnext]
    split at hfirst
    · next hfound =>
      rw [if_pos hfound]
      exact hrest (hfound ▸ hflat) ⟨h.feeds.advance h.ne_nil, htail, h.fed⟩
        a s hfirst
    · next hmissed =>
      rw [if_neg hmissed]
      exact feeds_report h hcause a s hfirst

/-- No semicolon follows the last token. -/
lemma feeds_skip (h : r.Feeds X e r') (hX : Token.Lets X)
    (hstarved : r.Starved ↔ r.unread = []) (a : α) :
    Feeds X e (do skip .semicolon; return a) (do skip .semicolon; return a)
      r r' := by
  have hrun (r : Reader) : (do skip .semicolon; return a : Parse α) r =
      some (a, if r.next.kind = .semicolon then r.advance else r) := by
    show (skip .semicolon r).bind _ = _
    rw [skip_run]
    rfl
  intro b s hfirst
  rw [hrun] at hfirst
  cases hfirst
  rw [hrun]
  -- behind the last token the first reader sees the end and the second one a
  -- `let`, so neither moves
  by_cases htail : r.unread.tail = []
  · obtain ⟨⟨-, hnext⟩, -, hnext'⟩ := h.next_last hX htail
    rw [if_neg hnext, if_neg hnext']
    exact ⟨r', rfl, h, hstarved⟩
  · have hne : r.unread ≠ [] := fun hnil => htail (congrArg List.tail hnil)
    obtain ⟨hnext, -⟩ := h.next_inner htail
    rw [hnext]
    split
    · exact ⟨r'.advance, rfl, h.advance hne,
        iff_of_false (mt hstarved.mp hne) htail⟩
    · exact ⟨r', rfl, h, hstarved⟩

/-- A bound that grows with the tokens that are left. -/
lemma feeds_bounded {body body' : ℕ → Parse α} (h : r.Feeds X e r')
    (hbody : ∀ m m', m ≤ m' → Feeds X e (body m) (body' m') r r') :
    Feeds X e (do body ((← get).unread.length + 1))
      (do body' ((← get).unread.length + 1)) r r' := by
  refine hbody _ _ ?_
  rw [h.unread, List.length_append]
  omega

end Parse

namespace Grammar

variable {α : Type} {X : List Token} {e : Token} {r r' : Reader}
  {expr expr' : ℕ → Parse Node}

/-! ### Expressions -/

/-- A token that starts no expression is reported and stays unread. -/
lemma expressionWith_none {level : ℕ}
    (hrule : startRule? expr r.current.kind = none) :
    expressionWith expr level r = some (.missing,
      ((r.enter .expression).report (.noExpression r.current.kind)
        r.current).leave .expression) := by
  rw [Grammar.expressionWith, entering_run, current_run, Reader.current_enter,
    hrule]
  rfl

/-- Nested expressions are read so, also where nothing is left for them. -/
def Feeding (X : List Token) (e : Token) (expr expr' : ℕ → Parse Node) : Prop :=
  ∀ level, lowest ≤ level → ∀ r r', r.Feeds X e r' → ¬ r.Starved →
    Feeds X e (expr level) (expr' level) r r'

namespace Feeding

variable (hexpr : Feeding X e expr expr') (hX : Token.Lets X)

/-- A rule that stays on its token. -/
lemma feeds_atom {rule : Rule} {f : Token → Node} (h : r.Inside X e r') :
    Feeds X e (entering rule do return f (← current))
      (entering rule do return f (← current)) r r' := by
  have h := h.enter rule
  exact feeds_entering (feeds_current h fun _ =>
    feeds_pure h.feeds h.settled _)

lemma feeds_integer (h : r.Inside X e r') :
    Feeds X e integer integer r r' := by
  have h := h.enter .integer
  refine feeds_entering (feeds_current h fun _ => ?_)
  split
  · exact feeds_pure h.feeds h.settled _
  · exact feeds_report h nofun

include hexpr

lemma feeds_prefixOperation (h : r.Inside X e r') :
    Feeds X e (prefixOperation expr) (prefixOperation expr') r r' := by
  have h := h.enter .prefixOperation
  refine feeds_entering (feeds_current h fun _ => feeds_advance ?_)
  exact (hexpr tight (by decide) _ _ (h.feeds.advance h.ne_nil) h.fed).map _

lemma feeds_infixOperation (left : Node) (h : r.Inside X e r')
    (hlevel : lowest ≤ r.current.kind.precedence) :
    Feeds X e (infixOperation expr left) (infixOperation expr' left) r r' := by
  rw [← Reader.current_enter .infixOperation] at hlevel
  have h := h.enter .infixOperation
  refine feeds_entering (feeds_current h fun _ => feeds_advance ?_)
  exact (hexpr _ hlevel _ _ (h.feeds.advance h.ne_nil) h.fed).map _

include hX

/-- Of the rules that an expression starts with those that need a bracket or a
quote meet a fault before they read on. -/
lemma feeds_startRule {rule : Parse Node} (h : r.Inside X e r')
    (hrule : startRule? expr r.current.kind = some rule) :
    ∃ rule', startRule? expr' r.current.kind = some rule' ∧
      Feeds X e rule rule' r r' := by
  -- the rules of `if`, of functions and of macros stop at the parenthesis that
  -- is not there
  have hparen {make make' : Token → Parse Node} {rule : Rule} :
      Feeds X e
        (entering rule do
          let t ← current
          expecting .lparen .missing (make t))
        (entering rule do
          let t ← current
          expecting .lparen .missing (make' t)) r r' := by
    have h := h.enter rule
    refine feeds_entering (feeds_current h fun _ => ?_)
    exact feeds_expecting h hX (by decide) (by decide) nofun
  obtain ⟨-, hflat⟩ := h.feeds.current h.ne_nil
  unfold startRule? at hrule ⊢
  split at hrule <;> cases hrule
  -- strings and the other brackets do not occur
  case h_3 hkind | h_8 hkind | h_12 hkind | h_13 hkind =>
    rw [hkind] at hflat
    cases hflat
  · exact ⟨_, rfl, feeds_atom h⟩
  · exact ⟨_, rfl, feeds_integer h⟩
  · exact ⟨_, rfl, hexpr.feeds_prefixOperation h⟩
  · exact ⟨_, rfl, hexpr.feeds_prefixOperation h⟩
  · exact ⟨_, rfl, feeds_atom h⟩
  · exact ⟨_, rfl, feeds_atom h⟩
  · exact ⟨_, rfl, hparen⟩
  · exact ⟨_, rfl, hparen⟩
  · exact ⟨_, rfl, hparen⟩

/-- An expression goes on with operators that are tokens of the first reader. -/
lemma feeds_extensions {level m m' : ℕ} (hlevel : lowest ≤ level)
    (hm : m ≤ m') (left : Node) (h : r.Feeds X e r')
    (hstarved : r.Starved ↔ r.unread = []) :
    Feeds X e (extensions expr level m left) (extensions expr' level m' left)
      r r' := by
  induction m generalizing m' r r' left with
  | zero => exact feeds_exhausted
  | succ m ih =>
      obtain ⟨m', rfl⟩ : ∃ j, m' = j + 1 := ⟨m' - 1, by omega⟩
      show Feeds X e
        (if level < r.next.kind.precedence then _ else _ : Parse Node)
        (if level < r'.next.kind.precedence then _ else _ : Parse Node) r r'
      -- neither the end nor a `let` binds an operand, so both stop behind the
      -- last token
      by_cases htail : r.unread.tail = []
      · obtain ⟨⟨hnext, -⟩, hnext', -⟩ := h.next_last hX htail
        rw [if_neg (by rw [hnext]; exact Nat.not_lt.mpr hlevel),
          if_neg (by rw [hnext']; exact Nat.not_lt.mpr hlevel)]
        exact feeds_pure h hstarved left
      have hne : r.unread ≠ [] := fun hnil => htail (congrArg List.tail hnil)
      have hinside : r.advance.Inside X e r'.advance :=
        ⟨h.advance hne, htail, mt hstarved.mp hne⟩
      obtain ⟨hnext, hflat⟩ := h.next_inner htail
      rw [hnext]
      split
      · next hbinds =>
        refine feeds_advance (Feeds.bind (?_ : Feeds X e _ _ _ _)
          fun n s s' h hstarved =>
            ih (Nat.le_of_succ_le_succ hm) n h hstarved)
        refine feeds_current hinside fun _ => ?_
        have hoperator : r.advance.current.kind = r.next.kind := rfl
        have hinfix := hexpr.feeds_infixOperation left hinside
          (hoperator ▸ (hlevel.trans_lt hbinds).le)
        rw [hoperator]
        split
        -- calls and indices need a bracket
        · next hkind =>
          rw [hkind] at hflat
          cases hflat
        · next hkind =>
          rw [hkind] at hflat
          cases hflat
        · exact hinfix
      · exact feeds_pure h hstarved left

/-- Expressions one rule deeper are read so.  Where nothing is left the first
reader starves, and the second does not read the `let`. -/
lemma expressionWith : Feeding X e (Grammar.expressionWith expr)
    (Grammar.expressionWith expr') := by
  intro level hlevel r r' h hfed
  -- nothing is left: the first reader reports the end, the second one the
  -- `let`, and both stay where they are
  by_cases hnil : r.unread = []
  · obtain ⟨hcurrent, hcurrent', -⟩ := h.of_nil hX hnil
    intro n s hfirst
    rw [expressionWith_none (by rw [hcurrent]; rfl)] at hfirst
    cases hfirst
    refine ⟨_, expressionWith_none (by rw [hcurrent']; rfl),
      ((h.enter _).report _ _ _ _).leave _, ?_⟩
    rw [Reader.starved_leave, Reader.starved_report, hcurrent]
    refine iff_of_true (Or.inr rfl) ?_
    rw [Reader.unread_leave]
    exact (r.unread_enter .expression).trans hnil
  have h := h.enter .expression
  rw [← Reader.starved_enter .expression] at hfed
  rw [← r.unread_enter .expression] at hnil
  refine feeds_entering (feeds_current ⟨h, hnil, hfed⟩ fun hflat => ?_)
  generalize r.enter .expression = r at h hfed hnil hflat
  generalize r'.enter .expression = r' at h
  cases hrule : startRule? expr r.current.kind with
  -- the token starts no expression for either of them, and the fault is not the
  -- one at the end
  | none =>
      rw [startRule?_eq_none expr' hrule]
      refine feeds_report ⟨h, hnil, hfed⟩ ?_
      intro heof
      rw [Diagnostic.Cause.noExpression.inj heof] at hflat
      cases hflat
  | some rule =>
      obtain ⟨rule', hrule', hfeeds⟩ :=
        hexpr.feeds_startRule hX ⟨h, hnil, hfed⟩ hrule
      rw [hrule']
      exact hfeeds.bind fun left s s' h hstarved =>
        feeds_bounded h fun m m' hm =>
          hexpr.feeds_extensions hX hlevel hm left h hstarved

end Feeding

/-- Expressions are read so, also those that may be nested deeper. -/
theorem feeding_expression (hX : Token.Lets X) {depth depth' : ℕ}
    (h : depth ≤ depth') :
    Feeding X e (expression depth) (expression depth') := by
  induction depth generalizing depth' with
  | zero => exact fun _ _ _ _ _ _ => feeds_exhausted
  | succ depth ih =>
      obtain ⟨depth', rfl⟩ : ∃ j, depth' = j + 1 := ⟨depth' - 1, by omega⟩
      exact (ih (Nat.le_of_succ_le_succ h)).expressionWith hX

/-! ### Statements -/

namespace Feeding

variable (hexpr : Feeding X e expr expr') (hX : Token.Lets X)

include hexpr hX

/-- A value and the semicolon that may stand behind it. -/
lemma feeds_value (answer : Node → α) (h : r.Feeds X e r')
    (hfed : ¬ r.Starved) :
    Feeds X e
      (do
        let value ← expr lowest
        skip .semicolon
        return answer value)
      (do
        let value ← expr' lowest
        skip .semicolon
        return answer value) r r' :=
  (hexpr lowest (Nat.le_refl _) _ _ h hfed).bind fun v _ _ h hstarved =>
    feeds_skip h hX hstarved (answer v)

lemma feeds_letStatement (h : r.Inside X e r') :
    Feeds X e (letStatement expr) (letStatement expr') r r' := by
  have h := h.enter .letStatement
  refine feeds_entering (feeds_current h fun _ => ?_)
  refine feeds_expecting h hX (by decide) (by decide) fun _ h => ?_
  refine feeds_current h fun _ => ?_
  refine feeds_expecting h hX (by decide) (by decide) fun _ h => ?_
  exact feeds_advance
    (hexpr.feeds_value hX _ (h.feeds.advance h.ne_nil) h.fed)

lemma feeds_statement (h : r.Inside X e r') :
    Feeds X e (statement expr) (statement expr') r r' := by
  have h := h.enter .statement
  refine feeds_entering (feeds_current h fun _ => ?_)
  split
  · exact hexpr.feeds_letStatement hX h
  · have h := h.enter .returnStatement
    refine Feeds.map (feeds_entering (feeds_current h fun _ => ?_)) _
    exact feeds_advance
      (hexpr.feeds_value hX _ (h.feeds.advance h.ne_nil) h.fed)
  · have h := h.enter .expressionStatement
    refine Feeds.map (feeds_entering (feeds_current h fun _ => ?_)) _
    exact hexpr.feeds_value hX _ h.feeds h.fed

end Feeding

/-- From a reader of some tokens and `X` behind them some statements are found,
and then whatever is found from a reader of `X`, or of the rest of `X` if the
reader of the tokens alone starved. -/
def Continues (expr' : ℕ → Parse Node) (X : List Token) (e : Token)
    (starved : Prop) (m : ℕ) (r' : Reader) (ns : List (Option Node)) : Prop :=
  ∃ k r'', X.length < k ∧ r''.eof = e ∧
    (¬ starved ∧ r''.unread = X ∨ starved ∧ r''.unread = X.tail) ∧
    ∀ ms s', rounds (statementRound expr' endsProgram) k r'' =
        some (some ms, s') →
      rounds (statementRound expr' endsProgram) m r' =
        some (some (ns ++ ms), s')

lemma Continues.lead {starved : Prop} {m : ℕ} {s : Reader} {n? : Option Node}
    {ns : List (Option Node)}
    (h : Continues expr' X e starved m s.advance ns)
    (hgoes : endsProgram r'.current.kind ≠ true)
    (hstatement : statement expr' r' = some (n?, s)) :
    Continues expr' X e starved (m + 1) r' (n? :: ns) := by
  obtain ⟨k, r'', hk, heof, hunread, hgoOn⟩ := h
  exact ⟨k, r'', hk, heof, hunread, fun ms s' hms =>
    rounds_lead hgoes hstatement (hgoOn ms s' hms)⟩

/-- **Behind tokens without brackets and quotes.**  Whatever faults are met in
them, the second reader finds the statements that the first one does.  Then it
goes on with what it has more, but if the first one starved it passed the `let`
there. -/
theorem rounds_feeding (hX : Token.Lets X) {m m' : ℕ}
    (hexpr : Feeding X e expr expr') (h : r.Feeds X e r') (hfed : ¬ r.Starved)
    (hm : m + X.length ≤ m') {found : Option (List (Option Node))} {s : Reader}
    (hrun : rounds (statementRound expr endsProgram) m r = some (found, s)) :
    ∃ ns, found = some ns ∧ Continues expr' X e s.Starved m' r' ns := by
  -- the induction is on the rounds of the first reader, and the invariant that
  -- the second one has the same tokens before those it has more
  induction m generalizing m' r r' found s with
  | zero => cases hrun
  | succ m ih =>
      obtain ⟨m', rfl⟩ : ∃ j, m' = j + 1 := ⟨m' - 1, by omega⟩
      -- the first one is done, and what is left to the second is all that it
      -- has more
      by_cases hnil : r.unread = []
      · have hend : endsProgram r.current.kind = true := by
          rw [(h.of_nil hX hnil).1]
          rfl
        rw [rounds_end hend] at hrun
        cases hrun
        refine ⟨[], rfl, m' + 1, r', by omega, h.eof, Or.inl ⟨hfed, ?_⟩,
          fun _ _ => id⟩
        rw [h.unread, hnil, List.nil_append]
      obtain ⟨hcurrent, hflat⟩ := h.current hnil
      have hgoes : endsProgram r.current.kind ≠ true := fun hend => by
        rw [of_decide_eq_true hend] at hflat
        cases hflat
      rw [rounds_go hgoes] at hrun
      obtain ⟨⟨n?, s₁⟩, hstatement, hrun⟩ := Option.bind_eq_some_iff.mp hrun
      obtain ⟨⟨found₁, s₂⟩, hrest, hfound⟩ := Option.map_eq_some_iff.mp hrun
      cases hfound
      obtain ⟨s₁', hstatement', h₁, hstarved⟩ :=
        hexpr.feeds_statement hX ⟨h, hnil, hfed⟩ n? s₁ hstatement
      rw [← hcurrent] at hgoes
      by_cases hnil₁ : s₁.unread = []
      · -- it starved, so it ends here and the other one passes the `let`
        have hend : endsProgram s₁.advance.current.kind = true := by
          rw [Reader.current, Reader.advance, hnil₁]
          exact decide_eq_true h₁.eof_kind
        obtain ⟨m, rfl⟩ : ∃ j, m = j + 1 := by
          cases m with
          | zero => cases hrest
          | succ m => exact ⟨m, rfl⟩
        rw [rounds_end hend] at hrest
        cases hrest
        have hpast : s₁'.advance.unread = X.tail := by
          rw [Reader.advance, h₁.unread, hnil₁, List.nil_append]
        have hcontinues : Continues expr' X e s₁.advance.Starved m'
            s₁'.advance [] :=
          ⟨m', s₁'.advance, by omega, h₁.eof,
            Or.inr ⟨hstarved.mpr hnil₁, hpast⟩, fun _ _ => id⟩
        exact ⟨[n?], rfl, hcontinues.lead hgoes hstatement'⟩
      · have hroom : m + X.length ≤ m' := by omega
        obtain ⟨ns, rfl, hcontinues⟩ := ih (h₁.advance hnil₁)
          (mt hstarved.mp hnil₁) hroom hrest
        exact ⟨n? :: ns, rfl, hcontinues.lead hgoes hstatement'⟩

end Grammar

end MonkeyLang

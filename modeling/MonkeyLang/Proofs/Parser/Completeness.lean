/-
Whatever writes a tree is read as that tree.

* `Place.Admits`: the precedence with which the parser reads an expression at
  a place, and the tokens that may follow there;
* `Phrase.Read`: what the parser makes of tokens that write a phrase, whatever
  follows them;
* `Writes.read`: every phrase is read, by induction on how it is written;
* `ofTokens_of_writtenAs`: the parser gives back every complete tree from
  whatever tokens write it.
-/
import MonkeyLang.Parser
import MonkeyLang.Proofs.Parser.Complete
import MonkeyLang.Proofs.Parser.Rules

namespace MonkeyLang

open Parse Grammar

/-! ### What may follow -/

/-- An expression without parentheses of its own is read as a whole at this
precedence and before a token of this kind: its operator, if it has one, is
stronger than the precedence, and what follows is not taken into its last
operand. -/
def Node.Fits : Node → ℕ → Token.Kind → Prop
  | infixOp t _ _, level, next =>
    level < t.kind.precedence ∧ next.precedence ≤ t.kind.precedence
  | prefixOp .., _, next => next.precedence ≤ tight
  | _, _, _ => True

/-- The precedence with which an expression is read at a place, and the kinds
of tokens that follow it there. -/
def Place.Admits : Place → ℕ → Token.Kind → Prop
  | free, level, next => level = lowest ∧ next.precedence ≤ lowest
  | left op, level, next =>
    op.isInfix = true ∧ level < op.precedence ∧ next = op
  | right op, level, next =>
    op.isInfix = true ∧ level = op.precedence ∧ next.precedence ≤ op.precedence
  | operand, level, next => level = tight ∧ next.precedence ≤ tight
  | applied, _, _ => True

/-- Where a place demands no parentheses, the expression fits. -/
lemma Place.Admits.fits {place : Place} {level : ℕ} {next : Token.Kind}
    {n : Node} (h : place.Admits level next) (hplace : ¬ place.Demands n)
    (hn : ∀ t l r, n = .infixOp t l r → t.kind.isInfix = true) :
    n.Fits level next := by
  have hweak : lowest < tight := by decide
  -- only operators and signs may fail to fit; each place bounds what precedence
  -- stands behind them
  cases n with
  | infixOp t l r =>
      obtain ⟨hlow, htight⟩ := Token.Kind.precedence_of_isInfix (hn t l r rfl)
      cases place with
      | free =>
          obtain ⟨rfl, hnext⟩ := h
          exact ⟨hlow, by omega⟩
      | left op =>
          obtain ⟨-, hlevel, rfl⟩ := h
          have hle : next.precedence ≤ t.kind.precedence := Nat.not_lt.mp hplace
          exact ⟨by omega, hle⟩
      | right op =>
          obtain ⟨-, rfl, hnext⟩ := h
          have hlt : op.precedence < t.kind.precedence := Nat.not_le.mp hplace
          exact ⟨hlt, by omega⟩
      | operand => exact absurd trivial hplace
      | applied => exact absurd trivial hplace
  | prefixOp t r =>
      show next.precedence ≤ tight
      cases place with
      | free =>
          have hnext := h.2
          omega
      | left op =>
          obtain ⟨hop, -, rfl⟩ := h
          have htight := (Token.Kind.precedence_of_isInfix hop).2
          omega
      | right op =>
          obtain ⟨hop, -, hnext⟩ := h
          have htight := (Token.Kind.precedence_of_isInfix hop).2
          omega
      | operand => exact h.2
      | applied => exact absurd trivial hplace
  | _ => trivial

/-! ### What is read -/

/-- An expression is read, and the parser goes on with it at the tokens behind
it. -/
def ReadOn (n : Node) (ts rest : List Token) (depth level : ℕ) : Prop :=
  ∀ (a : Node) (d : Cursor),
    (∀ k, rest.length < k →
      Gives (.before rest) (extensions (expression depth) level k n) a d) →
    Gives (.on (ts ++ rest)) (reading (expression depth) level) a d

/-- What the parser makes of tokens that write a phrase, whatever follows
them, if expressions may be nested deep enough. -/
def Phrase.Read : Phrase → List Token → Prop
  | bare n, ts => ∀ depth level rest, ts.length ≤ depth + 1 → level ≤ tight →
    Token.Kind.first rest ≠ .elseKey →
    n.Fits level (Token.Kind.first rest) → ReadOn n ts rest depth level
  | expression place n, ts => ∀ depth level rest, ts.length ≤ depth + 1 →
    level ≤ tight → Token.Kind.first rest ≠ .elseKey →
    place.Admits level (Token.Kind.first rest) → ReadOn n ts rest depth level
  | list ns, ts => ∀ depth c rest, ts.length ≤ depth →
    c.kind = .rparen ∨ c.kind = .rbracket →
    Gives (.before (ts ++ c :: rest))
      (Grammar.list (Grammar.expression depth) c.kind) (some ns) (.before rest)
  | moreItems ns, ts => ∀ depth c rest k, ts.length ≤ depth → ts.length < k →
    c.kind = .rparen ∨ c.kind = .rbracket →
    Gives (.before (ts ++ c :: rest))
      (rounds (listRound (listItem (Grammar.expression depth))) k) (some ns)
      (.before (c :: rest))
  | params ns, ts => ∀ c rest, c.kind = .rparen →
    Gives (.before (ts ++ c :: rest)) parameters (some ns) (.before rest)
  | moreParams ns, ts => ∀ c rest k, ts.length < k → c.kind = .rparen →
    Gives (.before (ts ++ c :: rest)) (rounds (listRound parameterItem) k)
      (some ns) (.before (c :: rest))
  | entries ps, ts => ∀ depth c rest k, ts.length ≤ depth → ts.length < k →
    c.kind = .rbrace →
    Gives (.before (ts ++ c :: rest))
      (rounds (hashRound (Grammar.expression depth)) k) (some ps)
      (.before (c :: rest))
  | statement n, ts => ∀ depth rest, ts.length ≤ depth →
    Gives (.on (ts ++ rest)) (Grammar.statement (Grammar.expression depth))
      (some n) (.before rest)
  | statements ns, ts => ∀ depth stop rest k, ts.length ≤ depth →
    ts.length < k → (∀ kind, stop kind = true → kind = .rbrace ∨ kind = .eof) →
    stop (Token.Kind.first rest) = true →
    Gives (.on (ts ++ rest))
      (rounds (statementRound (Grammar.expression depth) stop) k)
      (some (ns.map some)) (.on rest)
  | block n, ts => ∀ depth rest, ts.length ≤ depth →
    Gives (.on (ts ++ rest)) (Grammar.block (Grammar.expression depth)) n
      (.before rest)

namespace Phrase.Read

variable {place : Place} {n : Node} {ts : List Token}

/-- An expression is read to its end where what follows does not go on with
it. -/
lemma gives (h : (Phrase.expression place n).Read ts)
    (hw : Writes (.expression place n) ts) {depth level : ℕ}
    (rest : List Token) (hdepth : ts.length ≤ depth) (hlevel : level ≤ tight)
    (helse : Token.Kind.first rest ≠ .elseKey)
    (hplace : place.Admits level (Token.Kind.first rest))
    (hnext : (Token.Kind.first rest).precedence ≤ level) :
    Gives (.on (ts ++ rest)) (Grammar.expression depth level) n
      (.before rest) := by
  obtain ⟨t, us, rfl, -⟩ := hw.starts
  obtain ⟨depth, rfl⟩ : ∃ j, depth = j + 1 :=
    ⟨depth - 1, by rw [List.length_cons] at hdepth; omega⟩
  rw [expression_succ]
  refine Gives.entering _ (h depth level rest hdepth hlevel helse hplace _ _ ?_)
  exact fun k hk => gives_noExtension hnext (by omega)

/-- An expression on its own is read to its end. -/
lemma gives_free (h : (Phrase.expression .free n).Read ts)
    (hw : Writes (.expression .free n) ts) {depth : ℕ} (rest : List Token)
    (hdepth : ts.length ≤ depth)
    (hnext : (Token.Kind.first rest).ends = true) :
    Gives (.on (ts ++ rest)) (Grammar.expression depth lowest) n
      (.before rest) := by
  obtain ⟨hlow, helse⟩ := Token.Kind.precedence_of_ends hnext
  exact h.gives hw rest hdepth (by decide) helse ⟨rfl, hlow⟩ hlow

end Phrase.Read

/-! ### Operators -/

section

variable {t c s : Token} {n l r : Node} {ts us : List Token}

/-- An operator before an operand that is read. -/
lemma read_prefixOp (ht : t.kind.isPrefix = true)
    (hw : Writes (.expression .operand r) ts)
    (hr : (Phrase.expression .operand r).Read ts) :
    (Phrase.bare (.prefixOp t r)).Read (t :: ts) := by
  intro depth level rest hdepth _ helse hfits a d hrest
  rw [List.length_cons] at hdepth
  have hrule : startRule? (expression depth) t.kind =
      some (prefixOperation (expression depth)) := by
    revert ht
    cases t.kind <;> simp [Token.Kind.isPrefix, startRule?]
  have hoperand : Gives (.on (ts ++ rest)) (expression depth tight) r
      (.before rest) :=
    hr.gives hw rest (by omega) (Nat.le_refl _) helse ⟨rfl, hfits⟩ hfits
  exact gives_reading hrule (gives_prefixOperation hoperand) hrest

/-- An operator between operands that are read.  The left one is read first
and goes on with the operator. -/
lemma read_infixOp (ht : t.kind.isInfix = true)
    (hl : (Phrase.expression (.left t.kind) l).Read ts)
    (hw : Writes (.expression (.right t.kind) r) us)
    (hr : (Phrase.expression (.right t.kind) r).Read us) :
    (Phrase.bare (.infixOp t l r)).Read (ts ++ t :: us) := by
  intro depth level rest hdepth hlevel helse hfits a d hrest
  rw [List.length_append, List.length_cons] at hdepth
  obtain ⟨hstronger, hnext⟩ := hfits
  obtain ⟨-, htight⟩ := Token.Kind.precedence_of_isInfix ht
  obtain ⟨hparen, hbracket⟩ := Token.Kind.not_bracket_of_isInfix ht
  -- an `if` at the end of the left operand must not find an `else` behind it
  have hne : t.kind ≠ .elseKey := by
    intro hkind
    rw [hkind] at ht
    cases ht
  have hright : Gives (.on (us ++ rest))
      (expression depth t.kind.precedence) r (.before rest) :=
    hr.gives hw rest (by omega) (Nat.le_of_lt htight) helse ⟨ht, rfl, hnext⟩
      hnext
  rw [List.append_assoc]
  -- it is read first; the loop that it leaves goes on with the operator, which
  -- costs one round more
  refine hl depth level (t :: us ++ rest) (by omega) hlevel hne
    ⟨ht, hstronger, rfl⟩ a d fun k hk => ?_
  obtain ⟨k, rfl⟩ : ∃ j, k = j + 1 := ⟨k - 1, by omega⟩
  rw [List.cons_append, List.length_cons, List.length_append] at hk
  exact gives_extension hstronger
    (gives_extend_infixOperation hparen hbracket (gives_infixOperation hright))
    (hrest k (by omega))

/-- What an opening bracket makes of an expression that is read, if it is read up
to the closing one. -/
lemma read_extended (ht : t.kind = .lparen ∨ t.kind = .lbracket)
    (hl : (Phrase.expression .applied l).Read ts)
    (hextend : ∀ depth rest, us.length ≤ depth →
      Gives (.on (t :: (us ++ c :: rest)))
        (Grammar.extend (Grammar.expression depth) l) n (.before rest)) :
    (Phrase.bare n).Read (ts ++ t :: (us ++ [c])) := by
  intro depth level rest hdepth hlevel _ _ a d hrest
  simp only [List.length_append, List.length_cons, List.length_nil] at hdepth
  have hstronger : level < t.kind.precedence := by
    refine Nat.lt_of_le_of_lt hlevel ?_
    rcases ht with ht | ht <;> rw [ht] <;> decide
  have helse : t.kind ≠ .elseKey := by
    rcases ht with ht | ht <;> rw [ht] <;> decide
  rw [List.append_assoc]
  refine hl depth level (t :: (us ++ [c]) ++ rest) (by omega) hlevel helse
    trivial a d fun k hk => ?_
  obtain ⟨k, rfl⟩ : ∃ j, k = j + 1 := ⟨k - 1, by omega⟩
  simp only [List.cons_append, List.append_assoc, List.nil_append,
    List.length_cons, List.length_append] at hk ⊢
  exact gives_extension hstronger (hextend depth rest (by omega))
    (hrest k (by omega))

/-- A call of an expression that is read. -/
lemma read_call {as : List Node} (ht : t.kind = .lparen) (hc : c.kind = .rparen)
    (hl : (Phrase.expression .applied l).Read ts)
    (has : (Phrase.list as).Read us) :
    (Phrase.bare (.call t l as)).Read (ts ++ t :: (us ++ [c])) := by
  refine read_extended (Or.inl ht) hl fun depth rest hdepth => ?_
  have hargs := has depth c rest hdepth (Or.inl hc)
  rw [hc] at hargs
  exact gives_extend_call ht (gives_call hargs)

/-- An index into an expression that is read. -/
lemma read_index {i : Node} (ht : t.kind = .lbracket) (hc : c.kind = .rbracket)
    (hl : (Phrase.expression .applied l).Read ts)
    (hw : Writes (.expression .free i) us)
    (hi : (Phrase.expression .free i).Read us) :
    (Phrase.bare (.index t l i)).Read (ts ++ t :: (us ++ [c])) := by
  refine read_extended (Or.inr ht) hl fun depth rest hdepth => ?_
  have hposition : Gives (.on (us ++ c :: rest)) (expression depth lowest) i
      (.before (c :: rest)) :=
    hi.gives_free hw _ hdepth (by simp [hc, Token.Kind.ends])
  exact gives_extend_index ht (gives_index hc hposition)

/-! ### Expressions that start with a token of their own -/

/-- Parentheses leave no trace. -/
lemma read_group {place : Place} {o : Token} (ho : o.kind = .lparen)
    (hc : c.kind = .rparen) (hw : Writes (.expression .free n) ts)
    (hn : (Phrase.expression .free n).Read ts) :
    (Phrase.expression place n).Read (o :: (ts ++ [c])) := by
  intro depth level rest hdepth _ _ _ a d hrest
  simp only [List.length_append, List.length_cons, List.length_nil] at hdepth
  have hinner : Gives (.on (ts ++ c :: rest)) (expression depth lowest) n
      (.before (c :: rest)) :=
    hn.gives_free hw _ (by omega) (by simp [hc, Token.Kind.ends])
  rw [List.cons_append, List.append_assoc]
  exact gives_reading (by rw [ho]; rfl) (gives_group hc hinner) hrest

/-- An expression that needs no parentheses where it stands. -/
lemma read_plain {place : Place} (hplace : ¬ place.Demands n)
    (hw : Writes (.bare n) ts) (hn : (Phrase.bare n).Read ts) :
    (Phrase.expression place n).Read ts := by
  intro depth level rest hdepth hlevel helse hadmits
  refine hn depth level rest hdepth hlevel helse (hadmits.fits hplace ?_)
  rintro t l r rfl
  cases hw with
  | infixOp ht => exact ht

/-- A conditional without an alternative, behind which no other starts. -/
lemma read_ifThen {o : Token} {b : Node} (ht : t.kind = .ifKey)
    (ho : o.kind = .lparen) (hc : c.kind = .rparen)
    (hwn : Writes (.expression .free n) ts)
    (hn : (Phrase.expression .free n).Read ts) (hwb : Writes (.block b) us)
    (hb : (Phrase.block b).Read us) :
    (Phrase.bare (.conditional t n b .missing)).Read
      (t :: o :: (ts ++ c :: us)) := by
  intro depth level rest hdepth _ helse _ a d hrest
  simp only [List.length_append, List.length_cons] at hdepth
  obtain ⟨m, ws, rfl, hm⟩ := hwb.starts
  have hcondition : Gives (.on (ts ++ c :: (m :: ws ++ rest)))
      (expression depth lowest) n (.before (c :: (m :: ws ++ rest))) :=
    hn.gives_free hwn _ (by omega) (by simp [hc, Token.Kind.ends])
  have hbody := hb depth rest (by omega)
  rw [List.cons_append, List.cons_append, List.append_assoc]
  exact gives_reading (by rw [ht]; rfl) (gives_conditional ho hc hm hcondition
    hbody (Or.inl ⟨helse, rfl, rfl⟩)) hrest

/-- A conditional with an alternative. -/
lemma read_ifThenElse {o : Token} {b b' : Node} {vs : List Token}
    (ht : t.kind = .ifKey) (ho : o.kind = .lparen) (hc : c.kind = .rparen)
    (hs : s.kind = .elseKey) (hwn : Writes (.expression .free n) ts)
    (hn : (Phrase.expression .free n).Read ts) (hwb : Writes (.block b) us)
    (hb : (Phrase.block b).Read us) (hwb' : Writes (.block b') vs)
    (hb' : (Phrase.block b').Read vs) :
    (Phrase.bare (.conditional t n b b')).Read
      (t :: o :: (ts ++ c :: (us ++ s :: vs))) := by
  intro depth level rest hdepth _ _ _ a d hrest
  simp only [List.length_append, List.length_cons] at hdepth
  obtain ⟨m, ws, rfl, hm⟩ := hwb.starts
  obtain ⟨m', ws', rfl, hm'⟩ := hwb'.starts
  rw [List.length_cons, List.length_cons] at hdepth
  have hcondition : Gives
      (.on (ts ++ c :: (m :: ws ++ s :: (m' :: ws' ++ rest))))
      (expression depth lowest) n
      (.before (c :: (m :: ws ++ s :: (m' :: ws' ++ rest)))) :=
    hn.gives_free hwn _ (by omega) (by simp [hc, Token.Kind.ends])
  have hbody := hb depth (s :: (m' :: ws' ++ rest))
    (by rw [List.length_cons]; omega)
  have hbody' := hb' depth rest (by rw [List.length_cons]; omega)
  rw [List.cons_append, List.cons_append, List.append_assoc, List.cons_append,
    List.append_assoc]
  exact gives_reading (by rw [ht]; rfl) (gives_conditional ho hc hm hcondition
    hbody (Or.inr ⟨s, m', ws' ++ rest, rfl, hs, hm', hbody'⟩)) hrest

/-- What starts with a word, parameters and a body. -/
lemma read_abstraction {o : Token} {ns : List Node} {b : Node}
    {make : Token → List Node → Node → Node} (rule : Rule)
    (hrule : ∀ expr, startRule? expr t.kind =
      some (entering rule (abstraction expr make)))
    (ho : o.kind = .lparen) (hc : c.kind = .rparen)
    (hns : (Phrase.params ns).Read ts) (hwb : Writes (.block b) us)
    (hb : (Phrase.block b).Read us) (depth level : ℕ) (rest : List Token)
    (hdepth : us.length ≤ depth) :
    ReadOn (make t ns b) (t :: o :: (ts ++ c :: us)) rest depth level := by
  intro a d hrest
  obtain ⟨m, ws, rfl, hm⟩ := hwb.starts
  have hparams := hns c (m :: ws ++ rest) hc
  have hbody := hb depth rest hdepth
  rw [List.cons_append, List.cons_append, List.append_assoc]
  exact gives_reading (hrule _)
    (Gives.entering _ (gives_abstraction make ho hm hparams hbody)) hrest

/-- An array of members that are read. -/
lemma read_array {es : List Node} (ht : t.kind = .lbracket)
    (hc : c.kind = .rbracket) (hes : (Phrase.list es).Read ts) :
    (Phrase.bare (.array t es)).Read (t :: (ts ++ [c])) := by
  intro depth level rest hdepth _ _ _ a d hrest
  simp only [List.length_append, List.length_cons, List.length_nil] at hdepth
  have helements := hes depth c rest (by omega) (Or.inr hc)
  rw [hc] at helements
  rw [List.cons_append, List.append_assoc]
  exact gives_reading (by rw [ht]; rfl) (gives_array helements) hrest

/-- A hash of entries that are read. -/
lemma read_hash {ps : List (Node × Node)} (ht : t.kind = .lbrace)
    (hc : c.kind = .rbrace) (hps : (Phrase.entries ps).Read ts) :
    (Phrase.bare (.hash t ps)).Read (t :: (ts ++ [c])) := by
  intro depth level rest hdepth _ _ _ a d hrest
  simp only [List.length_append, List.length_cons, List.length_nil] at hdepth
  have hentries : Gives (.before (ts ++ c :: rest))
      (repeated (hashRound (expression depth))) (some ps)
      (.before (c :: rest)) := by
    refine Gives.repeated_before fun k hk => ?_
    rw [List.length_append] at hk
    exact hps depth c rest k (by omega) (by omega) hc
  rw [List.cons_append, List.append_assoc]
  exact gives_reading (by rw [ht]; rfl) (gives_hash hc hentries) hrest

/-! ### Lists and entries -/

/-- What cannot start an expression does not start the tokens of one. -/
lemma first_ne_of_writes {place : Place} {kind : Token.Kind}
    (hw : Writes (.expression place n) ts)
    (hkind : kind.startsExpression = false) (rest : List Token) :
    Token.Kind.first (ts ++ rest) ≠ kind := by
  obtain ⟨t, us, rfl, ht⟩ := hw.starts
  rintro rfl
  rw [List.cons_append, Token.Kind.first_cons] at hkind
  rw [ht] at hkind
  cases hkind

/-- An item of a list ends at the comma behind it or where the list ends. -/
lemma ends_before_items {ns : List Node} (hws : Writes (.moreItems ns) us)
    (hc : c.kind = .rparen ∨ c.kind = .rbracket) (rest : List Token) :
    (Token.Kind.first (us ++ c :: rest)).ends = true := by
  rcases hws.starts with rfl | ⟨s, vs, rfl, hs⟩
  · rcases hc with hc | hc <;> simp [hc, Token.Kind.ends]
  · simp [hs, Token.Kind.ends]

/-- A first expression and further ones. -/
lemma read_items {ns : List Node} (hw : Writes (.expression .free n) ts)
    (hn : (Phrase.expression .free n).Read ts) (hws : Writes (.moreItems ns) us)
    (hns : (Phrase.moreItems ns).Read us) :
    (Phrase.list (n :: ns)).Read (ts ++ us) := by
  intro depth c rest hdepth hc
  rw [List.length_append] at hdepth
  rw [List.append_assoc]
  have hclose : c.kind.startsExpression = false := by
    rcases hc with hc | hc <;> rw [hc] <;> rfl
  have hitem : Gives (.on (ts ++ (us ++ c :: rest))) (expression depth lowest) n
      (.before (us ++ c :: rest)) :=
    hn.gives_free hw _ (by omega) (ends_before_items hws hc rest)
  refine gives_list_cons (first_ne_of_writes hw hclose _) hitem ?_
  refine Gives.repeated_before fun k hk => ?_
  rw [List.length_append] at hk
  exact hns depth c rest k (by omega) (by omega) hc

/-- A comma, an expression and further ones. -/
lemma read_item {ns : List Node} (hs : s.kind = .comma)
    (hw : Writes (.expression .free n) ts)
    (hn : (Phrase.expression .free n).Read ts) (hws : Writes (.moreItems ns) us)
    (hns : (Phrase.moreItems ns).Read us) :
    (Phrase.moreItems (n :: ns)).Read (s :: (ts ++ us)) := by
  intro depth c rest k hdepth hk hc
  rw [List.length_cons, List.length_append] at hdepth hk
  obtain ⟨k, rfl⟩ : ∃ j, k = j + 1 := ⟨k - 1, by omega⟩
  have hitem : Gives (.on (ts ++ (us ++ c :: rest))) (expression depth lowest) n
      (.before (us ++ c :: rest)) :=
    hn.gives_free hw _ (by omega) (ends_before_items hws hc rest)
  rw [List.cons_append, List.append_assoc]
  exact Gives.round (gives_listRound_item hs hitem)
    (hns depth c rest k (by omega) (by omega) hc)

/-- A key, a value and nothing behind them. -/
lemma read_lastEntry (hs : s.kind = .colon) (hwn : Writes (.expression .free n) ts)
    (hn : (Phrase.expression .free n).Read ts)
    (hwl : Writes (.expression .free l) us)
    (hl : (Phrase.expression .free l).Read us) :
    (Phrase.entries [(n, l)]).Read (ts ++ s :: us) := by
  intro depth c rest k hdepth hk hc
  rw [List.length_append, List.length_cons] at hdepth hk
  obtain ⟨k, rfl⟩ : ∃ j, k = j + 2 := ⟨k - 2, by omega⟩
  have hfirst : Token.Kind.first (ts ++ s :: (us ++ c :: rest)) ≠ .rbrace :=
    first_ne_of_writes hwn rfl _
  have hkey : Gives (.on (ts ++ s :: (us ++ c :: rest)))
      (expression depth lowest) n (.before (s :: (us ++ c :: rest))) :=
    hn.gives_free hwn _ (by omega) (by simp [hs, Token.Kind.ends])
  have hvalue : Gives (.on (us ++ c :: rest)) (expression depth lowest) l
      (.before (c :: rest)) :=
    hl.gives_free hwl _ (by omega) (by simp [hc, Token.Kind.ends])
  rw [List.append_assoc, List.cons_append]
  exact Gives.round
    (gives_hashRound_item hfirst hs hkey hvalue (Or.inl ⟨hc, rfl⟩))
    (Gives.done (gives_hashRound_done hc))

/-- A key, a value, a comma and further entries. -/
lemma read_entry {m : Token} {ps : List (Node × Node)} {vs : List Token}
    (hs : s.kind = .colon) (hm : m.kind = .comma)
    (hwn : Writes (.expression .free n) ts)
    (hn : (Phrase.expression .free n).Read ts)
    (hwl : Writes (.expression .free l) us)
    (hl : (Phrase.expression .free l).Read us)
    (hps : (Phrase.entries ps).Read vs) :
    (Phrase.entries ((n, l) :: ps)).Read (ts ++ s :: (us ++ m :: vs)) := by
  intro depth c rest k hdepth hk hc
  simp only [List.length_append, List.length_cons] at hdepth hk
  obtain ⟨k, rfl⟩ : ∃ j, k = j + 1 := ⟨k - 1, by omega⟩
  have hfirst : Token.Kind.first
      (ts ++ s :: (us ++ m :: (vs ++ c :: rest))) ≠ .rbrace :=
    first_ne_of_writes hwn rfl _
  have hkey : Gives (.on (ts ++ s :: (us ++ m :: (vs ++ c :: rest))))
      (expression depth lowest) n
      (.before (s :: (us ++ m :: (vs ++ c :: rest)))) :=
    hn.gives_free hwn _ (by omega) (by simp [hs, Token.Kind.ends])
  have hvalue : Gives (.on (us ++ m :: (vs ++ c :: rest)))
      (expression depth lowest) l (.before (m :: (vs ++ c :: rest))) :=
    hl.gives_free hwl _ (by omega) (by simp [hm, Token.Kind.ends])
  rw [List.append_assoc, List.cons_append, List.append_assoc, List.cons_append]
  exact Gives.round
    (gives_hashRound_item hfirst hs hkey hvalue (Or.inr ⟨m, hm, rfl⟩))
    (hps depth c rest k (by omega) (by omega) hc)

/-! ### Statements -/

/-- A binding of a value that is read. -/
lemma read_letStmt {name q : Token} (ht : t.kind = .letKey)
    (hname : name.kind = .ident) (hq : q.kind = .assign)
    (hs : s.kind = .semicolon) (hw : Writes (.expression .free n) ts)
    (hn : (Phrase.expression .free n).Read ts) :
    (Phrase.statement (.letStmt t name n)).Read
      (t :: name :: q :: (ts ++ [s])) := by
  intro depth rest hdepth
  simp only [List.length_append, List.length_cons] at hdepth
  have hvalue : Gives (.on (ts ++ s :: rest)) (expression depth lowest) n
      (.before (s :: rest)) :=
    hn.gives_free hw _ (by omega) (by simp [hs, Token.Kind.ends])
  simp only [List.cons_append, List.append_assoc]
  exact gives_statement_let ht (gives_letStatement hname hq hs hvalue)

/-- A return of a value that is read. -/
lemma read_returnStmt (ht : t.kind = .returnKey) (hs : s.kind = .semicolon)
    (hw : Writes (.expression .free n) ts)
    (hn : (Phrase.expression .free n).Read ts) :
    (Phrase.statement (.returnStmt t n)).Read (t :: (ts ++ [s])) := by
  intro depth rest hdepth
  simp only [List.length_append, List.length_cons] at hdepth
  have hvalue : Gives (.on (ts ++ s :: rest)) (expression depth lowest) n
      (.before (s :: rest)) :=
    hn.gives_free hw _ (by omega) (by simp [hs, Token.Kind.ends])
  simp only [List.cons_append, List.append_assoc]
  exact gives_statement_return ht (gives_returnStatement hs hvalue)

/-- The first token of an expression does not start any other statement. -/
lemma not_keyword_of_writes (hw : Writes (.expression .free n) (t :: ts)) :
    t.kind ≠ .letKey ∧ t.kind ≠ .returnKey :=
  ⟨first_ne_of_writes hw rfl [], first_ne_of_writes hw rfl []⟩

/-- An expression that is read, as a statement. -/
lemma read_exprStmt (hs : s.kind = .semicolon)
    (hw : Writes (.expression .free n) (t :: ts))
    (hn : (Phrase.expression .free n).Read (t :: ts)) :
    (Phrase.statement (.exprStmt t n)).Read (t :: (ts ++ [s])) := by
  intro depth rest hdepth
  simp only [List.length_append, List.length_cons] at hdepth
  obtain ⟨hlet, hreturn⟩ := not_keyword_of_writes hw
  have hvalue : Gives (.on (t :: ts ++ s :: rest)) (expression depth lowest) n
      (.before (s :: rest)) :=
    hn.gives_free hw _ (by rw [List.length_cons]; omega)
      (by simp [hs, Token.Kind.ends])
  simp only [List.cons_append, List.append_assoc]
  exact gives_statement_expression hlet hreturn
    (gives_expressionStatement hs hvalue)

/-- A statement and those behind it. -/
lemma read_statements {ns : List Node} (hw : Writes (.statement n) ts)
    (hn : (Phrase.statement n).Read ts) (hns : (Phrase.statements ns).Read us) :
    (Phrase.statements (n :: ns)).Read (ts ++ us) := by
  intro depth stop rest k hdepth hk hstop hrest
  rw [List.length_append] at hdepth hk
  obtain ⟨t, vs, rfl, ht⟩ := hw.starts
  rw [List.length_cons] at hk hdepth
  obtain ⟨k, rfl⟩ : ∃ j, k = j + 1 := ⟨k - 1, by omega⟩
  have hgo : stop t.kind = false := by
    by_contra hstops
    rw [Bool.not_eq_false] at hstops
    rcases hstop _ hstops with hkind | hkind <;> rw [hkind] at ht <;>
      rcases ht with ht | ht | ht <;> cases ht
  rw [List.append_assoc]
  exact Gives.round (gives_statementRound hgo
      (hn depth (us ++ rest) (by rw [List.length_cons]; omega)))
    (hns depth stop rest k (by omega) (by omega) hstop hrest)

/-- The braces of a block enclose its statements. -/
lemma read_block {o : Token} {ns : List Node} (hc : c.kind = .rbrace)
    (hns : (Phrase.statements ns).Read ts) :
    (Phrase.block (.block o ns)).Read (o :: (ts ++ [c])) := by
  intro depth rest hdepth
  simp only [List.length_append, List.length_cons, List.length_nil] at hdepth
  rw [List.cons_append, List.append_assoc]
  refine gives_block (c := c) (Gives.repeated_on fun k hk => ?_)
  simp only [List.length_append, List.length_cons, List.length_nil] at hk
  exact hns depth endsBlock (c :: rest) k (by omega) (by omega)
    (by intro kind; cases kind <;> decide) (by rw [Token.Kind.first_cons, hc]; rfl)

end

/-! ### Every phrase -/

/-- Whatever writes a phrase is read as that phrase. -/
theorem Writes.read {p : Phrase} {ts : List Token} (h : Writes p ts) :
    p.Read ts := by
  -- the induction is on the writing; the phrase that is read may be followed by
  -- anything that does not continue it, and the loop behind it is given as
  -- `hrest`, so that operands on the left need no rule of their own
  induction h with
  | ident ht =>
      intro depth level rest _ _ _ _ a d hrest
      exact gives_reading (by rw [ht]; rfl) gives_identifier hrest
  | intLit ht hn hmax =>
      intro depth level rest _ _ _ _ a d hrest
      exact gives_reading (by rw [ht]; rfl) (gives_integer hn.read? hmax) hrest
  | trueLit ht =>
      intro depth level rest _ _ _ _ a d hrest
      exact gives_reading (by rw [ht]; rfl) (gives_boolean (by rw [ht]; rfl))
        hrest
  | falseLit ht =>
      intro depth level rest _ _ _ _ a d hrest
      exact gives_reading (by rw [ht]; rfl) (gives_boolean (by rw [ht]; rfl))
        hrest
  | strLit ht =>
      intro depth level rest _ _ _ _ a d hrest
      exact gives_reading (by rw [ht]; rfl) gives_string hrest
  | prefixOp ht hr ihr => exact read_prefixOp ht hr ihr
  | infixOp ht _ hr ihl ihr => exact read_infixOp ht ihl hr ihr
  | ifThen ht ho hc hn hb ihn ihb => exact read_ifThen ht ho hc hn ihn hb ihb
  | ifThenElse ht ho hc hs hn hb hb' ihn ihb ihb' =>
      exact read_ifThenElse ht ho hc hs hn ihn hb ihb hb' ihb'
  | function ht ho hc _ hb ihns ihb =>
      intro depth level rest hdepth _ _ _
      simp only [List.length_append, List.length_cons] at hdepth
      exact read_abstraction .function (fun _ => by rw [ht]; rfl)
        ho hc ihns hb ihb depth level rest (by omega)
  | macroFn ht ho hc _ hb ihns ihb =>
      intro depth level rest hdepth _ _ _
      simp only [List.length_append, List.length_cons] at hdepth
      exact read_abstraction .macroLiteral (fun _ => by rw [ht]; rfl)
        ho hc ihns hb ihb depth level rest (by omega)
  | call ht hc _ _ ihf ihas => exact read_call ht hc ihf ihas
  | array ht hc _ ihes => exact read_array ht hc ihes
  | index ht hc _ hi ihl ihi => exact read_index ht hc ihl hi ihi
  | hash ht hc _ ihps => exact read_hash ht hc ihps
  | plain hplace hn ihn => exact read_plain hplace hn ihn
  | group ho hc hn ihn => exact read_group ho hc hn ihn
  -- rows of items, parameters and entries: one round for each, and one more
  -- that finds the closing token
  | noItems => exact fun depth c rest _ _ => gives_list_nil
  | items hn hns ihn ihns => exact read_items hn ihn hns ihns
  | itemsEnd =>
      intro depth c rest k _ hk hc
      obtain ⟨k, rfl⟩ : ∃ j, k = j + 1 := ⟨k - 1, by omega⟩
      refine Gives.done (gives_listRound_done ?_)
      rcases hc with hc | hc <;> simp [hc]
  | item hs hn hns ihn ihns => exact read_item hs hn ihn hns ihns
  | noParams => exact fun c rest hc => gives_parameters_nil hc
  | params ht _ ihns =>
      intro c rest hc
      rw [List.cons_append]
      refine gives_parameters_cons ht hc (Gives.repeated_before fun k hk => ?_)
      rw [List.length_append] at hk
      exact ihns c rest k (by omega) hc
  | paramsEnd =>
      intro c rest k hk hc
      obtain ⟨k, rfl⟩ : ∃ j, k = j + 1 := ⟨k - 1, by omega⟩
      exact Gives.done (gives_listRound_done (by simp [hc]))
  | param hs ht _ ihns =>
      intro c rest k hk hc
      simp only [List.length_cons] at hk
      obtain ⟨k, rfl⟩ : ∃ j, k = j + 1 := ⟨k - 1, by omega⟩
      exact Gives.round (gives_listRound_parameter hs ht)
        (ihns c rest k (by omega) hc)
  | noEntries =>
      intro depth c rest k _ hk hc
      obtain ⟨k, rfl⟩ : ∃ j, k = j + 1 := ⟨k - 1, by omega⟩
      exact Gives.done (gives_hashRound_done hc)
  | lastEntry hs hk hv ihk ihv => exact read_lastEntry hs hk ihk hv ihv
  | entry hs hm hk hv _ ihk ihv ihps =>
      exact read_entry hs hm hk ihk hv ihv ihps
  -- statements leave their semicolon, and rows of them end at the brace or at
  -- the end
  | letStmt ht hname hq hs hv ihv => exact read_letStmt ht hname hq hs hv ihv
  | returnStmt ht hs hv ihv => exact read_returnStmt ht hs hv ihv
  | exprStmt hs hv ihv => exact read_exprStmt hs hv ihv
  | noStatements =>
      intro depth stop rest k _ hk _ hrest
      obtain ⟨k, rfl⟩ : ∃ j, k = j + 1 := ⟨k - 1, by omega⟩
      exact Gives.done (gives_statementRound_done hrest)
  | statements hn _ ihn ihns => exact read_statements hn ihn ihns
  | block _ hc _ ihns => exact read_block hc ihns

/-! ### Whole streams -/

/-- A stream whose tokens go on until the end token, if it has one. -/
lemma holds_ofTokens {ts tail : List Token} (tracing : Bool)
    (hts : ∀ t ∈ ts, t.kind ≠ .eof) (htail : Token.Kind.first tail = .eof) :
    (Cursor.on ts).Holds (.ofTokens (ts ++ tail) tracing) := by
  have hnone : ∀ t ∈ ts, (!Reader.isEnd t) = true := by
    intro t ht
    simpa [Reader.isEnd] using hts t ht
  refine ⟨?_, ?_, rfl⟩
  · show (ts ++ tail).takeWhile (!Reader.isEnd ·) = ts
    rw [List.takeWhile_append_of_pos hnone]
    cases tail with
    | nil => simp
    | cons t tail =>
        have hend : Reader.isEnd t = true := by simpa [Reader.isEnd] using htail
        simp [hend]
  · show (((ts ++ tail).find? Reader.isEnd).getD (.made .eof "")).kind = .eof
    cases hfind : (ts ++ tail).find? Reader.isEnd with
    | none => rfl
    | some t => simpa [Reader.isEnd] using List.find?_some hfind

/-- The statements of a program up to the end of the stream. -/
lemma gives_program {ts : List Token} {ns : List Node}
    (hns : ∀ depth k, ts.length ≤ depth → ts.length < k →
      Gives (.on ts) (rounds (statementRound (expression depth) endsProgram) k)
        (some (ns.map some)) (.on [])) :
    Gives (.on ts) Grammar.program (.program ns) (.on []) := by
  refine Gives.entering _ fun r hr => ?_
  have hstatements := (Gives.repeated_on fun k hk =>
    hns (r.unread.length + 1) k (by rw [hr.1]; omega) hk).map
      fun found => (found.getD []).filterMap id
  have hfound : (Option.getD (some (ns.map some)) []).filterMap id = ns := by
    simp
  rw [hfound] at hstatements
  exact (hstatements.map Node.program) r hr

/-- Statements that fill the stream are read as a program. -/
lemma gives_program_statements {ss : List Node} {ts : List Token}
    (hw : Writes (.statements ss) ts) :
    Gives (.on ts) Grammar.program (.program ss) (.on []) := by
  refine gives_program fun depth k hdepth hk => ?_
  have hread := hw.read depth endsProgram [] k hdepth hk
    (by intro kind; cases kind <;> decide) rfl
  rwa [List.append_nil] at hread

/-- An expression that fills the stream is read as a program of one statement,
though nothing ends that. -/
lemma gives_program_expression {n : Node} {t : Token} {ts : List Token}
    (hw : Writes (.expression .free n) (t :: ts)) :
    Gives (.on (t :: ts)) Grammar.program (.program [.exprStmt t n])
      (.on []) := by
  refine gives_program fun depth k hdepth hk => ?_
  obtain ⟨k, rfl⟩ : ∃ j, k = j + 2 :=
    ⟨k - 2, by rw [List.length_cons] at hk; omega⟩
  have hn : Gives (.on (t :: ts)) (expression depth lowest) n (.before []) := by
    have hgives := hw.read.gives hw [] hdepth (by decide) (by decide)
      ⟨rfl, by decide⟩ (by decide)
    rwa [List.append_nil] at hgives
  obtain ⟨hlet, hreturn⟩ := not_keyword_of_writes hw
  have hstatement := gives_statement_expression hlet hreturn
    (gives_expressionStatement_last hn)
  have hgo : endsProgram t.kind = false := by
    have heof := hw.kind_ne_eof t List.mem_cons_self
    revert heof
    cases t.kind <;> decide
  exact Gives.round (gives_statementRound hgo hstatement)
    (Gives.done (gives_statementRound_done rfl))

/-- What a stream gives on which the parser meets no fault. -/
lemma ofTokens_of_gives {ts tail : List Token} {n : Node} (tracing : Bool)
    (hts : ∀ t ∈ ts, t.kind ≠ .eof) (htail : Token.Kind.first tail = .eof)
    (h : Gives (.on ts) Grammar.program n (.on [])) :
    (Parser.ofTokens (ts ++ tail) tracing).program = n ∧
      (Parser.ofTokens (ts ++ tail) tracing).diagnostics = [] := by
  obtain ⟨r, hrun, hr⟩ := h _ (holds_ofTokens tracing hts htail)
  have hparser : Parser.run (.ofTokens (ts ++ tail) tracing) = some (n, r) := hrun
  rw [Parser.ofTokens, hparser]
  refine ⟨rfl, ?_⟩
  show r.diagnostics.toList = []
  rw [hr.2.no_diagnostics]

/-- **The parser is complete.**  Every complete program and every complete
expression can be written as tokens; and from whatever tokens write it, with
any redundant parentheses, the parser gives back the tree, places and the
tokens of expression statements aside, and reports nothing.  The stream may
end with its tokens or go on with an end token and whatever follows that. -/
theorem ofTokens_of_writtenAs :
    (∀ n : Node, n.Complete .program → ∃ ts, n.WrittenAs .program ts) ∧
    (∀ n : Node, n.Complete .expression →
      ∃ ts, n.WrittenAs .expression ts) ∧
    (∀ (n : Node) ts tail tracing, n.WrittenAs .program ts →
      Token.Kind.first tail = .eof →
      (Parser.ofTokens (ts ++ tail) tracing).program.shape = n.shape ∧
        (Parser.ofTokens (ts ++ tail) tracing).diagnostics = []) ∧
    (∀ (n : Node) t ts tail tracing, n.WrittenAs .expression ts →
      Token.Kind.first tail = .eof →
      (Parser.ofTokens (ts ++ tail) tracing).program.shape =
          (Node.program [.exprStmt t n]).shape ∧
        (Parser.ofTokens (ts ++ tail) tracing).diagnostics = []) := by
  refine ⟨fun n hn => hn.exists_writtenAs, fun n hn => hn.exists_writtenAs,
    ?_, ?_⟩
  · rintro n ts tail tracing ⟨ss, hshape, hw⟩ htail
    obtain ⟨htree, hfaults⟩ := ofTokens_of_gives tracing hw.kind_ne_eof htail
      (gives_program_statements hw)
    exact ⟨by rw [htree, hshape], hfaults⟩
  · rintro n t ts tail tracing ⟨m, hshape, hw⟩ htail
    obtain ⟨u, us, rfl, -⟩ := hw.starts
    obtain ⟨htree, hfaults⟩ := ofTokens_of_gives tracing hw.kind_ne_eof htail
      (gives_program_expression hw)
    rw [htree, Node.shape_program, Node.shape_program]
    exact ⟨by simp [Node.shape_exprStmt, hshape], hfaults⟩

/-- The tree of `-(1 + 2) * x`. -/
def minusSumTimes : Node :=
  .infixOp (.made .asterisk "*")
    (.prefixOp (.made .minus "-")
      (.infixOp (.made .plus "+") (.intLit (.made .int "1") 1)
        (.intLit (.made .int "2") 2)))
    (.ident (.made .ident "x"))

/-- Its tokens, with a pair of parentheses that nothing demands. -/
def minusSumTimesTokens : List Token :=
  [.made .minus "-", .made .lparen "(", .made .int "1", .made .plus "+",
   .made .int "2", .made .rparen ")", .made .asterisk "*",
   .made .lparen "(", .made .ident "x", .made .rparen ")"]

lemma spells_one : Numeral.Spells (Token.made .int "1").text 1 :=
  ⟨[1], rfl, by decide, by decide, rfl⟩

lemma spells_two : Numeral.Spells (Token.made .int "2").text 2 :=
  ⟨[2], rfl, by decide, by decide, rfl⟩

lemma writes_minusSumTimes :
    Writes (.expression .free minusSumTimes) minusSumTimesTokens := by
  have hsum : Writes (.expression .free (.infixOp (.made .plus "+")
      (.intLit (.made .int "1") 1) (.intLit (.made .int "2") 2)))
      [.made .int "1", .made .plus "+", .made .int "2"] :=
    .plain id (.infixOp rfl (.plain id (.intLit rfl spells_one (by decide)))
      (.plain id (.intLit rfl spells_two (by decide))))
  have hname : Writes (.expression .free (.ident (.made .ident "x")))
      [.made .ident "x"] := .plain id (.ident rfl)
  exact .plain id (.infixOp rfl
    (.plain id (.prefixOp rfl (.group rfl rfl hsum))) (.group rfl rfl hname))

lemma complete_minusSumTimes : Node.Complete .expression minusSumTimes :=
  .infixOp rfl
    (.prefixOp rfl (.infixOp rfl (.intLit rfl spells_one (by decide))
      (.intLit rfl spells_two (by decide))))
    (.ident rfl)

/-- The product, and the program of the one statement `-(1 + 2) * (x);`. -/
theorem ofTokens_minusSumTimes :
    (∃ ts, Node.WrittenAs .program
      (.program [.exprStmt (.made .minus "-") minusSumTimes]) ts) ∧
    (∃ ts, Node.WrittenAs .expression minusSumTimes ts) ∧
    ((Parser.ofTokens (minusSumTimesTokens ++ [.made .semicolon ";"] ++ [])
        false).program.shape =
      (Node.program [.exprStmt (.made .minus "-") minusSumTimes]).shape ∧
    (Parser.ofTokens (minusSumTimesTokens ++ [.made .semicolon ";"] ++ [])
      false).diagnostics = []) ∧
    (Parser.ofTokens (minusSumTimesTokens ++ [.made .eof ""])
      false).program.shape =
      (Node.program [.exprStmt (.made .minus "-") minusSumTimes]).shape ∧
    (Parser.ofTokens (minusSumTimesTokens ++ [.made .eof ""])
      false).diagnostics = [] := by
  have hstatement : Writes (.statement (.exprStmt (.made .minus "-")
      minusSumTimes)) (minusSumTimesTokens ++ [.made .semicolon ";"]) :=
    .exprStmt rfl writes_minusSumTimes
  have hprogram := Writes.statements hstatement .noStatements
  rw [List.append_nil] at hprogram
  refine ⟨ofTokens_of_writtenAs.1 _ (.program ?_),
    ofTokens_of_writtenAs.2.1 _ complete_minusSumTimes,
    ofTokens_of_writtenAs.2.2.1 _ _ [] false ⟨_, rfl, hprogram⟩ rfl,
    ofTokens_of_writtenAs.2.2.2 _ (.made .minus "-") _ [.made .eof ""] false
      ⟨_, rfl, writes_minusSumTimes⟩ rfl⟩
  intro s hs
  rw [List.mem_singleton.mp hs]
  exact .exprStmt complete_minusSumTimes

end MonkeyLang

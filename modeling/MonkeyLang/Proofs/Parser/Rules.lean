/-
What each rule of the grammar gives on tokens without faults.

`expr` reads the nested expressions; each lemma says what a rule gives if
`expr` gives the nested trees.

* `gives_prefixOperation`, `gives_group`, `gives_conditional` and their like:
  the rules for expressions that start with a token of their own;
* `gives_infixOperation`, `gives_call`, `gives_index`: the rules that go on
  with an expression;
* `gives_letStatement`, `gives_returnStatement`, `gives_expressionStatement`,
  `gives_block`: statements;
* `Grammar.reading`, `gives_reading`, `gives_extension`, `gives_noExtension`:
  an expression is what its first token starts, and it goes on while operators
  follow that bind more strongly.
-/
import MonkeyLang.Proofs.Parser.Cursor

namespace MonkeyLang.Grammar

open Parse

variable {expr : ℕ → Parse Node} {t : Token} {ts rest : List Token}

/-! ### Atoms -/

lemma gives_identifier : Gives (.on (t :: ts)) identifier (.ident t) (.before ts) :=
  (gives_current.map _).to_before.entering _

lemma gives_string : Gives (.on (t :: ts)) string (.strLit t) (.before ts) :=
  (gives_current.map _).to_before.entering _

lemma gives_boolean {b : Bool} (hb : decide (t.kind = .trueKey) = b) :
    Gives (.on (t :: ts)) boolean (.boolLit t b) (.before ts) := by
  subst hb
  exact (gives_current.map _).to_before.entering _

/-- A numeral that is not too large is read as it is. -/
lemma gives_integer {n : Int} (hn : Numeral.read? t.text = some n)
    (hmax : n ≤ maxInteger) :
    Gives (.on (t :: ts)) integer (.intLit t n) (.before ts) := by
  refine Gives.entering _ (gives_current.bind ?_)
  have hfilter : (Numeral.read? t.text).filter (· ≤ maxInteger) = some n := by
    rw [hn]
    exact Option.filter_some_pos (by simpa using hmax)
  rw [hfilter]
  exact (gives_pure _ _).to_before

/-! ### Operators -/

lemma gives_prefixOperation {r : Node}
    (hr : Gives (.on ts) (expr tight) r (.before rest)) :
    Gives (.on (t :: ts)) (prefixOperation expr) (.prefixOp t r)
      (.before rest) :=
  Gives.entering _ (gives_current.bind (gives_pass.bind (hr.map _)))

lemma gives_infixOperation {l r : Node}
    (hr : Gives (.on ts) (expr t.kind.precedence) r (.before rest)) :
    Gives (.on (t :: ts)) (infixOperation expr l) (.infixOp t l r)
      (.before rest) :=
  Gives.entering _ (gives_current.bind (gives_pass.bind (hr.map _)))

lemma gives_group {c : Token} {n : Node} (hc : c.kind = .rparen)
    (hn : Gives (.on ts) (expr lowest) n (.before (c :: rest))) :
    Gives (.on (t :: ts)) (group expr) n (.before rest) :=
  Gives.entering _ (gives_pass.bind (hn.bind
    (gives_expecting hc (gives_pure _ _).to_before)))

lemma gives_index {c : Token} {l i : Node} (hc : c.kind = .rbracket)
    (hi : Gives (.on ts) (expr lowest) i (.before (c :: rest))) :
    Gives (.on (t :: ts)) (index expr l) (.index t l i) (.before rest) :=
  Gives.entering _ (gives_current.bind (gives_pass.bind (hi.bind
    (gives_expecting hc (gives_pure _ _).to_before))))

/-! ### Lists -/

/-- A further expression of a list. -/
lemma gives_listRound_item {s : Token} {n : Node} (hs : s.kind = .comma)
    (hn : Gives (.on ts) (expr lowest) n (.before rest)) :
    Gives (.before (s :: ts)) (listRound (listItem expr)) (.item n)
      (.before rest) := by
  refine Gives.of_next fun t ht => ?_
  rw [if_pos (by rw [ht]; exact hs)]
  exact gives_advance.bind (gives_pass.bind (hn.map _))

/-- A further parameter. -/
lemma gives_listRound_parameter {s : Token} (hs : s.kind = .comma)
    (ht : t.kind = .ident) :
    Gives (.before (s :: t :: ts)) (listRound parameterItem) (.item (.ident t))
      (.before ts) := by
  refine Gives.of_next fun t' ht' => ?_
  rw [if_pos (by rw [ht']; exact hs)]
  exact gives_advance.bind (Gives.of_before
    (gives_expecting ht (gives_current.map _).to_before))

/-- Without a comma a list has no further member. -/
lemma gives_listRound_done {item : Parse (Round Node)}
    (hts : Token.Kind.first ts ≠ .comma) :
    Gives (.before ts) (listRound item) .done (.before ts) := by
  refine Gives.of_next fun t ht => ?_
  rw [if_neg (by rw [ht]; exact hts)]
  exact gives_pure _ _

lemma gives_list_nil {c : Token} :
    Gives (.before (c :: rest)) (list expr c.kind) (some []) (.before rest) := by
  refine Gives.entering _ (Gives.of_next fun t ht => ?_)
  rw [if_pos (by rw [ht]; rfl)]
  exact gives_advance.to_before.bind (gives_pure _ _)

lemma gives_list_cons {c : Token} {n : Node} {ns : List Node}
    {us : List Token} (hts : Token.Kind.first ts ≠ c.kind)
    (hn : Gives (.on ts) (expr lowest) n (.before us))
    (hns : Gives (.before us) (repeated (listRound (listItem expr))) (some ns)
      (.before (c :: rest))) :
    Gives (.before ts) (list expr c.kind) (some (n :: ns)) (.before rest) := by
  refine Gives.entering _ (Gives.of_next fun t ht => ?_)
  rw [if_neg (by rw [ht]; exact hts)]
  exact gives_advance.bind (hn.bind (hns.bind
    (gives_expecting rfl (gives_pure _ _).to_before)))

lemma gives_parameters_nil {c : Token} (hc : c.kind = .rparen) :
    Gives (.before (c :: rest)) parameters (some []) (.before rest) := by
  refine Gives.entering _ (Gives.of_next fun t ht => ?_)
  rw [if_pos (by rw [ht]; exact hc)]
  exact gives_advance.to_before.bind (gives_pure _ _)

lemma gives_parameters_cons {c : Token} {ns : List Node}
    (ht : t.kind = .ident) (hc : c.kind = .rparen)
    (hns : Gives (.before ts) (repeated (listRound parameterItem)) (some ns)
      (.before (c :: rest))) :
    Gives (.before (t :: ts)) parameters (some (.ident t :: ns))
      (.before rest) := by
  refine Gives.entering _ (Gives.of_next fun t' ht' => ?_)
  rw [if_neg (by rw [ht', Token.Kind.first_cons, ht]; decide)]
  refine gives_expecting ht (gives_current.bind (Gives.of_before (hns.bind ?_)))
  exact gives_expecting hc (gives_pure _ _).to_before

/-! ### Blocks, conditionals and functions -/

lemma gives_block {c : Token} {ns : List Node}
    (hns : Gives (.on ts) (repeated (statementRound expr endsBlock))
      (some (ns.map some)) (.on (c :: rest))) :
    Gives (.on (t :: ts)) (block expr) (.block t ns) (.before rest) := by
  have hstatements : Gives (.on ts) (statements expr endsBlock) ns
      (.on (c :: rest)) := by
    have hfound : (Option.getD (some (ns.map some)) []).filterMap id = ns := by
      simp
    have hmap := hns.map fun found => (found.getD []).filterMap id
    rw [hfound] at hmap
    exact hmap
  exact Gives.entering _ (gives_current.bind (gives_pass.bind
    (hstatements.map _).to_before))

lemma gives_conditional {o c m : Token} {n a b : Node}
    {us vs : List Token} (ho : o.kind = .lparen) (hc : c.kind = .rparen)
    (hm : m.kind = .lbrace)
    (hn : Gives (.on ts) (expr lowest) n (.before (c :: m :: us)))
    (ha : Gives (.on (m :: us)) (block expr) a (.before vs))
    (hb : (Token.Kind.first vs ≠ .elseKey ∧ b = .missing ∧ vs = rest) ∨
      ∃ s o' ws, vs = s :: o' :: ws ∧ s.kind = .elseKey ∧ o'.kind = .lbrace ∧
        Gives (.on (o' :: ws)) (block expr) b (.before rest)) :
    Gives (.on (t :: o :: ts)) (conditional expr) (.conditional t n a b)
      (.before rest) := by
  refine Gives.entering _ (gives_current.bind (Gives.of_before
    (gives_expecting ho (gives_pass.bind (hn.bind ?_)))))
  refine gives_expecting hc (Gives.of_before (gives_expecting hm (ha.bind ?_)))
  refine Gives.of_next fun t' ht' => ?_
  rcases hb with ⟨hvs, rfl, rfl⟩ | ⟨s, o', ws, rfl, hs, ho', hb⟩
  · rw [if_neg (by rw [ht']; exact hvs)]
    exact gives_pure _ _
  · rw [if_pos (by rw [ht']; exact hs)]
    exact gives_advance.bind (Gives.of_before (gives_expecting ho' (hb.map _)))

/-- Functions and macros differ in the node they make. -/
lemma gives_abstraction {o m : Token} {ns : List Node} {b : Node}
    {us : List Token} (make : Token → List Node → Node → Node)
    (ho : o.kind = .lparen) (hm : m.kind = .lbrace)
    (hns : Gives (.before ts) parameters (some ns) (.before (m :: us)))
    (hb : Gives (.on (m :: us)) (block expr) b (.before rest)) :
    Gives (.on (t :: o :: ts)) (abstraction expr make) (make t ns b)
      (.before rest) :=
  gives_current.bind (Gives.of_before (gives_expecting ho
    (Gives.of_before (hns.bind (gives_expecting hm (hb.map _))))))

/-! ### Calls, arrays and hashes -/

lemma gives_call {f : Node} {as : List Node}
    (has : Gives (.before ts) (list expr .rparen) (some as) (.before rest)) :
    Gives (.on (t :: ts)) (call expr f) (.call t f as) (.before rest) :=
  Gives.entering _ (gives_current.bind (Gives.of_before
    (has.bind (gives_pure _ _))))

lemma gives_array {es : List Node}
    (hes : Gives (.before ts) (list expr .rbracket) (some es) (.before rest)) :
    Gives (.on (t :: ts)) (array expr) (.array t es) (.before rest) :=
  Gives.entering _ (gives_current.bind (Gives.of_before
    (hes.bind (gives_pure _ _))))

/-- The brace that closes a hash ends its entries. -/
lemma gives_hashRound_done {c : Token} (hc : c.kind = .rbrace) :
    Gives (.before (c :: rest)) (hashRound expr) .done (.before (c :: rest)) := by
  refine Gives.of_next fun t ht => ?_
  rw [if_pos (by rw [ht]; exact hc)]
  exact gives_pure _ _

/-- An entry, and the comma behind it unless the closing brace follows. -/
lemma gives_hashRound_item {s : Token} {k v : Node} {us vs : List Token}
    (hts : Token.Kind.first ts ≠ .rbrace) (hs : s.kind = .colon)
    (hk : Gives (.on ts) (expr lowest) k (.before (s :: us)))
    (hv : Gives (.on us) (expr lowest) v (.before vs))
    (hrest : (Token.Kind.first vs = .rbrace ∧ vs = rest) ∨
      ∃ m, m.kind = .comma ∧ vs = m :: rest) :
    Gives (.before ts) (hashRound expr) (.item (k, v)) (.before rest) := by
  refine Gives.of_next fun t ht => ?_
  rw [if_neg (by rw [ht]; exact hts)]
  refine gives_advance.bind (hk.bind (gives_expecting hs
    (gives_pass.bind (hv.bind (Gives.of_next fun t' ht' => ?_)))))
  rcases hrest with ⟨hvs, rfl⟩ | ⟨m, hm, rfl⟩
  · rw [if_pos (by rw [ht']; exact hvs)]
    exact gives_pure _ _
  · rw [if_neg (by rw [ht', Token.Kind.first_cons, hm]; decide)]
    exact gives_expecting hm (gives_pure _ _).to_before

lemma gives_hash {c : Token} {ps : List (Node × Node)} (hc : c.kind = .rbrace)
    (hps : Gives (.before ts) (repeated (hashRound expr)) (some ps)
      (.before (c :: rest))) :
    Gives (.on (t :: ts)) (hash expr) (.hash t ps) (.before rest) :=
  Gives.entering _ (gives_current.bind (Gives.of_before
    (hps.bind (gives_expecting hc (gives_pure _ _).to_before))))

/-! ### Statements -/

lemma gives_letStatement {name q s : Token} {v : Node}
    (hname : name.kind = .ident) (hq : q.kind = .assign)
    (hs : s.kind = .semicolon)
    (hv : Gives (.on ts) (expr lowest) v (.before (s :: rest))) :
    Gives (.on (t :: name :: q :: ts)) (letStatement expr)
      (some (.letStmt t name v)) (.before rest) :=
  Gives.entering _ (gives_current.bind (Gives.of_before (gives_expecting hname
    (gives_current.bind (Gives.of_before (gives_expecting hq
      (gives_pass.bind (hv.bind ((gives_skip hs).map _)))))))))

lemma gives_returnStatement {s : Token} {v : Node} (hs : s.kind = .semicolon)
    (hv : Gives (.on ts) (expr lowest) v (.before (s :: rest))) :
    Gives (.on (t :: ts)) (returnStatement expr) (.returnStmt t v)
      (.before rest) :=
  Gives.entering _ (gives_current.bind (gives_pass.bind
    (hv.bind ((gives_skip hs).map _))))

/-- The last expression statement of a stream may do without a semicolon. -/
lemma gives_expressionStatement_last {v : Node}
    (hv : Gives (.on (t :: ts)) (expr lowest) v (.before [])) :
    Gives (.on (t :: ts)) (expressionStatement expr) (.exprStmt t v)
      (.before []) :=
  Gives.entering _ (gives_current.bind (hv.bind ((gives_noSkip (by decide)).map _)))

lemma gives_expressionStatement {s : Token} {v : Node}
    (hs : s.kind = .semicolon)
    (hv : Gives (.on (t :: ts)) (expr lowest) v (.before (s :: rest))) :
    Gives (.on (t :: ts)) (expressionStatement expr) (.exprStmt t v)
      (.before rest) :=
  Gives.entering _ (gives_current.bind (hv.bind ((gives_skip hs).map _)))

/-- Statements are told apart by their first token. -/
lemma gives_statement_let {n : Node} {d : Cursor} (ht : t.kind = .letKey)
    (hn : Gives (.on (t :: ts)) (letStatement expr) (some n) d) :
    Gives (.on (t :: ts)) (statement expr) (some n) d := by
  refine Gives.entering _ (gives_current.bind ?_)
  rw [ht]
  exact hn

lemma gives_statement_return {n : Node} {d : Cursor} (ht : t.kind = .returnKey)
    (hn : Gives (.on (t :: ts)) (returnStatement expr) n d) :
    Gives (.on (t :: ts)) (statement expr) (some n) d := by
  refine Gives.entering _ (gives_current.bind ?_)
  rw [ht]
  exact hn.map some

lemma gives_statement_expression {n : Node} {d : Cursor}
    (hlet : t.kind ≠ .letKey) (hreturn : t.kind ≠ .returnKey)
    (hn : Gives (.on (t :: ts)) (expressionStatement expr) n d) :
    Gives (.on (t :: ts)) (statement expr) (some n) d := by
  refine Gives.entering _ (gives_current.bind ?_)
  split
  · next h => exact absurd h hlet
  · next h => exact absurd h hreturn
  · exact hn.map some

/-- A statement, and the step past its last token. -/
lemma gives_statementRound {stop : Token.Kind → Bool} {n : Node}
    (hts : stop (Token.Kind.first ts) = false)
    (hn : Gives (.on ts) (statement expr) (some n) (.before rest)) :
    Gives (.on ts) (statementRound expr stop) (.item (some n)) (.on rest) := by
  refine Gives.of_current fun t ht => ?_
  rw [if_neg (by rw [ht, hts]; decide)]
  exact hn.bind (gives_advance.bind (gives_pure _ _))

/-- A token that ends the sequence. -/
lemma gives_statementRound_done {stop : Token.Kind → Bool}
    (hts : stop (Token.Kind.first ts) = true) :
    Gives (.on ts) (statementRound expr stop) .done (.on ts) := by
  refine Gives.of_current fun t ht => ?_
  rw [if_pos (by rw [ht]; exact hts)]
  exact gives_pure _ _

/-! ### Expressions -/

/-- What `expressionWith` does besides recording the rule. -/
def reading (expr : ℕ → Parse Node) (level : ℕ) : Parse Node := do
  let t ← current
  match startRule? expr t.kind with
  | none =>
    modify (Reader.report (.noExpression t.kind) t)
    return .missing
  | some rule =>
    let left ← rule
    extensions expr level ((← get).unread.length + 1) left

/-- An expression nested at most `depth + 1` deep, one rule down. -/
lemma expression_succ (depth level : ℕ) :
    expression (depth + 1) level =
      entering .expression (reading (expression depth) level) := rfl

variable {level : ℕ} {n : Node} {a : Node} {d : Cursor}

/-- An expression is what its first token starts, and goes on from there with
room enough for the tokens that follow. -/
lemma gives_reading {rule : Parse Node}
    (hrule : startRule? expr t.kind = some rule)
    (hn : Gives (.on (t :: ts)) rule n (.before rest))
    (hrest : ∀ k, rest.length < k →
      Gives (.before rest) (extensions expr level k n) a d) :
    Gives (.on (t :: ts)) (reading expr level) a d := by
  refine gives_current.bind ?_
  rw [hrule]
  refine hn.bind fun r hr => ?_
  have hroom : rest.length < r.unread.length + 1 := by
    have hlength := congrArg List.length hr.1
    rw [List.length_tail] at hlength
    omega
  exact hrest _ hroom r hr

/-- What goes on with an expression is told apart by its first token. -/
lemma gives_extend_call {left : Node} (ht : t.kind = .lparen)
    (hn : Gives (.on (t :: ts)) (call expr left) n d) :
    Gives (.on (t :: ts)) (extend expr left) n d := by
  refine gives_current.bind ?_
  rw [ht]
  exact hn

lemma gives_extend_index {left : Node} (ht : t.kind = .lbracket)
    (hn : Gives (.on (t :: ts)) (index expr left) n d) :
    Gives (.on (t :: ts)) (extend expr left) n d := by
  refine gives_current.bind ?_
  rw [ht]
  exact hn

lemma gives_extend_infixOperation {left : Node} (hparen : t.kind ≠ .lparen)
    (hbracket : t.kind ≠ .lbracket)
    (hn : Gives (.on (t :: ts)) (infixOperation expr left) n d) :
    Gives (.on (t :: ts)) (extend expr left) n d := by
  refine gives_current.bind ?_
  split
  · next h => exact absurd h hparen
  · next h => exact absurd h hbracket
  · exact hn

/-- An expression goes on at a token that binds more strongly. -/
lemma gives_extension {k : ℕ} {left : Node}
    (hlevel : level < t.kind.precedence)
    (hextend : Gives (.on (t :: ts)) (extend expr left) n (.before rest))
    (hrest : Gives (.before rest) (extensions expr level k n) a d) :
    Gives (.before (t :: ts)) (extensions expr level (k + 1) left) a d := by
  refine Gives.of_next fun t' ht' => ?_
  rw [if_pos (by rw [ht']; exact hlevel)]
  exact gives_advance.bind (hextend.bind hrest)

/-- An expression ends before a token that does not bind more strongly. -/
lemma gives_noExtension {k : ℕ}
    (hlevel : (Token.Kind.first rest).precedence ≤ level) (hk : 0 < k) :
    Gives (.before rest) (extensions expr level k n) n (.before rest) := by
  obtain ⟨k, rfl⟩ : ∃ j, k = j + 1 := ⟨k - 1, by omega⟩
  refine Gives.of_next fun t ht => ?_
  rw [if_neg (by rw [ht]; omega)]
  exact gives_pure _ _

end MonkeyLang.Grammar

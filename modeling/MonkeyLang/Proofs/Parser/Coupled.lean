/-
What the rules of the grammar keep of two runs of the parser.

* `Reader.Coupling`: relations of two readers, `on` the first token of a rule
  and `before` the token behind its last one, that the single steps keep;
* `Parse.Coupled P p Q`: from readers related by `P` two runs of `p` give the
  same answer, or none, and lead to readers related by `Q`;
* `Grammar.Escorted`: nested expressions lead from `on` to `before`; the lemmas
  say that all rules do, each from where it starts to where it ends;
* `escorted_expression`, `coupled_program`: expressions do, however deep they
  are nested, and so do programs.
-/
import MonkeyLang.Proofs.Parser.Reads
import MonkeyLang.Proofs.Related

namespace MonkeyLang

/-! ### Couplings -/

/-- Relations of two readers of the same tokens that the steps of the parser
keep.  Faults are reported at the current token only where a rule starts, and
anywhere at the next one.  Rules are told apart by an index, since what is
logged of one depends on those around it. -/
structure Reader.Coupling (ι : Type) where
  /-- On the first token of a rule. -/
  on : ι → Reader → Reader → Prop
  /-- Before the token behind the last one of a rule. -/
  before : ι → Reader → Reader → Prop
  unread : ∀ {i r r'}, before i r r' → r.unread = r'.unread
  eof : ∀ {i r r'}, before i r r' → r.eof = r'.eof
  settle : ∀ {i r r'}, on i r r' → before i r r'
  advance : ∀ {i r r'}, before i r r' → on i r.advance r'.advance
  reportCurrent : ∀ {i r r'}, on i r r' → ∀ cause,
    before i (r.report cause r.current) (r'.report cause r.current)
  reportNext : ∀ {i r r'}, before i r r' → ∀ cause,
    before i (r.report cause r.next) (r'.report cause r.next)
  enter : ∀ {i r r'}, on i r r' → ∀ rule, ∃ j,
    on j (r.enter rule) (r'.enter rule) ∧
      ∀ {s s'}, before j s s' → before i (s.leave rule) (s'.leave rule)

namespace Parse

variable {ι α β : Type} {P Q R : Reader → Reader → Prop}

/-- From related readers two runs give the same answer and lead to related
readers, or neither gives an answer. -/
def Coupled (P : Reader → Reader → Prop) (p : Parse α)
    (Q : Reader → Reader → Prop) : Prop :=
  ∀ r r', P r r' → Option.Rel (fun x y => x.1 = y.1 ∧ Q x.2 y.2) (p r) (p r')

/-! ### Steps -/

lemma coupled_pure {a : α} (h : ∀ {r r'}, P r r' → Q r r') :
    Coupled P (pure a) Q :=
  fun _ _ hr => .some ⟨rfl, h hr⟩

lemma coupled_exhausted : Coupled P (exhausted : Parse α) Q :=
  fun _ _ _ => .none

lemma Coupled.bind {p : Parse α} {k : α → Parse β} (h : Coupled P p R)
    (hk : ∀ a, Coupled R (k a) Q) : Coupled P (p >>= k) Q :=
  fun r r' hr => rel_bind (h r r' hr) fun x y hx => by
    obtain ⟨a, s⟩ := x
    obtain ⟨b, s'⟩ := y
    obtain ⟨rfl, hreaders⟩ : a = b ∧ R s s' := hx
    exact hk a s s' hreaders

/-- A last step that only changes the answer. -/
lemma Coupled.map {p : Parse α} {f : α → β} (h : Coupled P p Q) :
    Coupled P (do return f (← p)) Q :=
  h.bind fun _ => coupled_pure id

lemma Coupled.mono {p : Parse α} (h : Coupled P p R)
    (hQ : ∀ {r r'}, R r r' → Q r r') : Coupled P p Q :=
  fun r r' hr => rel_imp (h r r' hr) fun _ _ hx => ⟨hx.1, hQ hx.2⟩

/-- Where the tokens that are left are the same, so are bounds on them. -/
lemma coupled_bounded {p : ℕ → Parse α}
    (hunread : ∀ {r r'}, P r r' → r.unread = r'.unread)
    (h : ∀ n, Coupled P (p n) Q) :
    Coupled P (do p ((← get).unread.length + 1)) Q := by
  intro r r' hr
  show Option.Rel _ (p (r.unread.length + 1) r) (p (r'.unread.length + 1) r')
  rw [← hunread hr]
  exact h _ r r' hr

lemma coupled_rounds {round : Parse (Round α)} (h : Coupled P round P) (n : ℕ) :
    Coupled P (rounds round n) P := by
  induction n with
  | zero => exact coupled_exhausted
  | succ n ih =>
      refine h.bind fun found => ?_
      cases found with
      | item a => exact ih.map
      | done => exact coupled_pure id
      | broken => exact coupled_pure id

lemma coupled_repeated {round : Parse (Round α)}
    (hunread : ∀ {r r'}, P r r' → r.unread = r'.unread)
    (h : Coupled P round P) : Coupled P (repeated round) P :=
  coupled_bounded hunread (coupled_rounds h)

variable (C : Reader.Coupling ι) {i : ι}

/-- What a rule does before its end it does on its first token, too. -/
lemma Coupled.settled {C : Reader.Coupling ι} {p : Parse α}
    (h : Coupled (C.before i) p Q) : Coupled (C.on i) p Q :=
  fun r r' hr => h r r' (C.settle hr)

lemma coupled_advance {k : Unit → Parse α} (hk : Coupled (C.on i) (k ()) Q) :
    Coupled (C.before i) (advance >>= k) Q :=
  fun _ _ hr => hk _ _ (C.advance hr)

/-- The current token is the same in both runs; what follows may report it. -/
lemma coupled_current {k : Token → Parse α}
    (hk : ∀ t, Coupled (fun r r' => C.on i r r' ∧ r.current = t) (k t) Q) :
    Coupled (C.on i) (current >>= k) Q := by
  intro r r' hr
  have hsame : r'.current = r.current := by
    have hbefore := C.settle hr
    rw [Reader.current, Reader.current, C.unread hbefore, C.eof hbefore]
  show Option.Rel _ (k r.current r) (k r'.current r')
  rw [hsame]
  exact hk _ r r' ⟨hr, rfl⟩

/-- The current token, of which no fault is reported. -/
lemma coupled_look {k : Token → Parse α} (hk : ∀ t, Coupled (C.on i) (k t) Q) :
    Coupled (C.on i) (current >>= k) Q :=
  coupled_current C fun t r r' hr => hk t r r' hr.1

/-- A fault at the current token, where a rule starts. -/
lemma coupled_report {cause : Diagnostic.Cause} {t : Token} {a : α} :
    Coupled (fun r r' => C.on i r r' ∧ r.current = t)
      (do
        modify (Reader.report cause t)
        return a) (C.before i) := by
  rintro r r' ⟨hr, rfl⟩
  exact .some ⟨rfl, C.reportCurrent hr cause⟩

/-- The next token is the same in both runs. -/
lemma next_eq {C : Reader.Coupling ι} {r r' : Reader} (h : C.before i r r') :
    r'.next = r.next := by
  rw [Reader.next, Reader.next, C.unread h, C.eof h]

lemma coupled_next {k : Token → Parse α}
    (hk : ∀ t, Coupled (C.before i) (k t) Q) :
    Coupled (C.before i) (next >>= k) Q := by
  intro r r' hr
  show Option.Rel _ (k r.next r) (k r'.next r')
  rw [next_eq hr]
  exact hk _ r r' hr

lemma coupled_expecting {kind : Token.Kind} {a : α} {p : Parse α}
    (hp : Coupled (C.on i) p (C.before i)) :
    Coupled (C.before i) (expecting kind a p) (C.before i) := by
  intro r r' hr
  rw [expecting_run, expecting_run, next_eq hr]
  split_ifs
  · exact hp _ _ (C.advance hr)
  · exact .some ⟨rfl, C.reportNext hr _⟩

lemma coupled_skip {kind : Token.Kind} {a : α} :
    Coupled (C.before i)
      (do
        skip kind
        return a) (C.before i) := by
  refine Coupled.bind (R := C.before i) ?_ fun _ => coupled_pure id
  intro r r' hr
  rw [skip_run, skip_run, next_eq hr]
  split_ifs
  · exact .some ⟨rfl, C.settle (C.advance hr)⟩
  · exact .some ⟨rfl, hr⟩

/-- A rule leads to before its end if its body does so at every index. -/
lemma coupled_entering {rule : Rule} {p : Parse α}
    (hp : ∀ j, Coupled (C.on j) p (C.before j)) :
    Coupled (C.on i) (entering rule p) (C.before i) := by
  intro r r' hr
  obtain ⟨j, hon, hleave⟩ := C.enter hr rule
  exact rel_bind (hp j _ _ hon) fun x y hx => .some ⟨hx.1, hleave hx.2⟩

end Parse

/-! ### Rules -/

namespace Grammar

open Parse

variable {ι : Type}

/-- Nested expressions lead from their first token to before their end. -/
def Escorted (C : Reader.Coupling ι) (expr : ℕ → Parse Node) : Prop :=
  ∀ i level, Coupled (C.on i) (expr level) (C.before i)

variable {C : Reader.Coupling ι} {i : ι}

/-- A rule that stays on its token. -/
lemma coupled_atom {rule : Rule} {f : Token → Node} :
    Coupled (C.on i) (entering rule do return f (← current)) (C.before i) :=
  coupled_entering C fun _ => coupled_look C fun _ => coupled_pure C.settle

lemma coupled_integer : Coupled (C.on i) integer (C.before i) := by
  refine coupled_entering C fun j => coupled_current C fun t => ?_
  split
  · exact coupled_pure fun h => C.settle h.1
  · exact coupled_report C

namespace Escorted

variable {expr : ℕ → Parse Node} (hexpr : Escorted C expr)

include hexpr

/-! ### Statements and blocks -/

/-- A value and the semicolon that may stand behind it. -/
lemma coupled_value {α : Type} {f : Node → α} :
    Coupled (C.on i)
      (do
        let value ← expr lowest
        skip .semicolon
        return f value) (C.before i) :=
  (hexpr i lowest).bind fun _ => coupled_skip C

lemma coupled_letStatement :
    Coupled (C.on i) (letStatement expr) (C.before i) := by
  refine coupled_entering C fun j => coupled_look C fun t => ?_
  refine (coupled_expecting C (coupled_look C fun name => ?_)).settled
  exact (coupled_expecting C
    (coupled_advance C hexpr.coupled_value).settled).settled

lemma coupled_returnStatement :
    Coupled (C.on i) (returnStatement expr) (C.before i) :=
  coupled_entering C fun _ => coupled_look C fun _ =>
    (coupled_advance C hexpr.coupled_value).settled

lemma coupled_expressionStatement :
    Coupled (C.on i) (expressionStatement expr) (C.before i) :=
  coupled_entering C fun _ => coupled_look C fun _ => hexpr.coupled_value

lemma coupled_statement : Coupled (C.on i) (statement expr) (C.before i) := by
  refine coupled_entering C fun j => coupled_look C fun t => ?_
  split
  · exact hexpr.coupled_letStatement
  · exact hexpr.coupled_returnStatement.map
  · exact hexpr.coupled_expressionStatement.map

lemma coupled_statementRound (stop : Token.Kind → Bool) :
    Coupled (C.on i) (statementRound expr stop) (C.on i) := by
  refine coupled_look C fun t => ?_
  split_ifs
  · exact coupled_pure id
  · exact hexpr.coupled_statement.bind fun _ =>
      coupled_advance C (coupled_pure id)

lemma coupled_statements (stop : Token.Kind → Bool) :
    Coupled (C.on i) (statements expr stop) (C.before i) :=
  ((coupled_repeated (fun h => C.unread (C.settle h))
    (hexpr.coupled_statementRound stop)).map).mono C.settle

lemma coupled_block : Coupled (C.on i) (block expr) (C.before i) :=
  coupled_entering C fun _ => coupled_look C fun _ =>
    (coupled_advance C (hexpr.coupled_statements _).map).settled

/-! ### Lists -/

omit hexpr in
lemma coupled_listRound {item : Parse (Round Node)}
    (hitem : Coupled (C.on i) item (C.before i)) :
    Coupled (C.before i) (listRound item) (C.before i) := by
  refine coupled_next C fun t => ?_
  split_ifs
  · exact coupled_advance C hitem
  · exact coupled_pure id

lemma coupled_list {close : Token.Kind} :
    Coupled (C.on i) (list expr close) (C.before i) := by
  refine coupled_entering C fun j => Coupled.settled (coupled_next C fun t => ?_)
  split_ifs
  · exact coupled_advance C (coupled_pure C.settle)
  · refine coupled_advance C ((hexpr j lowest).bind fun first => ?_)
    refine (coupled_repeated C.unread (coupled_listRound
      (coupled_advance C (hexpr j lowest).map).settled)).bind fun more => ?_
    exact coupled_expecting C (coupled_pure C.settle)

omit hexpr in
lemma coupled_parameters : Coupled (C.on i) parameters (C.before i) := by
  refine coupled_entering C fun j => Coupled.settled (coupled_next C fun t => ?_)
  split_ifs
  · exact coupled_advance C (coupled_pure C.settle)
  · refine coupled_expecting C (coupled_look C fun first => ?_)
    refine ((coupled_repeated C.unread (coupled_listRound (coupled_expecting C
      (coupled_look C fun _ => coupled_pure C.settle)).settled)).bind
        fun more => ?_).settled
    cases more with
    | none => exact coupled_pure id
    | some more => exact coupled_expecting C (coupled_pure C.settle)

/-! ### Expressions that start with a token of their own -/

lemma coupled_prefixOperation :
    Coupled (C.on i) (prefixOperation expr) (C.before i) :=
  coupled_entering C fun j => coupled_look C fun _ =>
    (coupled_advance C (hexpr j tight).map).settled

lemma coupled_group : Coupled (C.on i) (group expr) (C.before i) :=
  coupled_entering C fun j => (coupled_advance C ((hexpr j lowest).bind
    fun _ => coupled_expecting C (coupled_pure C.settle))).settled

lemma coupled_conditional :
    Coupled (C.on i) (conditional expr) (C.before i) := by
  refine coupled_entering C fun j => coupled_look C fun t => ?_
  refine (coupled_expecting C ?_).settled
  refine (coupled_advance C ((hexpr j lowest).bind fun condition => ?_)).settled
  refine coupled_expecting C (coupled_expecting C ?_).settled
  refine hexpr.coupled_block.bind fun consequence => coupled_next C fun t => ?_
  split_ifs
  · exact coupled_advance C (coupled_expecting C hexpr.coupled_block.map).settled
  · exact coupled_pure id

lemma coupled_abstraction {make : Token → List Node → Node → Node} :
    Coupled (C.on i) (abstraction expr make) (C.before i) := by
  refine coupled_look C fun t => (coupled_expecting C ?_).settled
  refine coupled_parameters.bind fun params => ?_
  cases params with
  | none => exact coupled_pure id
  | some params => exact coupled_expecting C hexpr.coupled_block.map

lemma coupled_array : Coupled (C.on i) (array expr) (C.before i) := by
  refine coupled_entering C fun j => coupled_look C fun t => ?_
  refine hexpr.coupled_list.bind fun elements => ?_
  cases elements with
  | none => exact coupled_pure id
  | some elements => exact coupled_pure id

lemma coupled_hashRound :
    Coupled (C.before i) (hashRound expr) (C.before i) := by
  refine coupled_next C fun t => ?_
  split_ifs
  · exact coupled_pure id
  · refine coupled_advance C ((hexpr i lowest).bind fun key => ?_)
    refine coupled_expecting C (coupled_advance C
      ((hexpr i lowest).bind fun value => coupled_next C fun t => ?_)).settled
    split_ifs
    · exact coupled_pure id
    · exact coupled_expecting C (coupled_pure C.settle)

lemma coupled_hash : Coupled (C.on i) (hash expr) (C.before i) := by
  refine coupled_entering C fun j => coupled_look C fun t => ?_
  refine ((coupled_repeated C.unread hexpr.coupled_hashRound).bind
    fun pairs => ?_).settled
  cases pairs with
  | none => exact coupled_pure id
  | some pairs => exact coupled_expecting C (coupled_pure C.settle)

lemma coupled_startRule {kind : Token.Kind} {rule : Parse Node}
    (h : startRule? expr kind = some rule) :
    Coupled (C.on i) rule (C.before i) := by
  unfold startRule? at h
  split at h <;> cases h
  · exact coupled_atom
  · exact coupled_integer
  · exact coupled_atom
  · exact hexpr.coupled_prefixOperation
  · exact hexpr.coupled_prefixOperation
  · exact coupled_atom
  · exact coupled_atom
  · exact hexpr.coupled_group
  · exact hexpr.coupled_conditional
  · exact coupled_entering C fun _ => hexpr.coupled_abstraction
  · exact coupled_entering C fun _ => hexpr.coupled_abstraction
  · exact hexpr.coupled_array
  · exact hexpr.coupled_hash

/-! ### Expressions that go on with an expression -/

lemma coupled_call {callee : Node} :
    Coupled (C.on i) (call expr callee) (C.before i) := by
  refine coupled_entering C fun j => coupled_look C fun t => ?_
  refine hexpr.coupled_list.bind fun args => ?_
  cases args with
  | none => exact coupled_pure id
  | some args => exact coupled_pure id

lemma coupled_index {left : Node} :
    Coupled (C.on i) (index expr left) (C.before i) :=
  coupled_entering C fun j => coupled_look C fun _ =>
    (coupled_advance C ((hexpr j lowest).bind fun _ =>
      coupled_expecting C (coupled_pure C.settle))).settled

lemma coupled_infixOperation {left : Node} :
    Coupled (C.on i) (infixOperation expr left) (C.before i) :=
  coupled_entering C fun j => coupled_look C fun _ =>
    (coupled_advance C (hexpr j _).map).settled

lemma coupled_extend {left : Node} :
    Coupled (C.on i) (extend expr left) (C.before i) := by
  refine coupled_look C fun t => ?_
  split
  · exact hexpr.coupled_call
  · exact hexpr.coupled_index
  · exact hexpr.coupled_infixOperation

lemma coupled_extensions {level n : ℕ} {left : Node} :
    Coupled (C.before i) (extensions expr level n left) (C.before i) := by
  induction n generalizing left with
  | zero => exact coupled_exhausted
  | succ n ih =>
      refine coupled_next C fun t => ?_
      split_ifs
      · exact coupled_advance C (hexpr.coupled_extend.bind fun _ => ih)
      · exact coupled_pure id

/-- Expressions one rule deeper are escorted. -/
lemma expressionWith : Escorted C (Grammar.expressionWith expr) := by
  intro i level
  refine coupled_entering C fun j => coupled_current C fun t => ?_
  split
  · exact coupled_report C
  · next rule hrule =>
    intro r r' hr
    have hrest : Coupled (C.on j)
        (rule >>= fun left => do
          extensions expr level ((← get).unread.length + 1) left)
        (C.before j) :=
      (hexpr.coupled_startRule hrule).bind fun left =>
        coupled_bounded (p := fun n => extensions expr level n left) C.unread
          fun _ => hexpr.coupled_extensions
    exact hrest r r' hr.1

end Escorted

/-- Expressions are escorted, however deep they are nested. -/
theorem escorted_expression (depth : ℕ) : Escorted C (expression depth) := by
  induction depth with
  | zero => exact fun _ _ => coupled_exhausted
  | succ depth ih => exact ih.expressionWith

/-- Two runs of the parser over a whole program. -/
theorem coupled_program : Coupled (C.on i) program (C.before i) :=
  coupled_entering C fun _ =>
    coupled_bounded (p := fun n => do
        return Node.program (← statements (expression n) endsProgram))
      (fun h => C.unread (C.settle h))
      fun n => ((escorted_expression n).coupled_statements _).map

end Grammar

end MonkeyLang

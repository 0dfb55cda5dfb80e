/-
Parsing does not depend on places.

* `Reader.Alike`: two readers of the same tokens in different places, the
  second of which met some faults before those of the first one;
* `Parse.Alike A p q`: from such readers `p` and `q` give answers related by
  `A`, or none, and leave such readers;
* `Grammar.Placeless`: nested expressions are read alike; the lemmas say that
  all rules are, and `placeless_expression` that all expressions are;
* `ofTokens_alike`: streams of the same tokens in different places have the
  same program, places aside, and as many faults; `ofTokens_messages`:
  and these have the same wording.
-/
import MonkeyLang.Parser
import MonkeyLang.Proofs.Parser.Reads
import MonkeyLang.Proofs.Related
import MonkeyLang.Proofs.Tree.Bare

namespace MonkeyLang

open List (Forall₂)

/-! ### Readers -/

/-- The faults that a reader met, without their places. -/
def Reader.causes (r : Reader) : List Diagnostic.Cause :=
  r.diagnostics.toList.map Diagnostic.cause

/-- Two readers of the same tokens in different places, the second of which met
some faults before those of the first one. -/
structure Reader.Alike (earlier : List Diagnostic.Cause) (r r' : Reader) :
    Prop where
  unread : r.unread.map Token.bare = r'.unread.map Token.bare
  eof : r.eof.bare = r'.eof.bare
  causes : r'.causes = earlier ++ r.causes

namespace Reader.Alike

variable {earlier : List Diagnostic.Cause} {r r' : Reader}

lemma length (h : r.Alike earlier r') : r.unread.length = r'.unread.length := by
  simpa using congrArg List.length h.unread

lemma current (h : r.Alike earlier r') : r.current.bare = r'.current.bare := by
  rw [Reader.current, Reader.current, ← List.headD_map (f := Token.bare),
    ← List.headD_map (f := Token.bare), h.unread, h.eof]

lemma next (h : r.Alike earlier r') : r.next.bare = r'.next.bare := by
  rw [Reader.next, Reader.next, ← List.headD_map (f := Token.bare),
    ← List.headD_map (f := Token.bare), List.map_tail, List.map_tail,
    h.unread, h.eof]

lemma advance (h : r.Alike earlier r') : r.advance.Alike earlier r'.advance where
  unread := by
    rw [Reader.advance, Reader.advance, List.map_tail, List.map_tail, h.unread]
  eof := h.eof
  causes := h.causes

lemma report (h : r.Alike earlier r') (cause : Diagnostic.Cause)
    (t t' : Token) :
    (r.report cause t).Alike earlier (r'.report cause t') where
  unread := h.unread
  eof := h.eof
  causes := by
    have hpush (s : Reader) (u : Token) :
        (s.report cause u).causes = s.causes ++ [cause] := by
      simp [Reader.causes, Reader.report]
    rw [hpush, hpush, h.causes, List.append_assoc]

/-- Only what is left, the end token and the faults count. -/
lemma congr {s s' : Reader} (h : r.Alike earlier r')
    (hs : s.unread = r.unread ∧ s.eof = r.eof ∧ s.diagnostics = r.diagnostics)
    (hs' : s'.unread = r'.unread ∧ s'.eof = r'.eof ∧
      s'.diagnostics = r'.diagnostics) : s.Alike earlier s' where
  unread := by rw [hs.1, hs'.1, h.unread]
  eof := by rw [hs.2.1, hs'.2.1, h.eof]
  causes := by
    rw [Reader.causes, Reader.causes, hs.2.2, hs'.2.2]
    exact h.causes

lemma enter (h : r.Alike earlier r') (rule : Rule) :
    (r.enter rule).Alike earlier (r'.enter rule) :=
  h.congr (r.enter_eq rule) (r'.enter_eq rule)

lemma leave (h : r.Alike earlier r') (rule : Rule) :
    (r.leave rule).Alike earlier (r'.leave rule) :=
  h.congr (r.leave_eq rule) (r'.leave_eq rule)

end Reader.Alike

/-! ### Reading -/

namespace Parse

variable {α β γ δ : Type} {A : α → β → Prop} {B : γ → δ → Prop}

/-- From readers that are alike, two rules give related answers and leave
readers that are alike, or neither gives an answer. -/
def Alike (A : α → β → Prop) (p : Parse α) (q : Parse β) : Prop :=
  ∀ earlier r r', r.Alike earlier r' →
    Option.Rel (fun x y => A x.1 y.1 ∧ x.2.Alike earlier y.2) (p r) (q r')

lemma alike_pure {a : α} {b : β} (h : A a b) :
    Alike A (pure a) (pure b) :=
  fun _ _ _ hr => .some ⟨h, hr⟩

lemma alike_exhausted : Alike A exhausted exhausted := fun _ _ _ _ => .none

lemma Alike.bind {p : Parse α} {q : Parse β} {k : α → Parse γ}
    {l : β → Parse δ} (h : Alike A p q)
    (hk : ∀ a b, A a b → Alike B (k a) (l b)) :
    Alike B (p >>= k) (q >>= l) :=
  fun _ r r' hr => rel_bind (h _ r r' hr) fun _ _ hx => hk _ _ hx.1 _ _ _ hx.2

/-- A last step that only changes the answers. -/
lemma Alike.map {p : Parse α} {q : Parse β} {f : α → γ} {g : β → δ}
    (h : Alike A p q) (hfg : ∀ a b, A a b → B (f a) (g b)) :
    Alike B (do return f (← p)) (do return g (← q)) :=
  h.bind fun a b hab => alike_pure (hfg a b hab)

lemma alike_current {k : Token → Parse γ} {l : Token → Parse δ}
    (hk : ∀ t u : Token, t.bare = u.bare → Alike B (k t) (l u)) :
    Alike B (current >>= k) (current >>= l) :=
  fun _ r r' hr => hk _ _ hr.current _ r r' hr

lemma alike_next {k : Token → Parse γ} {l : Token → Parse δ}
    (hk : ∀ t u : Token, t.bare = u.bare → Alike B (k t) (l u)) :
    Alike B (next >>= k) (next >>= l) :=
  fun _ r r' hr => hk _ _ hr.next _ r r' hr

lemma alike_advance {k : Unit → Parse γ} {l : Unit → Parse δ}
    (hk : Alike B (k ()) (l ())) : Alike B (advance >>= k) (advance >>= l) :=
  fun _ _ _ hr => hk _ _ _ hr.advance

/-- The same fault, reported at a token in another place. -/
lemma alike_report {cause cause' : Diagnostic.Cause} (hcause : cause = cause')
    {t t' : Token} {k : Unit → Parse γ} {l : Unit → Parse δ}
    (hk : Alike B (k ()) (l ())) :
    Alike B (modify (Reader.report cause t) >>= k)
      (modify (Reader.report cause' t') >>= l) :=
  fun _ _ _ hr => hk _ _ _ (hcause ▸ hr.report cause t t')

/-- A choice between two rules by what does not depend on places. -/
lemma alike_ite {c c' : Prop} [Decidable c] [Decidable c'] {p p' : Parse α}
    {q q' : Parse β} (hc : c ↔ c') (h : Alike A p q) (h' : Alike A p' q') :
    Alike A (if c then p else p') (if c' then q else q') := by
  by_cases hp : c
  · rwa [if_pos hp, if_pos (hc.mp hp)]
  · rwa [if_neg hp, if_neg (mt hc.mpr hp)]

lemma alike_expecting {kind : Token.Kind} {a : α} {b : β} {p : Parse α}
    {q : Parse β} (h : Alike A p q) (hab : A a b) :
    Alike A (expecting kind a p) (expecting kind b q) := by
  have hexpect : Alike Eq (expect kind) (expect kind) := by
    refine alike_next fun t u htu => alike_ite ?_
      (alike_advance (alike_pure rfl)) (alike_report ?_ (alike_pure rfl))
    · rw [(Token.bare_eq_iff.mp htu).1]
    · rw [(Token.bare_eq_iff.mp htu).1]
  refine hexpect.bind fun c d hcd => ?_
  subst hcd
  exact alike_ite Iff.rfl h (alike_pure hab)

lemma alike_skip {kind : Token.Kind} {k : Unit → Parse γ}
    {l : Unit → Parse δ} (hk : Alike B (k ()) (l ())) :
    Alike B (skip kind >>= k) (skip kind >>= l) := by
  refine Alike.bind (A := fun _ _ => True) ?_ fun _ _ _ => hk
  refine alike_next fun t u htu => alike_ite ?_ ?_ (alike_pure trivial)
  · rw [(Token.bare_eq_iff.mp htu).1]
  · exact fun _ _ _ hr => .some ⟨trivial, hr.advance⟩

lemma alike_entering {rule : Rule} {p : Parse α} {q : Parse β}
    (h : Alike A p q) : Alike A (entering rule p) (entering rule q) := by
  intro earlier r r' hr
  exact rel_bind (h _ _ _ (hr.enter rule)) fun x y hx =>
    .some ⟨hx.1, hx.2.leave rule⟩

/-! ### Repetition -/

/-- Rounds that find related items. -/
inductive Round.Alike (A : α → β → Prop) : Round α → Round β → Prop where
  | item {a : α} {b : β} (h : A a b) : Alike A (.item a) (.item b)
  | done : Alike A .done .done
  | broken : Alike A .broken .broken

lemma alike_rounds {round : Parse (Round α)} {round' : Parse (Round β)}
    (h : Alike (Round.Alike A) round round') (n : ℕ) :
    Alike (Option.Rel (Forall₂ A)) (rounds round n) (rounds round' n) := by
  induction n with
  | zero => exact alike_exhausted
  | succ n ih =>
      refine h.bind fun a b hab => ?_
      cases hab with
      | item hab =>
          refine ih.map fun as? bs? hs => ?_
          cases hs with
          | none => exact .none
          | some hs => exact .some (.cons hab hs)
      | done => exact alike_pure (.some .nil)
      | broken => exact alike_pure .none

/-- A bound on the tokens that are left. -/
lemma alike_bounded {p : ℕ → Parse α} {q : ℕ → Parse β}
    (h : ∀ n, Alike A (p n) (q n)) :
    Alike A (do p ((← get).unread.length + 1))
      (do q ((← get).unread.length + 1)) := by
  intro earlier r r' hr
  show Option.Rel _ (p (r.unread.length + 1) r) (q (r'.unread.length + 1) r')
  rw [hr.length]
  exact h _ earlier r r' hr

lemma alike_repeated {round : Parse (Round α)} {round' : Parse (Round β)}
    (h : Alike (Round.Alike A) round round') :
    Alike (Option.Rel (Forall₂ A)) (repeated round) (repeated round') :=
  alike_bounded (alike_rounds h)

end Parse

/-! ### Rules -/

namespace Grammar

open Parse

/-- Trees that are equal without places. -/
def Same (m n : Node) : Prop := m.bare = n.bare

/-- Nested expressions are read alike. -/
def Placeless (expr : ℕ → Parse Node) : Prop :=
  ∀ level, Alike Same (expr level) (expr level)

lemma same_lists {ns ns' : List Node} (h : Forall₂ Same ns ns') :
    Node.bareList ns = Node.bareList ns' := by
  rw [Node.bareList_eq_map, Node.bareList_eq_map]
  exact forall₂_map_eq.mp h

lemma same_filterMap {as bs : List (Option Node)}
    (h : Forall₂ (Option.Rel Same) as bs) :
    Forall₂ Same (as.filterMap id) (bs.filterMap id) := by
  induction h with
  | nil => exact .nil
  | cons hab _ ih =>
      cases hab with
      | none => exact ih
      | some hab => exact .cons hab ih

/-- A rule that stays on its token. -/
lemma alike_atom {rule : Rule} {f : Token → Node}
    (hf : ∀ t u, t.bare = u.bare → Same (f t) (f u)) :
    Alike Same (entering rule do return f (← current))
      (entering rule do return f (← current)) :=
  alike_entering (alike_current fun t u htu => alike_pure (hf t u htu))

lemma alike_integer : Alike Same integer integer := by
  refine alike_entering (alike_current fun t u htu => ?_)
  rw [(Token.bare_eq_iff.mp htu).2]
  split
  · exact alike_pure (by rw [Same, Node.bare, Node.bare, htu])
  · exact alike_report rfl (alike_pure rfl)

namespace Placeless

variable {expr : ℕ → Parse Node} (hexpr : Placeless expr)

include hexpr

/-! ### Statements and blocks -/

/-- A value and the semicolon that may stand behind it. -/
lemma alike_value {α β : Type} {A : α → β → Prop} {f : Node → α}
    {g : Node → β} (hfg : ∀ m n, Same m n → A (f m) (g n)) :
    Alike A
      (do
        let value ← expr lowest
        skip .semicolon
        return f value)
      (do
        let value ← expr lowest
        skip .semicolon
        return g value) :=
  (hexpr lowest).bind fun m n hmn => alike_skip (alike_pure (hfg m n hmn))

lemma alike_letStatement :
    Alike (Option.Rel Same) (letStatement expr) (letStatement expr) := by
  refine alike_entering (alike_current fun t u htu => alike_expecting ?_ .none)
  refine alike_current fun name name' hname => alike_expecting ?_ .none
  refine alike_advance (hexpr.alike_value fun m n hmn => .some ?_)
  rw [Same, Node.bare, Node.bare, htu, hname, hmn]

lemma alike_statement :
    Alike (Option.Rel Same) (statement expr) (statement expr) := by
  refine alike_entering (alike_current fun t u htu => ?_)
  rw [(Token.bare_eq_iff.mp htu).1]
  split
  · exact hexpr.alike_letStatement
  · refine (alike_entering (alike_current fun t u htu => ?_)).map
      fun _ _ => .some
    refine alike_advance (hexpr.alike_value fun m n hmn => ?_)
    rw [Same, Node.bare, Node.bare, htu, hmn]
  · refine (alike_entering (alike_current fun t u htu => ?_)).map
      fun _ _ => .some
    refine hexpr.alike_value fun m n hmn => ?_
    rw [Same, Node.bare, Node.bare, htu, hmn]

lemma alike_statementRound (stop : Token.Kind → Bool) :
    Alike (Round.Alike (Option.Rel Same))
      (statementRound expr stop) (statementRound expr stop) := by
  refine alike_current fun t u htu => alike_ite ?_ (alike_pure .done) ?_
  · rw [(Token.bare_eq_iff.mp htu).1]
  · exact hexpr.alike_statement.bind fun _ _ hs =>
      alike_advance (alike_pure (.item hs))

lemma alike_statements (stop : Token.Kind → Bool) :
    Alike (Forall₂ Same) (statements expr stop) (statements expr stop) := by
  refine (alike_repeated (hexpr.alike_statementRound stop)).map
    fun found found' hfound => ?_
  cases hfound with
  | none => exact .nil
  | some hs => exact same_filterMap hs

lemma alike_block : Alike Same (block expr) (block expr) := by
  refine alike_entering (alike_current fun t u htu => alike_advance ?_)
  refine (hexpr.alike_statements _).map fun ss ss' hss => ?_
  rw [Same, Node.bare, Node.bare, htu, same_lists hss]

/-! ### Lists -/

omit hexpr in
lemma alike_listRound {item : Parse (Round Node)}
    (hitem : Alike (Round.Alike Same) item item) :
    Alike (Round.Alike Same) (listRound item) (listRound item) := by
  refine alike_next fun t u htu => alike_ite ?_ (alike_advance hitem)
    (alike_pure .done)
  rw [(Token.bare_eq_iff.mp htu).1]

lemma alike_list (close : Token.Kind) :
    Alike (Option.Rel (Forall₂ Same)) (list expr close) (list expr close) := by
  refine alike_entering (alike_next fun t u htu => alike_ite ?_
    (alike_advance (alike_pure (.some .nil))) (alike_advance ?_))
  · rw [(Token.bare_eq_iff.mp htu).1]
  · refine (hexpr lowest).bind fun m n hmn => ?_
    refine (alike_repeated (alike_listRound (alike_advance
      ((hexpr lowest).map fun _ _ => .item)))).bind fun ns? ns'? hns => ?_
    refine alike_expecting (alike_pure ?_) .none
    cases hns with
    | none => exact .none
    | some hns => exact .some (.cons hmn hns)

omit hexpr in
lemma alike_parameters :
    Alike (Option.Rel (Forall₂ Same)) parameters parameters := by
  have hident {t u : Token} (htu : t.bare = u.bare) :
      Same (.ident t) (.ident u) := by
    rw [Same, Node.bare, Node.bare, htu]
  refine alike_entering (alike_next fun t u htu => alike_ite ?_
    (alike_advance (alike_pure (.some .nil))) (alike_expecting ?_ .none))
  · rw [(Token.bare_eq_iff.mp htu).1]
  · refine alike_current fun first first' hfirst => ?_
    refine (alike_repeated (alike_listRound (alike_expecting
      (alike_current fun t u htu => alike_pure (.item (hident htu)))
      .broken))).bind fun ns? ns'? hns => ?_
    cases hns with
    | none => exact alike_pure .none
    | some hns =>
        exact alike_expecting
          (alike_pure (.some (.cons (hident hfirst) hns))) .none

/-! ### Expressions that start with a token of their own -/

lemma alike_prefixOperation :
    Alike Same (prefixOperation expr) (prefixOperation expr) := by
  refine alike_entering (alike_current fun t u htu => alike_advance ?_)
  refine (hexpr tight).map fun m n hmn => ?_
  rw [Same, Node.bare, Node.bare, htu, hmn]

lemma alike_group : Alike Same (group expr) (group expr) :=
  alike_entering (alike_advance ((hexpr lowest).bind fun _ _ hmn =>
    alike_expecting (alike_pure hmn) rfl))

lemma alike_conditional :
    Alike Same (conditional expr) (conditional expr) := by
  refine alike_entering (alike_current fun t u htu => alike_expecting ?_ rfl)
  refine alike_advance ((hexpr lowest).bind fun c c' hc => ?_)
  refine alike_expecting (alike_expecting ?_ rfl) rfl
  refine hexpr.alike_block.bind fun a a' ha => ?_
  refine alike_next fun v w hvw => alike_ite ?_ (alike_advance
    (alike_expecting ?_ rfl)) (alike_pure ?_)
  · rw [(Token.bare_eq_iff.mp hvw).1]
  · refine hexpr.alike_block.map fun b b' hb => ?_
    rw [Same, Node.bare, Node.bare, htu, hc, ha, hb]
  · rw [Same, Node.bare, htu, hc, ha]
    rfl

lemma alike_abstraction {make : Token → List Node → Node → Node}
    (hmake : ∀ t u ps ps' b b', t.bare = u.bare → Forall₂ Same ps ps' →
      Same b b' → Same (make t ps b) (make u ps' b')) :
    Alike Same (abstraction expr make) (abstraction expr make) := by
  refine alike_current fun t u htu => alike_expecting ?_ rfl
  refine alike_parameters.bind fun ps? ps'? hps => ?_
  cases hps with
  | none => exact alike_pure rfl
  | some hps =>
      refine alike_expecting ?_ rfl
      exact hexpr.alike_block.map fun b b' hb => hmake _ _ _ _ _ _ htu hps hb

lemma alike_array : Alike Same (array expr) (array expr) := by
  refine alike_entering (alike_current fun t u htu => ?_)
  refine (hexpr.alike_list _).bind fun ns? ns'? hns => ?_
  cases hns with
  | none => exact alike_pure rfl
  | some hns =>
      exact alike_pure (by rw [Same, Node.bare, Node.bare, htu, same_lists hns])

/-- Entries of a hash. -/
lemma alike_hashRound :
    Alike (Round.Alike fun p q => (p.1.bare, p.2.bare) = (q.1.bare, q.2.bare))
      (hashRound expr) (hashRound expr) := by
  refine alike_next fun t u htu => alike_ite ?_ (alike_pure .done)
    (alike_advance ((hexpr lowest).bind fun k k' hk =>
      alike_expecting ?_ .broken))
  · rw [(Token.bare_eq_iff.mp htu).1]
  · refine alike_advance ((hexpr lowest).bind fun v v' hv => ?_)
    have hpair : (k.bare, v.bare) = (k'.bare, v'.bare) := by rw [hk, hv]
    refine alike_next fun t u htu => alike_ite ?_ (alike_pure (.item hpair))
      (alike_expecting (alike_pure (.item hpair)) .broken)
    rw [(Token.bare_eq_iff.mp htu).1]

lemma alike_hash : Alike Same (hash expr) (hash expr) := by
  refine alike_entering (alike_current fun t u htu => ?_)
  refine (alike_repeated hexpr.alike_hashRound).bind fun ps? ps'? hps => ?_
  cases hps with
  | none => exact alike_pure rfl
  | some hps =>
      refine alike_expecting (alike_pure ?_) rfl
      rw [Same, Node.bare, Node.bare, htu, Node.barePairs_eq_map,
        Node.barePairs_eq_map, forall₂_map_eq.mp hps]

lemma alike_startRule {kind : Token.Kind} {rule : Parse Node}
    (h : startRule? expr kind = some rule) : Alike Same rule rule := by
  unfold startRule? at h
  split at h <;> cases h
  · exact alike_atom fun t u htu => by rw [Same, Node.bare, Node.bare, htu]
  · exact alike_integer
  · exact alike_atom fun t u htu => by rw [Same, Node.bare, Node.bare, htu]
  · exact hexpr.alike_prefixOperation
  · exact hexpr.alike_prefixOperation
  · exact alike_atom fun t u htu => by
      rw [Same, Node.bare, Node.bare, htu, (Token.bare_eq_iff.mp htu).1]
  · exact alike_atom fun t u htu => by
      rw [Same, Node.bare, Node.bare, htu, (Token.bare_eq_iff.mp htu).1]
  · exact hexpr.alike_group
  · exact hexpr.alike_conditional
  · exact alike_entering (hexpr.alike_abstraction
      fun t u ps ps' b b' htu hps hb => by
        rw [Same, Node.bare, Node.bare, htu, same_lists hps, hb])
  · exact alike_entering (hexpr.alike_abstraction
      fun t u ps ps' b b' htu hps hb => by
        rw [Same, Node.bare, Node.bare, htu, same_lists hps, hb])
  · exact hexpr.alike_array
  · exact hexpr.alike_hash

/-! ### Expressions that go on with an expression -/

lemma alike_extend {left left' : Node} (hleft : Same left left') :
    Alike Same (extend expr left) (extend expr left') := by
  refine alike_current fun t u htu => ?_
  rw [(Token.bare_eq_iff.mp htu).1]
  split
  · refine alike_entering (alike_current fun t u htu => ?_)
    refine (hexpr.alike_list _).bind fun ns? ns'? hns => ?_
    cases hns with
    | none => exact alike_pure rfl
    | some hns =>
        refine alike_pure ?_
        rw [Same, Node.bare, Node.bare, htu, hleft, same_lists hns]
  · refine alike_entering (alike_current fun t u htu => alike_advance ?_)
    refine (hexpr lowest).bind fun m n hmn =>
      alike_expecting (alike_pure ?_) rfl
    rw [Same, Node.bare, Node.bare, htu, hleft, hmn]
  · refine alike_entering (alike_current fun t u htu => alike_advance ?_)
    rw [(Token.bare_eq_iff.mp htu).1]
    refine (hexpr _).map fun m n hmn => ?_
    rw [Same, Node.bare, Node.bare, htu, hleft, hmn]

lemma alike_extensions {level m : ℕ} {left left' : Node}
    (hleft : Same left left') :
    Alike Same (extensions expr level m left)
      (extensions expr level m left') := by
  induction m generalizing left left' with
  | zero => exact alike_exhausted
  | succ m ih =>
      refine alike_next fun t u htu => alike_ite ?_ (alike_advance
        ((hexpr.alike_extend hleft).bind fun _ _ => ih)) (alike_pure hleft)
      rw [(Token.bare_eq_iff.mp htu).1]

/-- Expressions one rule deeper are read alike. -/
lemma expressionWith : Placeless (Grammar.expressionWith expr) := by
  intro level
  refine alike_entering (alike_current fun t u htu => ?_)
  rw [(Token.bare_eq_iff.mp htu).1]
  split
  · exact alike_report rfl (alike_pure rfl)
  · next rule hrule =>
    exact (hexpr.alike_startRule hrule).bind fun left left' hleft =>
      alike_bounded (p := fun m => extensions expr level m left)
        fun m => hexpr.alike_extensions hleft

end Placeless

/-- Expressions are read alike, however deep they are nested. -/
theorem placeless_expression (depth : ℕ) : Placeless (expression depth) := by
  induction depth with
  | zero => exact fun _ => alike_exhausted
  | succ depth ih => exact ih.expressionWith

lemma alike_program : Alike Same program program := by
  have hstatements (n : ℕ) : Alike Same
      (do return Node.program (← statements (expression n) endsProgram))
      (do return Node.program (← statements (expression n) endsProgram)) := by
    refine ((placeless_expression n).alike_statements _).map
      fun ss ss' hss => ?_
    rw [Same, Node.bare, Node.bare, same_lists hss]
  exact alike_entering (alike_bounded hstatements)

end Grammar

/-! ### Streams -/

/-- Streams of the same tokens are read by readers that are alike. -/
lemma Reader.alike_ofTokens {ts us : List Token}
    (h : ts.map Token.bare = us.map Token.bare) (tracing tracing' : Bool) :
    (Reader.ofTokens ts tracing).Alike [] (Reader.ofTokens us tracing') where
  unread := by
    have htake (vs : List Token) :
        (vs.takeWhile (!Reader.isEnd ·)).map Token.bare =
          (vs.map Token.bare).takeWhile (!Reader.isEnd ·) := by
      rw [List.takeWhile_map]
      rfl
    show (ts.takeWhile _).map _ = (us.takeWhile _).map _
    rw [htake, htake, h]
  eof := by
    have hfind (vs : List Token) :
        ((vs.find? Reader.isEnd).getD (.made .eof "")).bare =
          ((vs.map Token.bare).find? Reader.isEnd).getD (.made .eof "") := by
      rw [List.find?_map]
      show _ = ((vs.find? Reader.isEnd).map _).getD _
      cases vs.find? Reader.isEnd <;> rfl
    show ((ts.find? _).getD _).bare = ((us.find? _).getD _).bare
    rw [hfind, hfind, h]
  causes := rfl

namespace Parser

variable {ts us : List Token} {tracing tracing' : Bool}

/-- Readers that are alike find the same program and the same faults, places
aside. -/
lemma ofTokens_causes_of_alike
    (h : (Reader.ofTokens ts tracing).Alike [] (Reader.ofTokens us tracing')) :
    (Parser.ofTokens ts tracing).program.bare =
        (Parser.ofTokens us tracing').program.bare ∧
      (Parser.ofTokens ts tracing).diagnostics.map Diagnostic.cause =
        (Parser.ofTokens us tracing').diagnostics.map Diagnostic.cause := by
  have halike := Grammar.alike_program _ _ _ h
  change Option.Rel _ (Parser.run _) (Parser.run _) at halike
  unfold Parser.ofTokens
  generalize Parser.run (.ofTokens ts tracing) = x at halike ⊢
  generalize Parser.run (.ofTokens us tracing') = y at halike ⊢
  cases halike with
  | none => exact ⟨rfl, rfl⟩
  | some hx => exact ⟨hx.1, hx.2.causes.symm⟩

/-- So they meet as many faults. -/
lemma ofTokens_of_alike
    (h : (Reader.ofTokens ts tracing).Alike [] (Reader.ofTokens us tracing')) :
    (Parser.ofTokens ts tracing).program.bare =
        (Parser.ofTokens us tracing').program.bare ∧
      (Parser.ofTokens ts tracing).diagnostics.length =
        (Parser.ofTokens us tracing').diagnostics.length := by
  obtain ⟨hprogram, hcauses⟩ := ofTokens_causes_of_alike h
  exact ⟨hprogram, by simpa using congrArg List.length hcauses⟩

/-- **Places do not count.**  Streams of the same tokens in different places
have the same program, places aside, and as many faults. -/
theorem ofTokens_alike (h : ts.map Token.bare = us.map Token.bare)
    (tracing tracing' : Bool) :
    (Parser.ofTokens ts tracing).program.bare =
        (Parser.ofTokens us tracing').program.bare ∧
      (Parser.ofTokens ts tracing).diagnostics.length =
        (Parser.ofTokens us tracing').diagnostics.length :=
  ofTokens_of_alike (Reader.alike_ofTokens h tracing tracing')

/-- The faults have the same wording. -/
theorem ofTokens_messages (h : ts.map Token.bare = us.map Token.bare)
    (tracing tracing' : Bool) :
    (Parser.ofTokens ts tracing).diagnostics.map Diagnostic.message =
      (Parser.ofTokens us tracing').diagnostics.map Diagnostic.message := by
  have hcauses := congrArg (List.map Diagnostic.Cause.message)
    (ofTokens_causes_of_alike (Reader.alike_ofTokens h tracing tracing')).2
  rwa [List.map_map, List.map_map] at hcauses

end Parser

end MonkeyLang

/-
What the parser gives, whatever it reads.

* `Reader.All T`: a reader all of whose tokens have `T`;
* `Parse.Yields T A p r`: the rule `p` gives nothing but answers with `A` from
  the reader `r`, and leaves a reader of tokens with `T`;
* `Yields.bind` composes such rules, `yields_expecting`, `yields_entering` and
  `yields_repeated` are the ways in which the grammar does so;
* `Grammar.Builds T N`: whatever node the grammar makes of tokens with `T` and
  nodes with `N` has `N`;
* `Builds.of_children`: it is enough that a node has `N` if its children have
  it;
* `Builds.ofTokens`: then whatever statement the parser gives has `N`.
-/
import MonkeyLang.Parser
import MonkeyLang.Proofs.Tree.Children

namespace MonkeyLang

/-- A reader all of whose tokens have a property. -/
structure Reader.All (T : Token → Prop) (r : Reader) : Prop where
  unread : ∀ t ∈ r.unread, T t
  eof : T r.eof

namespace Reader.All

variable {T : Token → Prop} {r : Reader}

lemma current (h : r.All T) : T r.current := by
  rcases hunread : r.unread with _ | ⟨t, ts⟩
  · simpa [Reader.current, hunread] using h.eof
  · simpa [Reader.current, hunread] using h.unread t (by simp [hunread])

lemma advance (h : r.All T) : r.advance.All T :=
  ⟨fun t ht => h.unread t (List.mem_of_mem_tail ht), h.eof⟩

lemma report (h : r.All T) (cause : Diagnostic.Cause) (t : Token) :
    (r.report cause t).All T :=
  ⟨h.unread, h.eof⟩

lemma enter (h : r.All T) (rule : Rule) : (r.enter rule).All T :=
  ⟨by simpa using h.unread, by simpa using h.eof⟩

lemma leave (h : r.All T) (rule : Rule) : (r.leave rule).All T :=
  ⟨by simpa using h.unread, by simpa using h.eof⟩

end Reader.All

namespace Parse

variable {α β : Type} {T : Token → Prop} {A : α → Prop} {B : β → Prop}
  {r : Reader}

/-! ### Answers -/

/-- From a reader a rule gives nothing but answers with `A`, and it leaves a
reader of tokens with `T`. -/
def Yields (T : Token → Prop) (A : α → Prop) (p : Parse α) (r : Reader) :
    Prop :=
  ∀ a r', p r = some (a, r') → r'.All T ∧ A a

lemma yields_pure (hr : r.All T) {a : α} (ha : A a) :
    Yields T A (pure a) r := by
  rintro b r' ⟨⟩
  exact ⟨hr, ha⟩

lemma yields_exhausted : Yields T A exhausted r := by
  rintro a r' ⟨⟩

lemma Yields.bind {p : Parse α} {k : α → Parse β} (hp : Yields T A p r)
    (hk : ∀ a r', r'.All T → A a → Yields T B (k a) r') :
    Yields T B (p >>= k) r := by
  intro b r' hrun
  change (p r).bind _ = _ at hrun
  rcases hfirst : p r with _ | ⟨a, r₁⟩
  · rw [hfirst] at hrun
    cases hrun
  · rw [hfirst] at hrun
    obtain ⟨hr₁, ha⟩ := hp a r₁ hfirst
    exact hk a r₁ hr₁ ha b r' hrun

/-- A last step that only changes the answer. -/
lemma Yields.map {p : Parse α} {f : α → β} (hp : Yields T A p r)
    (hf : ∀ a, A a → B (f a)) : Yields T B (do return f (← p)) r :=
  hp.bind fun a _ hr' ha => yields_pure hr' (hf a ha)

/-- Going on from the reader as it stands. -/
lemma yields_get {k : Reader → Parse β} (hk : Yields T B (k r) r) :
    Yields T B (get >>= k) r :=
  hk

/-- Going on from the current token. -/
lemma yields_current {k : Token → Parse β}
    (hk : Yields T B (k r.current) r) : Yields T B (current >>= k) r :=
  hk

/-- Going on from the next token. -/
lemma yields_next {k : Token → Parse β} (hk : Yields T B (k r.next) r) :
    Yields T B (next >>= k) r :=
  hk

/-- Going on behind the current token. -/
lemma yields_advance {k : Unit → Parse β} (hr : r.All T)
    (hk : ∀ r', r'.All T → Yields T B (k ()) r') :
    Yields T B (advance >>= k) r :=
  hk r.advance hr.advance

/-- Going on from a token of the kind that has to follow. -/
lemma yields_expecting_kind {kind : Token.Kind} {otherwise : α}
    {rest : Parse α} (hr : r.All T) (hotherwise : A otherwise)
    (hrest : ∀ r', r'.All T → r'.current.kind = kind → Yields T A rest r') :
    Yields T A (expecting kind otherwise rest) r := by
  intro a r' hrun
  change ((if r.next.kind = kind then _ else _ : Parse Bool) r).bind _ = _
    at hrun
  split at hrun
  · next hkind => exact hrest r.advance hr.advance hkind a r' hrun
  · cases hrun
    exact ⟨hr.report _ _, hotherwise⟩

lemma yields_expecting {kind : Token.Kind} {otherwise : α} {rest : Parse α}
    (hr : r.All T) (hotherwise : A otherwise)
    (hrest : ∀ r', r'.All T → Yields T A rest r') :
    Yields T A (expecting kind otherwise rest) r :=
  yields_expecting_kind hr hotherwise fun r' hr' _ => hrest r' hr'

lemma yields_skip (hr : r.All T) (kind : Token.Kind) :
    Yields T (fun _ => True) (skip kind) r := by
  show Yields T _ (if r.next.kind = kind then _ else _ : Parse Unit) r
  split
  · exact yields_pure hr.advance trivial
  · exact yields_pure hr trivial

/-- Reading by a rule gives what its body gives. -/
lemma yields_entering {p : Parse α} (rule : Rule)
    (hp : Yields T A p (r.enter rule)) : Yields T A (entering rule p) r := by
  have hleave : ∀ a r', r'.All T → A a →
      Yields T A (do modify (Reader.leave rule); return a) r' := by
    rintro a r' hr' ha b r'' ⟨⟩
    exact ⟨hr'.leave rule, ha⟩
  exact (hp.bind hleave : Yields T A _ (r.enter rule))

/-! ### Repetition -/

/-- The item of a round, if it found one, has a property. -/
def Round.Has (A : α → Prop) : Round α → Prop
  | .item a => A a
  | _ => True

/-- The members of a list that is there have a property. -/
def ListHas (A : α → Prop) (as? : Option (List α)) : Prop :=
  ∀ as, as? = some as → ∀ a ∈ as, A a

lemma yields_rounds {round : Parse (Round α)}
    (hround : ∀ r, r.All T → Yields T (Round.Has A) round r) (n : ℕ)
    (hr : r.All T) : Yields T (ListHas A) (rounds round n) r := by
  induction n generalizing r with
  | zero => exact yields_exhausted
  | succ n ih =>
      refine (hround r hr).bind fun found r' hr' hfound => ?_
      cases found with
      | item a =>
          refine (ih hr').map fun as? has => ?_
          intro as h
          obtain ⟨bs, rfl, rfl⟩ := Option.map_eq_some_iff.mp h
          exact List.forall_mem_cons.mpr ⟨hfound, has bs rfl⟩
      | done =>
          refine yields_pure hr' ?_
          rintro as ⟨⟩
          exact fun a ha => absurd ha List.not_mem_nil
      | broken => exact yields_pure hr' nofun

lemma yields_repeated {round : Parse (Round α)}
    (hround : ∀ r, r.All T → Yields T (Round.Has A) round r) (hr : r.All T) :
    Yields T (ListHas A) (repeated round) r :=
  yields_rounds hround (r.unread.length + 1) hr

end Parse

namespace Grammar

open Parse

/-! ### Trees that the grammar makes -/

/-- A parameter is the identifier of a token. -/
def Parameter (T : Token → Prop) (p : Node) : Prop :=
  ∃ u, p = .ident u ∧ T u ∧ u.kind = .ident

/-- Whatever the grammar makes of nodes with `N` has `N`; of tokens it matters
only what integers are read from, what is bound by a `let` and what the
parameters are. -/
structure Builds (T : Token → Prop) (N : Node → Prop) : Prop where
  missing : N .missing
  letStmt : ∀ t name v, T name → name.kind = .ident → N v →
    N (.letStmt t name v)
  returnStmt : ∀ t v, N v → N (.returnStmt t v)
  exprStmt : ∀ t v, N v → N (.exprStmt t v)
  block : ∀ t ss, (∀ n ∈ ss, N n) → N (.block t ss)
  ident : ∀ t, N (.ident t)
  intLit : ∀ t n, T t → t.kind = .int → Numeral.read? t.text = some n →
    n ≤ maxInteger → N (.intLit t n)
  boolLit : ∀ t b, N (.boolLit t b)
  strLit : ∀ t, N (.strLit t)
  prefixOp : ∀ t r, N r → N (.prefixOp t r)
  infixOp : ∀ t l r, N l → N r → N (.infixOp t l r)
  conditional : ∀ t c a b, N c → N a → N b → N (.conditional t c a b)
  function : ∀ t ps b, (∀ p ∈ ps, Parameter T p) → N b → N (.function t ps b)
  macroFn : ∀ t ps b, (∀ p ∈ ps, Parameter T p) → N b → N (.macroFn t ps b)
  call : ∀ t c as, N c → (∀ a ∈ as, N a) → N (.call t c as)
  array : ∀ t es, (∀ n ∈ es, N n) → N (.array t es)
  index : ∀ t l i, N l → N i → N (.index t l i)
  hash : ∀ t ps, (∀ p ∈ ps, N p.1 ∧ N p.2) → N (.hash t ps)

variable {T : Token → Prop} {N : Node → Prop} {r : Reader}
  {expr : ℕ → Parse Node}

/-- Parameters are identifiers. -/
lemma Parameter.exists_ident {p : Node} (h : Parameter T p) :
    ∃ u, p = .ident u := by
  obtain ⟨u, hp, -⟩ := h
  exact ⟨u, hp⟩

namespace Builds

/-- It is enough that a node has `N` if its children have it, where integers are
those of tokens and parameters are identifiers. -/
theorem of_children
    (hstep : ∀ n : Node,
      (∀ t k, n = .intLit t k → T t ∧ t.kind = .int ∧
        Numeral.read? t.text = some k ∧ k ≤ maxInteger) →
      (∀ t ps b, n = .function t ps b ∨ n = .macroFn t ps b →
        ∀ p ∈ ps, ∃ u, p = .ident u) →
      (∀ m ∈ n.children, N m) → N n) : Builds T N := by
  -- most nodes are neither an integer nor one with parameters
  have hplain (n : Node) (hint : n.kind ≠ .intLit) (hfn : n.kind ≠ .function)
      (hkind : n.kind ≠ .macroFn) (hchildren : ∀ m ∈ n.children, N m) :
      N n := by
    refine hstep n ?_ ?_ hchildren
    · rintro t k rfl
      exact absurd rfl hint
    · rintro t ps b (rfl | rfl)
      · exact absurd rfl hfn
      · exact absurd rfl hkind
  have hident (t : Token) : N (.ident t) := hplain _ nofun nofun nofun nofun
  have hparams {ps : List Node} (hps : ∀ p ∈ ps, Parameter T p) {b : Node}
      (hb : N b) : ∀ m ∈ ps ++ [b], N m := by
    refine List.forall_mem_append.mpr
      ⟨fun p hp => ?_, List.forall_mem_singleton.mpr hb⟩
    obtain ⟨u, rfl⟩ := (hps p hp).exists_ident
    exact hident u
  exact
    { missing := hplain _ nofun nofun nofun nofun
      letStmt _ _ _ _ _ hv := hplain _ nofun nofun nofun
        (List.forall_mem_singleton.mpr hv)
      returnStmt _ _ hv := hplain _ nofun nofun nofun
        (List.forall_mem_singleton.mpr hv)
      exprStmt _ _ hv := hplain _ nofun nofun nofun
        (List.forall_mem_singleton.mpr hv)
      block _ _ hss := hplain _ nofun nofun nofun hss
      ident := hident
      intLit t n ht hkind hread hle := by
        refine hstep _ ?_ nofun nofun
        rintro _ _ ⟨⟩
        exact ⟨ht, hkind, hread, hle⟩
      boolLit _ _ := hplain _ nofun nofun nofun nofun
      strLit _ := hplain _ nofun nofun nofun nofun
      prefixOp _ _ hr := hplain _ nofun nofun nofun
        (List.forall_mem_singleton.mpr hr)
      infixOp _ _ _ hl hr := hplain _ nofun nofun nofun
        (List.forall_mem_cons.mpr ⟨hl, List.forall_mem_singleton.mpr hr⟩)
      conditional _ _ _ _ hc ha hb := hplain _ nofun nofun nofun
        (List.forall_mem_cons.mpr ⟨hc, List.forall_mem_cons.mpr
          ⟨ha, List.forall_mem_singleton.mpr hb⟩⟩)
      function t ps b hps hb := by
        refine hstep _ nofun ?_ (hparams hps hb)
        rintro _ _ _ (⟨⟨⟩⟩ | ⟨⟨⟩⟩)
        exact fun p hp => (hps p hp).exists_ident
      macroFn t ps b hps hb := by
        refine hstep _ nofun ?_ (hparams hps hb)
        rintro _ _ _ (⟨⟨⟩⟩ | ⟨⟨⟩⟩)
        exact fun p hp => (hps p hp).exists_ident
      call _ _ _ hc has := hplain _ nofun nofun nofun
        (List.forall_mem_cons.mpr ⟨hc, has⟩)
      array _ _ hes := hplain _ nofun nofun nofun hes
      index _ _ _ hl hi := hplain _ nofun nofun nofun
        (List.forall_mem_cons.mpr ⟨hl, List.forall_mem_singleton.mpr hi⟩)
      hash _ _ hps := hplain _ nofun nofun nofun
        (Node.forall_mem_entries.mpr hps) }

variable (h : Builds T N)
  (hexpr : ∀ level r, r.All T → Yields T N (expr level) r)

include h

/-- What a statement may be. -/
def Optional (N : Node → Prop) (n? : Option Node) : Prop :=
  ∀ n, n? = some n → N n

omit h in
lemma optional_none : Optional N none := nofun

omit h in
lemma optional_some {n : Node} (hn : N n) : Optional N (some n) := by
  rintro m ⟨rfl⟩
  exact hn

/-! ### Atoms -/

lemma yields_integer (hr : r.All T) (hkind : r.current.kind = .int) :
    Yields T N integer r := by
  refine yields_entering _ (yields_current ?_)
  have henter := hr.enter .integer
  rw [Reader.current_enter]
  split
  · next n hn =>
    obtain ⟨hread, hle⟩ := Option.filter_eq_some_iff.mp hn
    exact yields_pure henter (h.intLit _ n hr.current hkind hread
      (by simpa using hle))
  · rintro n r' ⟨⟩
    exact ⟨henter.report _ _, h.missing⟩

/-! ### Statements -/

include hexpr

lemma yields_letStatement (hr : r.All T) :
    Yields T (Optional N) (letStatement expr) r := by
  refine yields_entering _ (yields_current ?_)
  refine yields_expecting_kind (hr.enter _) optional_none fun r hr hkind => ?_
  have hname := hr.current
  refine yields_current (yields_expecting hr optional_none fun r hr => ?_)
  refine yields_advance hr fun r hr => (hexpr lowest r hr).bind
    fun v r hr hv => (yields_skip hr _).map fun _ _ => ?_
  exact optional_some (h.letStmt _ _ v hname hkind hv)

lemma yields_returnStatement (hr : r.All T) :
    Yields T N (returnStatement expr) r := by
  refine yields_entering _ (yields_current ?_)
  exact yields_advance (hr.enter _) fun r hr => (hexpr lowest r hr).bind
    fun v r hr hv => (yields_skip hr _).map fun _ _ => h.returnStmt _ v hv

lemma yields_expressionStatement (hr : r.All T) :
    Yields T N (expressionStatement expr) r := by
  refine yields_entering _ (yields_current ?_)
  exact (hexpr lowest _ (hr.enter _)).bind fun v r hr hv =>
    (yields_skip hr _).map fun _ _ => h.exprStmt _ v hv

lemma yields_statement (hr : r.All T) :
    Yields T (Optional N) (statement expr) r := by
  refine yields_entering _ (yields_current ?_)
  have hr := hr.enter .statement
  split
  · exact h.yields_letStatement hexpr hr
  · exact (h.yields_returnStatement hexpr hr).map fun _ => optional_some
  · exact (h.yields_expressionStatement hexpr hr).map fun _ => optional_some

lemma yields_statements (stop : Token.Kind → Bool) (hr : r.All T) :
    Yields T (fun ss => ∀ n ∈ ss, N n) (statements expr stop) r := by
  refine (yields_repeated (A := Optional N) (fun r hr => ?_) hr).map
    fun found hfound n hn => ?_
  · refine yields_current ?_
    split
    · exact yields_pure hr trivial
    · refine (h.yields_statement hexpr hr).bind fun n? r hr hn => ?_
      exact yields_advance hr fun r hr => yields_pure hr hn
  · obtain ⟨n?, hmem, rfl⟩ := List.mem_filterMap.mp hn
    cases found with
    | none => cases hmem
    | some ns => exact hfound ns rfl _ hmem n rfl

lemma yields_block (hr : r.All T) : Yields T N (Grammar.block expr) r := by
  refine yields_entering _ (yields_current ?_)
  exact yields_advance (hr.enter _) fun r hr =>
    (h.yields_statements hexpr endsBlock hr).map fun ss hss => h.block _ ss hss

/-! ### Lists -/

omit h in
lemma yields_list (close : Token.Kind) (hr : r.All T) :
    Yields T (ListHas N) (list expr close) r := by
  refine yields_entering _ (yields_next ?_)
  have hr := hr.enter .list
  split
  · refine yields_advance hr fun r hr => yields_pure hr ?_
    rintro ns ⟨⟩
    exact fun n hn => absurd hn List.not_mem_nil
  · refine yields_advance hr fun r hr => (hexpr lowest r hr).bind
      fun first r hr hfirst => ?_
    refine (yields_repeated (A := N) (fun r hr => yields_next ?_) hr).bind
      fun more r hr hmore => ?_
    · split
      · refine yields_advance hr fun r hr => yields_advance hr fun r hr => ?_
        exact (hexpr lowest r hr).map fun _ hn => hn
      · exact yields_pure hr trivial
    · refine yields_expecting hr nofun fun r hr => yields_pure hr ?_
      intro ns hns
      obtain ⟨rest, rfl, rfl⟩ := Option.map_eq_some_iff.mp hns
      exact List.forall_mem_cons.mpr ⟨hfirst, hmore rest rfl⟩

omit h hexpr in
lemma yields_parameters (hr : r.All T) :
    Yields T (ListHas (Parameter T)) parameters r := by
  refine yields_entering _ (yields_next ?_)
  have hr := hr.enter .parameters
  split
  · refine yields_advance hr fun r hr => yields_pure hr ?_
    rintro ns ⟨⟩
    exact fun n hn => absurd hn List.not_mem_nil
  · refine yields_expecting_kind hr nofun fun r hr hkind => yields_current ?_
    have hfirst : Parameter T (.ident r.current) :=
      ⟨_, rfl, hr.current, hkind⟩
    refine (yields_repeated (A := Parameter T)
      (fun r hr => yields_next ?_) hr).bind fun more r hr hmore => ?_
    · split
      · refine yields_advance hr fun r hr => ?_
        exact yields_expecting_kind hr trivial fun r hr hkind =>
          yields_current (yields_pure hr ⟨_, rfl, hr.current, hkind⟩)
      · exact yields_pure hr trivial
    · cases more with
      | none => exact yields_pure hr nofun
      | some ps =>
          refine yields_expecting hr nofun fun r hr => yields_pure hr ?_
          rintro ns ⟨⟩
          exact List.forall_mem_cons.mpr ⟨hfirst, hmore ps rfl⟩

/-! ### Expressions that start with a token of their own -/

lemma yields_conditional (hr : r.All T) :
    Yields T N (Grammar.conditional expr) r := by
  refine yields_entering _ (yields_current ?_)
  refine yields_expecting (hr.enter _) h.missing fun r hr => ?_
  refine yields_advance hr fun r hr => (hexpr lowest r hr).bind
    fun c r hr hc => ?_
  refine yields_expecting hr h.missing fun r hr => ?_
  refine yields_expecting hr h.missing fun r hr => ?_
  refine (h.yields_block hexpr hr).bind fun a r hr ha => yields_next ?_
  split
  · refine yields_advance hr fun r hr => ?_
    exact yields_expecting hr h.missing fun r hr =>
      (h.yields_block hexpr hr).map fun b hb => h.conditional _ c a b hc ha hb
  · exact yields_pure hr (h.conditional _ c a _ hc ha h.missing)

lemma yields_abstraction {make : Token → List Node → Node → Node}
    (hmake : ∀ t ps b, (∀ p ∈ ps, Parameter T p) → N b → N (make t ps b))
    (hr : r.All T) : Yields T N (abstraction expr make) r := by
  refine yields_current (yields_expecting hr h.missing fun r hr => ?_)
  refine (yields_parameters hr).bind fun ps? r hr hps => ?_
  cases ps? with
  | none => exact yields_pure hr h.missing
  | some ps =>
      exact yields_expecting hr h.missing fun r hr =>
        (h.yields_block hexpr hr).map fun b hb => hmake _ ps b (hps ps rfl) hb

lemma yields_hash (hr : r.All T) : Yields T N (Grammar.hash expr) r := by
  refine yields_entering _ (yields_current ?_)
  refine (yields_repeated (A := fun p => N p.1 ∧ N p.2)
    (fun r hr => yields_next ?_) (hr.enter _)).bind fun ps? r hr hps => ?_
  · split
    · exact yields_pure hr trivial
    · refine yields_advance hr fun r hr => (hexpr lowest r hr).bind
        fun k r hr hk => ?_
      refine yields_expecting hr trivial fun r hr => ?_
      refine yields_advance hr fun r hr => (hexpr lowest r hr).bind
        fun v r hr hv => yields_next ?_
      split
      · exact yields_pure hr ⟨hk, hv⟩
      · exact yields_expecting hr trivial fun r hr => yields_pure hr ⟨hk, hv⟩
  · cases ps? with
    | none => exact yields_pure hr h.missing
    | some ps =>
        exact yields_expecting hr h.missing fun r hr =>
          yields_pure hr (h.hash _ ps (hps ps rfl))

/-- Whatever rule an expression starts with. -/
lemma yields_startRule {rule : Parse Node} (hr : r.All T)
    (hrule : startRule? expr r.current.kind = some rule) :
    Yields T N rule r := by
  rw [startRule?.eq_def] at hrule
  split at hrule <;> cases hrule
  case h_1 =>
    exact yields_entering _ (yields_current (yields_pure (hr.enter _)
      (h.ident _)))
  case h_2 hkind => exact h.yields_integer hr hkind
  case h_3 =>
    exact yields_entering _ (yields_current (yields_pure (hr.enter _)
      (h.strLit _)))
  case h_8 =>
    refine yields_entering _ (yields_advance (hr.enter _) fun r hr => ?_)
    refine (hexpr lowest r hr).bind fun n r hr hn => ?_
    exact yields_expecting hr h.missing fun r hr => yields_pure hr hn
  case h_9 => exact h.yields_conditional hexpr hr
  case h_10 =>
    exact yields_entering _ (h.yields_abstraction hexpr h.function
      (hr.enter _))
  case h_11 =>
    exact yields_entering _ (h.yields_abstraction hexpr h.macroFn
      (hr.enter _))
  case h_12 =>
    refine yields_entering _ (yields_current ?_)
    refine (yields_list hexpr _ (hr.enter _)).bind fun es? r hr hes => ?_
    cases es? with
    | none => exact yields_pure hr h.missing
    | some es => exact yields_pure hr (h.array _ es (hes es rfl))
  case h_13 => exact h.yields_hash hexpr hr
  -- truth values, and operators before their operand
  all_goals
    first
    | exact yields_entering _ (yields_current (yields_pure (hr.enter _)
        (h.boolLit _ _)))
    | refine yields_entering _ (yields_current (yields_advance (hr.enter _)
        fun r hr => ?_))
      exact (hexpr tight r hr).map fun n hn => h.prefixOp _ n hn

/-! ### Expressions that go on with an expression -/

lemma yields_extend {left : Node} (hr : r.All T) (hleft : N left) :
    Yields T N (extend expr left) r := by
  refine yields_current ?_
  split
  · refine yields_entering _ (yields_current ?_)
    refine (yields_list hexpr _ (hr.enter _)).bind fun as? r hr has => ?_
    cases as? with
    | none => exact yields_pure hr h.missing
    | some as => exact yields_pure hr (h.call _ left as hleft (has as rfl))
  · refine yields_entering _ (yields_current ?_)
    refine yields_advance (hr.enter _) fun r hr => (hexpr lowest r hr).bind
      fun i r hr hi => ?_
    exact yields_expecting hr h.missing fun r hr =>
      yields_pure hr (h.index _ left i hleft hi)
  · refine yields_entering _ (yields_current ?_)
    exact yields_advance (hr.enter _) fun r hr =>
      (hexpr _ r hr).map fun n hn => h.infixOp _ left n hleft hn

lemma yields_extensions (level n : ℕ) {left : Node} (hr : r.All T)
    (hleft : N left) : Yields T N (extensions expr level n left) r := by
  induction n generalizing left r with
  | zero => exact yields_exhausted
  | succ n ih =>
      refine yields_next ?_
      split
      · refine yields_advance hr fun r hr => ?_
        exact (h.yields_extend hexpr hr hleft).bind fun m r hr hm => ih hr hm
      · exact yields_pure hr hleft

lemma yields_expressionWith (level : ℕ) (hr : r.All T) :
    Yields T N (expressionWith expr level) r := by
  refine yields_entering _ (yields_current ?_)
  have hr := hr.enter .expression
  split
  · rintro n r' ⟨⟩
    exact ⟨hr.report _ _, h.missing⟩
  · next rule hrule =>
    refine (h.yields_startRule hexpr hr hrule).bind fun left r hr hleft => ?_
    exact h.yields_extensions hexpr level _ hr hleft

end Builds

/-! ### Whole programs -/

namespace Builds

variable (h : Builds T N)

include h

lemma yields_expression (depth level : ℕ) (hr : r.All T) :
    Yields T N (expression depth level) r := by
  induction depth generalizing level r with
  | zero => exact yields_exhausted
  | succ depth ih =>
      exact h.yields_expressionWith (fun level r hr => ih level hr) level hr

/-- **What the parser gives.**  From tokens with `T` the parser gives a program
whose statements have `N`, whether it met faults or not. -/
theorem ofTokens (hmade : T (.made .eof "")) {ts : List Token}
    (hts : ∀ t ∈ ts, T t) (tracing : Bool) :
    ∃ ss, (Parser.ofTokens ts tracing).program = .program ss ∧
      ∀ n ∈ ss, N n := by
  have hr : (Reader.ofTokens ts tracing).All T := by
    refine ⟨fun t ht => hts t (List.takeWhile_subset _ ht), ?_⟩
    show T ((ts.find? Reader.isEnd).getD _)
    cases hfind : ts.find? Reader.isEnd with
    | none => exact hmade
    | some t => exact hts t (List.mem_of_find?_eq_some hfind)
  have hprogram : Yields T (fun n => ∃ ss, n = .program ss ∧ ∀ n ∈ ss, N n)
      Grammar.program (Reader.ofTokens ts tracing) := by
    refine yields_entering _ (yields_get ?_)
    refine (h.yields_statements (fun level r hr =>
      h.yields_expression _ level hr) endsProgram (hr.enter _)).map ?_
    exact fun ss hss => ⟨ss, rfl, hss⟩
  rw [Parser.ofTokens]
  split
  · next n r' hrun => exact (hprogram n r' hrun).2
  · exact ⟨[], rfl, fun n hn => absurd hn List.not_mem_nil⟩

end Builds

end Grammar

end MonkeyLang

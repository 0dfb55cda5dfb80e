/-
What a step of evaluation asks for.

* `Node.Comes f n s m s'`: changing `n` with the rule `f` from `s` comes to
  use the rule on `m` in the state `s'`;
* `Job`: what is asked for: the value of a node or the result of a call;
* `Asks rec j s i s'`: the step of `j` that starts in `s` comes to ask for `i`
  in the store `s'`;
* `Asks.step_error`: a fault of what is asked for is that of the step.
-/
import MonkeyLang.Proofs.Eval.Keeps
import MonkeyLang.Proofs.Eval.Steps

namespace MonkeyLang

/-! ### Changing trees -/

namespace Node

variable {σ ε : Type} {f : Node → ExceptT ε (StateT σ Option) Node}

/-- Changing a tree from a state comes to use the rule on a node in another
state: on a child of it, once those before it are changed, or on what the
changed children make of it. -/
inductive Comes (f : Node → ExceptT ε (StateT σ Option) Node) :
    Node → σ → Node → σ → Prop where
  | here {n : Node} {cs : List Node} {s s' : σ} (hn : n ≠ missing)
      (hcs : transformList f n.children s = some (.ok cs, s')) :
      Comes f n s (n.withChildren cs) s'
  | inside {n c m : Node} {pre post cs : List Node} {s s' s'' : σ}
      (hc : n.children = pre ++ c :: post)
      (hpre : transformList f pre s = some (.ok cs, s'))
      (hm : Comes f c s' m s'') : Comes f n s m s''

lemma transformList_append (ns ms : List Node) :
    transformList f (ns ++ ms) =
      transformList f ns >>= fun ns =>
        transformList f ms >>= fun ms => pure (ns ++ ms) := by
  induction ns with
  | nil => simp [transformList]
  | cons n ns ih => simp [transformList, ih]

/-- Several trees are changed as the first one is, and then the others. -/
lemma transformList_cons_inv {n : Node} {ns cs : List Node} {s s' : σ}
    (h : transformList f (n :: ns) s = some (.ok cs, s')) :
    ∃ c ds s₁, cs = c :: ds ∧ n.transformM f s = some (.ok c, s₁) ∧
      transformList f ns s₁ = some (.ok ds, s') := by
  obtain ⟨c, s₁, hc, hrest⟩ := bind_ok_inv h
  obtain ⟨ds, s₂, hds, hpure⟩ := bind_ok_inv hrest
  cases hpure
  exact ⟨c, ds, s₁, rfl, hc, hds⟩

/-- A tree is changed as its children are, and then by the rule. -/
lemma transformM_inv {n k : Node} (hn : n ≠ missing) {s s' : σ}
    (h : n.transformM f s = some (.ok k, s')) :
    ∃ cs s₁, transformList f n.children s = some (.ok cs, s₁) ∧
      f (n.withChildren cs) s₁ = some (.ok k, s') := by
  rw [transformM_eq f hn] at h
  exact bind_ok_inv h

/-- No tree is lost. -/
lemma length_of_transformList {ns cs : List Node} {s s' : σ}
    (h : transformList f ns s = some (.ok cs, s')) :
    cs.length = ns.length := by
  induction ns generalizing cs s with
  | nil =>
      cases h
      rfl
  | cons n ns ih =>
      obtain ⟨c, ds, s₁, rfl, -, hds⟩ := transformList_cons_inv h
      rw [List.length_cons, List.length_cons, ih hds]

/-- A failure of the rule is one of the whole change. -/
lemma Comes.transformM_error {n m : Node} {s s' s'' : σ} {g : ε}
    (h : Comes f n s m s') (hm : f m s' = some (.error g, s'')) :
    n.transformM f s = some (.error g, s'') := by
  induction h with
  | here hn hcs =>
      rw [transformM_eq f hn, bind_ok hcs]
      exact hm
  | @inside n c m pre post cs s s₁ s₂ hc hpre _ ih =>
      have hn : n ≠ missing := by
        rintro rfl
        cases pre <;> cases hc
      have hall : transformList f n.children s = some (.error g, s'') := calc
        transformList f n.children s
          = (transformList f (c :: post) >>= fun ms => pure (cs ++ ms)) s₁ := by
              rw [hc, transformList_append, bind_ok hpre]
        _ = some (.error g, s'') := bind_error (bind_error (ih hm))
      rw [transformM_eq f hn]
      exact bind_error hall

end Node

/-! ### Jobs -/

/-- What is asked for: the value of a node in a frame, or the result of
calling a value. -/
inductive Job where
  | eval (n : Node) (e : ℕ)
  | apply (f : Value) (args : List Value)

/-- The parts whose values a node needs, from left to right. -/
def Node.parts : Node → List Node
  | letStmt _ _ v | returnStmt _ v | exprStmt _ v => [v]
  | prefixOp _ r => [r]
  | infixOp _ l r => [l, r]
  | conditional _ c _ _ => [c]
  | array _ ns => ns
  | index _ l i => [l, i]
  | call _ callee args =>
    if SpecialForm.ofCallee? callee = none then callee :: args else []
  | _ => []

/-- The statements of a program or a block. -/
def Node.statements : Node → List Node
  | program ss | block _ ss => ss
  | _ => []

section

variable (rec : Node → ℕ → Run (Option Value))

/-- One step of a job, where `rec` evaluates nodes inside it. -/
def Job.step : Job → Run (Option Value)
  | eval n e => evalWith rec n e
  | apply f args => applyWith rec f args

/-- The answer to a job inside another one. -/
def Job.answer : Job → Run (Option Value)
  | eval n e => rec n e
  | apply f args => applyWith rec f args

/-- A step that starts in the first store comes to ask for something in the
second: for the value of a part once all parts before it have theirs, for the
key of an entry once the entries before it are there, for its value once the
key can be one, for a branch once it is known which, for a statement once
those before it ran without a return, for the argument of `unquote` where a
quote comes to it, for a call once the callee and the arguments have values,
and for the body of a function in the new frame. -/
inductive Asks : Job → Store → Job → Store → Prop where
  | part {n m : Node} {e : ℕ} {pre post : List Node} {vs : List Value}
      {s s' : Store} (hm : n.parts = pre ++ m :: post)
      (hpre : operands rec e pre s = some (.ok vs, s')) :
      Asks (.eval n e) s (.eval m e) s'
  | key {tok : Token} {e : ℕ} {ps qs : List (Node × Node)} {k v : Node}
      {t : Table} {s s' : Store}
      (hps : entries rec e .empty ps s = some (.ok t, s')) :
      Asks (.eval (.hash tok (ps ++ (k, v) :: qs)) e) s (.eval k e) s'
  | value {tok : Token} {e : ℕ} {ps qs : List (Node × Node)} {k v : Node}
      {t : Table} {key : Value} {h : HashKey} {s s' s'' : Store}
      (hps : entries rec e .empty ps s = some (.ok t, s'))
      (hk : operand rec e k s' = some (.ok key, s''))
      (hkey : key.hashKey = .ok h) :
      Asks (.eval (.hash tok (ps ++ (k, v) :: qs)) e) s (.eval v e) s''
  | consequence {t : Token} {c a b : Node} {e : ℕ} {v? : Option Value}
      {s s' : Store} (hc : rec c e s = some (.ok v?, s'))
      (hv : Value.holds v? = true) :
      Asks (.eval (.conditional t c a b) e) s (.eval a e) s'
  | alternative {t : Token} {c a b : Node} {e : ℕ} {v? : Option Value}
      {s s' : Store} (hc : rec c e s = some (.ok v?, s'))
      (hv : Value.holds v? = false) (hb : b.isMissing = false) :
      Asks (.eval (.conditional t c a b) e) s (.eval b e) s'
  | statement {n m : Node} {e : ℕ} {pre post : List Node}
      {last : Option Value} {s s' : Store}
      (hm : n.statements = pre ++ m :: post)
      (hpre : sequence rec e none pre s = some (.ok last, s'))
      (hlast : ∀ v, last ≠ some (.returned v)) :
      Asks (.eval n e) s (.eval m e) s'
  | unquote {t u : Token} {callee inner n arg : Node} {e : ℕ} {s s' : Store}
      (hcallee : SpecialForm.ofCallee? callee = some .quote)
      (hcomes : Node.Comes (replaceUnquote rec e) n s
        (.call u inner [arg]) s')
      (hinner : SpecialForm.ofCallee? inner = some .unquote) :
      Asks (.eval (.call t callee [n]) e) s (.eval arg e) s'
  | call {t : Token} {callee : Node} {args : List Node} {e : ℕ} {f : Value}
      {vs : List Value} {s s' s'' : Store}
      (hcallee : SpecialForm.ofCallee? callee = none)
      (hf : operand rec e callee s = some (.ok f, s'))
      (hvs : operands rec e args s' = some (.ok vs, s'')) :
      Asks (.eval (.call t callee args) e) s (.apply f vs) s''
  | body {c : Closure} {args : List Value} {e : ℕ} {s s' : Store}
      (hargs : args.length = c.params.length)
      (hframe : callFrame c args s = some (.ok e, s')) :
      Asks (.apply (.function c) args) s (.eval c.body e) s'

end

/-! ### First and second parts -/

namespace Asks

variable {rec : Node → ℕ → Run (Option Value)} {n l m : Node} {e : ℕ}
  {post : List Node} {s s' : Store}

/-- Every node asks for its first part. -/
lemma first (hm : n.parts = m :: post) :
    Asks rec (.eval n e) s (.eval m e) s := by
  have hsplit : n.parts = [] ++ m :: post := hm
  exact .part hsplit rfl

/-- Once that has a value, it asks for the second one. -/
lemma second {v : Value} (hm : n.parts = l :: m :: post)
    (hl : operand rec e l s = some (.ok v, s')) :
    Asks rec (.eval n e) s (.eval m e) s' := by
  have hsplit : n.parts = [l] ++ m :: post := hm
  exact .part hsplit (bind_ok hl)

/-- A program and a block ask for their first statement. -/
lemma firstStatement (hm : n.statements = m :: post) :
    Asks rec (.eval n e) s (.eval m e) s := by
  have hsplit : n.statements = [] ++ m :: post := hm
  exact .statement hsplit rfl nofun

end Asks

/-! ### Faults of parts -/

section

variable {rec : Node → ℕ → Run (Option Value)} {e : ℕ} {n : Node}
  {s s' s'' : Store} {f : Fault}

lemma operand_error (h : rec n e s = some (.error f, s')) :
    operand rec e n s = some (.error f, s') := bind_error h

/-- Only a fault of a part is one of its value. -/
lemma operand_inv (h : operand rec e n s = some (.error f, s')) :
    rec n e s = some (.error f, s') := by
  rcases bind_inv h with ⟨g, hg, hrec⟩ | ⟨v?, s₁, _, hpure⟩
  · cases hg
    exact hrec
  · cases hpure

lemma operands_append (ns ms : List Node) :
    operands rec e (ns ++ ms) =
      operands rec e ns >>= fun vs =>
        operands rec e ms >>= fun ws => pure (vs ++ ws) := by
  induction ns with
  | nil => simp [operands]
  | cons n ns ih => simp [operands, ih]

/-- Values of several parts fail as the first does, or as the others do
behind it. -/
lemma operands_cons_inv {ns : List Node}
    (h : operands rec e (n :: ns) s = some (.error f, s')) :
    operand rec e n s = some (.error f, s') ∨
    ∃ v s₁, operand rec e n s = some (.ok v, s₁) ∧
      operands rec e ns s₁ = some (.error f, s') := by
  rcases bind_inv h with ⟨g, hg, hn⟩ | ⟨v, s₁, hv, hrest⟩
  · cases hg
    exact Or.inl hn
  · refine Or.inr ⟨v, s₁, hv, ?_⟩
    rcases bind_inv hrest with ⟨g, hg, hns⟩ | ⟨vs, s₂, _, hpure⟩
    · cases hg
      exact hns
    · cases hpure

lemma operands_singleton_inv
    (h : operands rec e [n] s = some (.error f, s')) :
    operand rec e n s = some (.error f, s') := by
  rcases operands_cons_inv h with hn | ⟨v, s₁, _, hnil⟩
  · exact hn
  · cases hnil

/-- A fault of the parts that a node needs is one of the node. -/
lemma evalWith_parts_error
    (h : operands rec e n.parts s = some (.error f, s')) :
    evalWith rec n e s = some (.error f, s') := by
  cases n with
  | letStmt | returnStmt | prefixOp =>
      exact bind_error (operands_singleton_inv h)
  | exprStmt => exact operand_inv (operands_singleton_inv h)
  | conditional => exact bind_error (operand_inv (operands_singleton_inv h))
  | infixOp | index =>
      rcases operands_cons_inv h with hl | ⟨v, s₁, hv, hr⟩
      · exact bind_error hl
      · exact (bind_ok hv).trans (bind_error (operands_singleton_inv hr))
  | array => exact bind_error h
  | call t callee args =>
      show callWith rec e callee args s = _
      rw [Node.parts] at h
      split at h
      · next hcallee =>
        rw [callWith_plain rec e hcallee]
        rcases operands_cons_inv h with hf | ⟨v, s₁, hv, hargs⟩
        · exact bind_error hf
        · exact (bind_ok hv).trans (bind_error hargs)
      · cases h
  | _ => cases h

lemma entries_append (t : Table) (ps qs : List (Node × Node)) :
    entries rec e t (ps ++ qs) =
      entries rec e t ps >>= fun t => entries rec e t qs := by
  induction ps generalizing t with
  | nil => simp [entries]
  | cons p ps ih => simp [entries, ih]

/-- Statements that ran without a return give way to those behind them. -/
lemma sequence_append {pre post : List Node} {v? last : Option Value}
    (hv : ∀ v, v? ≠ some (.returned v))
    (h : sequence rec e v? pre s = some (.ok last, s'))
    (hlast : ∀ v, last ≠ some (.returned v)) :
    sequence rec e v? (pre ++ post) s = sequence rec e last post s' := by
  induction pre generalizing v? s with
  | nil =>
      cases h
      rfl
  | cons n ns ih =>
      obtain ⟨w?, s₁, hn, hrest⟩ := bind_ok_inv h
      rw [List.cons_append, sequence, bind_ok hn]
      split at hrest
      · cases hrest
        exact absurd rfl (hlast _)
      · next hw => exact ih hw hrest

end

/-! ### Faults of what is asked for -/

variable {rec : Node → ℕ → Run (Option Value)}

/-- **One step.**  A fault of what a step asks for is the fault of the step,
and the store stays as it is then. -/
theorem Asks.step_error {j i : Job} {s s' s'' : Store} {f : Fault}
    (h : Asks rec j s i s')
    (hi : i.answer rec s' = some (.error f, s'')) :
    j.step rec s = some (.error f, s'') := by
  -- one case for each way to come to a job: what is done before it goes well,
  -- and what the step does with the answer is not reached
  cases h with
  | @part n m e pre post vs _ _ hm hpre =>
      refine evalWith_parts_error ?_
      rw [hm, operands_append, bind_ok hpre]
      exact bind_error (bind_error (operand_error hi))
  | @key tok e ps qs k v t _ _ hps =>
      refine bind_error ?_
      calc entries rec e .empty (ps ++ (k, v) :: qs) s
          = entries rec e t ((k, v) :: qs) s' := by
              rw [entries_append, bind_ok hps]
        _ = some (.error f, s'') := bind_error (operand_error hi)
  | @value tok e ps qs k v t key h _ s₁ _ hps hk hkey =>
      have hok : Run.ofExcept key.hashKey s' = some (.ok h, s') := by
        rw [hkey]
        rfl
      refine bind_error ?_
      calc entries rec e .empty (ps ++ (k, v) :: qs) s
          = entries rec e t ((k, v) :: qs) s₁ := by
              rw [entries_append, bind_ok hps]
        _ = (operand rec e v >>= fun w =>
              entries rec e (t.set h (key, w)) qs) s' := by
              rw [entries, bind_ok hk, bind_ok hok]
        _ = some (.error f, s'') := bind_error (operand_error hi)
  | @consequence t c a b e v? _ _ hc hv =>
      refine (bind_ok hc).trans ?_
      rw [if_pos hv]
      exact hi
  | @alternative t c a b e v? _ _ hc hv hb =>
      refine (bind_ok hc).trans ?_
      rw [if_neg (by simp [hv]), if_neg (by simp [hb])]
      exact hi
  | @statement n m e pre post last _ _ hm hpre hlast =>
      have hnone : ∀ v, (none : Option Value) ≠ some (.returned v) := nofun
      have hrest : sequence rec e none n.statements s =
          some (.error f, s'') := calc
        sequence rec e none n.statements s
          = sequence rec e none (pre ++ m :: post) s := by rw [hm]
        _ = sequence rec e last (m :: post) s' :=
              sequence_append hnone hpre hlast
        _ = some (.error f, s'') := bind_error hi
      cases n with
      | program ss => exact bind_error hrest
      | block t ss => exact hrest
      | _ => cases hrest
  -- below a `quote` the fault is that of the rule, which is applied in the
  -- middle of the tree
  | @unquote t u callee inner n arg e _ _ hcallee hcomes hinner =>
      have hrule : replaceUnquote rec e (.call u inner [arg]) s' =
          some (.error f, s'') := by
        rw [replaceUnquote, if_pos hinner]
        exact bind_error hi
      show callWith rec e callee [n] s = _
      rw [callWith_quote rec e hcallee]
      exact bind_error (hcomes.transformM_error hrule)
  -- a call and the body behind it are asked for at the end of the step
  | @call t callee args e f vs _ s₁ _ hcallee hf hvs =>
      show callWith rec e callee args s = _
      rw [callWith_plain rec e hcallee, bind_ok hf, bind_ok hvs]
      exact hi
  | @body c args e _ _ hargs hframe =>
      show applyWith rec (.function c) args s = _
      rw [applyWith, if_pos hargs, bind_ok hframe]
      exact bind_error hi

end MonkeyLang

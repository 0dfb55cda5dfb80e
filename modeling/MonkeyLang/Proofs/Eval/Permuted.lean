/-
Names do not count.

* `Comes.relabel`, `Asks.relabel`: where a change of a tree comes to use its
  rule, and a step to ask for something, the relabelled one comes to use it on
  the relabelled tree, and to ask for the relabelled job;
* `Moment.Calls.relabel`: so it is with all that lies inside a job;
* `eval_relabelled`: evaluating a relabelled tree in a relabelled store gives
  the relabelled result, and plain data as it is.
-/
import MonkeyLang.Proofs.Eval.FirstError
import MonkeyLang.Proofs.Eval.Relabel
import MonkeyLang.Proofs.Parser.Yields
import Mathlib.Logic.Equiv.Basic

namespace MonkeyLang

open Relation (ReflTransGen)

variable {π : Equiv.Perm String} {p q : Array String}

/-! ### Changing trees -/

/-- Where the change of a tree comes to use the rule, the change of the
relabelled tree comes to use it on the relabelled node. -/
lemma Node.Comes.relabel {T : Node → Prop} {K : Node → Node → Prop}
    {f : Node → Run Node} (hK : Rebuilds T K)
    (hf : ∀ m, T m → Run.Relabelled π p q (Node.relabel π)
      (fun k => T k ∧ K m k) (f m) (f (m.relabel π))) {n m : Node}
    {s s' t : Store} (h : Comes f n s m s') (hn : T n)
    (hs : s.Relabelled π p q t) :
    ∃ t', Comes f (n.relabel π) t (m.relabel π) t' ∧
      s'.Relabelled π p q t' ∧ T m := by
  have hlist : ∀ ns : List Node, (∀ n ∈ ns, T n) →
      Run.Relabelled π p q (List.map (Node.relabel π))
        (List.Forall₂ (fun n k => T k ∧ K n k) ns) (transformList f ns)
        (transformList f (ns.map (Node.relabel π))) := fun ns hns =>
    relabelled_transformList fun n hn => relabelled_transformM hK hf (hns n hn)
  -- the children before the place are changed alike, and what they become is
  -- what they were, relabelled
  induction h generalizing t with
  | @here n cs s s' hmissing hcs =>
      obtain ⟨t', hcs', hs', hkept⟩ :=
        (hlist _ (hK.children n hn)).ok_inv hs hcs
      refine ⟨t', ?_, hs', (hK.rebuild n cs hn hkept).1⟩
      rw [relabel_withChildren]
      rw [← children_relabel] at hcs'
      exact .here (relabel_ne_missing π hmissing) hcs'
  | @inside n c m pre post cs s s₁ s₂ hc hpre _ ih =>
      have hchildren := hK.children n hn
      rw [hc] at hchildren
      obtain ⟨t₁, hpre', hs₁, -⟩ := (hlist pre fun m hm =>
        hchildren m (List.mem_append_left _ hm)).ok_inv hs hpre
      obtain ⟨t₂, hm, hs₂, hT⟩ := ih
        (hchildren c (List.mem_append_right _ List.mem_cons_self)) hs₁
      have hc' : (n.relabel π).children = pre.map (Node.relabel π) ++
          c.relabel π :: post.map (Node.relabel π) := by
        rw [children_relabel, hc, List.map_append, List.map_cons]
      exact ⟨t₂, .inside hc' hpre' hm, hs₂, hT⟩

/-! ### Steps -/

/-- The job with other names. -/
def Job.relabel (π : Equiv.Perm String) : Job → Job
  | .eval n e => .eval (n.relabel π) e
  | .apply f args => .apply (f.relabel π) (args.map (Value.relabel π))

/-- All trees that a job is about have identifiers for parameters. -/
def Job.Named : Job → Prop
  | .eval n _ => n.Named
  | .apply f args => f.Named ∧ ∀ a ∈ args, a.Named

lemma Node.parts_relabel (hπ : Spares π) (n : Node) :
    (n.relabel π).parts = n.parts.map (relabel π) := by
  cases n with
  | array t ns => exact relabelList_eq_map π ns
  | call t c ns =>
      rw [relabel, parts, parts, SpecialForm.ofCallee?_relabel hπ]
      split
      · rw [relabelList_eq_map, List.map_cons]
      · rfl
  | _ => rfl

lemma Node.statements_relabel (n : Node) :
    (n.relabel π).statements = n.statements.map (relabel π) := by
  cases n with
  | program ss | block t ss => exact relabelList_eq_map π ss
  | _ => rfl

/-- **One step.**  Where a step comes to ask for something, the relabelled step
comes to ask for the relabelled job, in a relabelled store. -/
theorem Asks.relabel (hπ : Spares π) {rec : Node → ℕ → Run (Option Value)}
    (h : Relabels π p q rec) {j i : Job} {s s' t : Store}
    (hi : Asks rec j s i s') (hj : j.Named) (hs : s.Relabelled π p q t) :
    ∃ t', Asks rec (j.relabel π) t (i.relabel π) t' ∧
      s'.Relabelled π p q t' ∧ i.Named := by
  have hchildren : ∀ {n : Node}, n.Named → ∀ m ∈ n.children, m.Named :=
    fun hn _ hm => hn.child hm
  -- one case for each way to come to a job; what is done before it has no
  -- fault, so it goes alike in the relabelled store, which is that in which the
  -- relabelled job is asked for
  cases hi with
  | @part n m e pre post vs _ _ hm hpre =>
      have hnamed : ∀ c ∈ pre ++ m :: post, c.Named := fun c hc =>
        hchildren hj c (Node.mem_children_of_parts (hm ▸ hc))
      obtain ⟨t', hpre', hs', -⟩ := (h.operands fun c hc =>
        hnamed c (List.mem_append_left _ hc)).ok_inv hs hpre
      have hm' : (n.relabel π).parts = pre.map (Node.relabel π) ++
          m.relabel π :: post.map (Node.relabel π) := by
        rw [Node.parts_relabel hπ, hm, List.map_append, List.map_cons]
      exact ⟨t', .part hm' hpre', hs', hnamed m (by simp)⟩
  | @key tok e ps qs k v u _ _ hps =>
      have hk : k.Named :=
        (Node.Named.entry hj (List.mem_append_right ps List.mem_cons_self)).1
      obtain ⟨t', hps', hs', -⟩ := (h.entries
        (fun _ hp => Node.Named.entry hj (List.mem_append_left _ hp))
        Value.closed_named.emptyHash).ok_inv hs hps
      refine ⟨t', ?_, hs', hk⟩
      rw [Job.relabel, Node.relabel, Node.relabelPairs_eq_map, List.map_append]
      exact .key hps'
  | @value tok e ps qs k v u key j _ s₁ _ hps hrun hkey =>
      obtain ⟨hk, hv⟩ : k.Named ∧ v.Named :=
        Node.Named.entry hj (List.mem_append_right ps List.mem_cons_self)
      obtain ⟨t₁, hps', hs₁, -⟩ := (h.entries
        (fun _ hp => Node.Named.entry hj (List.mem_append_left _ hp))
        Value.closed_named.emptyHash).ok_inv hs hps
      obtain ⟨t', hrun', hs', -⟩ := (h.operand hk).ok_inv hs₁ hrun
      refine ⟨t', ?_, hs', hv⟩
      rw [Job.relabel, Node.relabel, Node.relabelPairs_eq_map, List.map_append]
      exact .value hps' hrun' ((Value.hashKey_relabel π key).trans hkey)
  | @consequence tok c a b e v? _ _ hc hv =>
      obtain ⟨hcond, hbranches⟩ := List.forall_mem_cons.mp (hchildren hj)
      obtain ⟨t', hc', hs', -⟩ := (h c e hcond).ok_inv hs hc
      refine ⟨t', .consequence hc' ?_, hs', hbranches a List.mem_cons_self⟩
      rw [Value.holds_relabel, hv]
  | @alternative tok c a b e v? _ _ hc hv hb =>
      obtain ⟨hcond, hbranches⟩ := List.forall_mem_cons.mp (hchildren hj)
      obtain ⟨t', hc', hs', -⟩ := (h c e hcond).ok_inv hs hc
      refine ⟨t', .alternative hc' ?_ ?_, hs', hbranches b
        (List.mem_cons_of_mem a List.mem_cons_self)⟩
      · rw [Value.holds_relabel, hv]
      · rw [Node.isMissing_relabel, hb]
  | @statement n m e pre post last _ _ hm hpre hlast =>
      have hnamed : ∀ c ∈ pre ++ m :: post, c.Named := fun c hc =>
        hchildren hj c (Node.mem_children_of_tailParts
          (Node.mem_tailParts_of_statements (hm ▸ hc)))
      obtain ⟨t', hpre', hs', -⟩ := (h.sequence
        (fun c hc => hnamed c (List.mem_append_left _ hc))
        (Value.ifAny_none _)).ok_inv hs hpre
      have hm' : (n.relabel π).statements = pre.map (Node.relabel π) ++
          m.relabel π :: post.map (Node.relabel π) := by
        rw [Node.statements_relabel, hm, List.map_append, List.map_cons]
      refine ⟨t', .statement hm' hpre' ?_, hs', hnamed m (by simp)⟩
      rintro v hv
      -- relabelling makes no mark of what is none
      rcases last with _ | w
      · cases hv
      · cases w with
        | returned w => exact hlast w rfl
        | _ => cases hv
  | @unquote tok u callee inner n arg e _ _ hcallee hcomes hinner =>
      have hn : n.Named :=
        hchildren hj n (List.mem_cons_of_mem callee List.mem_cons_self)
      obtain ⟨t', hcomes', hs', hcall⟩ := hcomes.relabel Node.rebuilds_named
        (fun _ hm => h.replaceUnquote hπ hm) hn hs
      refine ⟨t', ?_, hs', hchildren hcall arg
        (List.mem_cons_of_mem inner List.mem_cons_self)⟩
      refine .unquote (n := n.relabel π) ?_ hcomes' ?_
      · rw [SpecialForm.ofCallee?_relabel hπ, hcallee]
      · rw [SpecialForm.ofCallee?_relabel hπ, hinner]
  | @call tok callee args e f vs _ s₁ _ hcallee hf hvs =>
      obtain ⟨hc, hargs⟩ := List.forall_mem_cons.mp (hchildren hj)
      obtain ⟨t₁, hf', hs₁, hnamed⟩ := (h.operand hc).ok_inv hs hf
      obtain ⟨t', hvs', hs', hvalues⟩ := (h.operands hargs).ok_inv hs₁ hvs
      refine ⟨t', ?_, hs', hnamed, hvalues⟩
      rw [Job.relabel, Node.relabel, Node.relabelList_eq_map]
      exact .call (by rw [SpecialForm.ofCallee?_relabel hπ, hcallee]) hf' hvs'
  | @body c args e _ _ hargs hframe =>
      obtain ⟨hc, hvalues⟩ := hj
      obtain ⟨t', hframe', hs', -⟩ :=
        (relabelled_callFrame hc.function hvalues).ok_inv hs hframe
      refine ⟨t', .body ?_ hframe', hs', hc.function.body⟩
      rw [Closure.relabel, List.length_map, List.length_map, hargs]

/-! ### Whole evaluations -/

/-- All that is asked for inside a job is asked for, relabelled, inside the
relabelled job. -/
theorem Moment.Calls.relabel (hπ : Spares π) {m k : Moment} {t : Store}
    (hk : ReflTransGen Moment.Calls m k) (hm : m.job.Named)
    (hs : m.store.Relabelled π p q t) :
    ∃ t', ReflTransGen Moment.Calls ⟨m.depth, m.job.relabel π, t⟩
        ⟨k.depth, k.job.relabel π, t'⟩ ∧
      k.store.Relabelled π p q t' ∧ k.job.Named := by
  induction hk with
  | refl => exact ⟨t, .refl, hs, hm⟩
  | tail _ hstep ih =>
      obtain ⟨t₁, hcalls, hs₁, hjob⟩ := ih
      cases hstep with
      | ofEval hi =>
          obtain ⟨t', hi', hs', hnamed⟩ :=
            hi.relabel hπ (relabels_eval hπ p q _) hjob hs₁
          exact ⟨t', hcalls.tail (.ofEval hi'), hs', hnamed⟩
      | ofApply hi =>
          obtain ⟨t', hi', hs', hnamed⟩ :=
            hi.relabel hπ (relabels_eval hπ p q _) hjob hs₁
          exact ⟨t', hcalls.tail (.ofApply hi'), hs', hnamed⟩

lemma Job.relabel_relabel_symm (j : Job) :
    (j.relabel π).relabel π.symm = j := by
  cases j with
  | eval n e => rw [relabel, relabel, Node.relabel_relabel_symm]
  | apply f args =>
      have hargs : (args.map (Value.relabel π)).map (Value.relabel π.symm) =
          args := by
        rw [List.map_map]
        exact (List.map_congr_left fun a _ =>
          Value.relabel_relabel_symm π a).trans (List.map_id args)
      rw [relabel, relabel, hargs, Value.relabel_relabel_symm]

/-- How an evaluation ends, with other names. -/
def relabelOutcome (π : Equiv.Perm String) :
    Except Fault (Option Value) → Except Fault (Option Value)
  | .ok v? => .ok (v?.map (Value.relabel π))
  | .error f => .error (f.relabel π)

/-- A store has its own frames, relabelled, when it is relabelled itself. -/
lemma Store.relabelled_relabel {s : Store} (hs : s.Bound Value.Named) :
    s.Relabelled π s.printed s.printed (s.relabel π) where
  frames := rfl
  closures := rfl
  named := hs
  printed := ⟨[], by simp, by simp [Store.relabel]⟩

/-- **Names do not count.**  Let `π` be a permutation of names that keeps the
names of the functions of the language, `quote` and `unquote`.  Under the new
names a tree, in whose functions and macros and in those of the store parameters
are identifiers, has the relabelled value or fault, or is nested too deep as
before; the frames are relabelled then, and the relabelled values are printed.
If the value is plain data it is the same.  All that is asked for on the way is
asked for relabelled, and nothing else is, so that the calls of `puts` are those
with the relabelled arguments. -/
theorem eval_relabelled (hπ : Spares π) {n : Node} (hn : n.Named) {s : Store}
    (hs : s.Bound Value.Named) (depth e : ℕ) :
    Option.Rel (fun x y => y.1 = relabelOutcome π x.1 ∧
        x.2.Relabelled π s.printed s.printed y.2)
      (eval depth n e s) (eval depth (n.relabel π) e (s.relabel π)) ∧
    (∀ v s', eval depth n e s = some (.ok (some v), s') → v.Plain →
      ∃ t', eval depth (n.relabel π) e (s.relabel π) =
        some (.ok (some v), t')) ∧
    (∀ m, ReflTransGen Moment.Calls ⟨depth, .eval n e, s⟩ m →
      ∃ t, ReflTransGen Moment.Calls
          ⟨depth, .eval (n.relabel π) e, s.relabel π⟩
          ⟨m.depth, m.job.relabel π, t⟩ ∧
        m.store.Relabelled π s.printed s.printed t) ∧
    ∀ k, ReflTransGen Moment.Calls
        ⟨depth, .eval (n.relabel π) e, s.relabel π⟩ k →
      ∃ m, ReflTransGen Moment.Calls ⟨depth, .eval n e, s⟩ m ∧
        k.depth = m.depth ∧ k.job = m.job.relabel π ∧
        m.store.Relabelled π s.printed s.printed k.store := by
  have hstart : s.Relabelled π s.printed s.printed (s.relabel π) :=
    Store.relabelled_relabel hs
  have hends := relabels_eval hπ s.printed s.printed depth n e hn
  -- the first three parts hold of the run and of what it comes to; the last one
  -- is the third for the inverse permutation
  refine ⟨rel_imp (hends s _ hstart) ?_, fun v s' hv hplain => ?_,
    fun m hm => ?_, fun k hk => ?_⟩
  · rintro ⟨out, s'⟩ ⟨out', t'⟩ ⟨_, _, hs', hout⟩
    cases hout with
    | ok h => exact ⟨congrArg Except.ok h.1, hs'⟩
    | error h => exact ⟨congrArg Except.error h, hs'⟩
  · obtain ⟨t', hrun, -, -⟩ := hends.ok_inv hstart hv
    refine ⟨t', hrun.trans ?_⟩
    rw [Option.map_some, Value.relabel_of_plain π hplain]
  · obtain ⟨t, hcalls, hs', -⟩ := Moment.Calls.relabel hπ hm hn hstart
    exact ⟨t, hcalls, hs'⟩
  · obtain ⟨t, hcalls, hs', -⟩ :=
      Moment.Calls.relabel hπ.symm hk (hn.relabel π) hstart.symm
    have hjob : (Job.eval (n.relabel π) e).relabel π.symm = .eval n e := by
      rw [Job.relabel, Node.relabel_relabel_symm]
    rw [hjob] at hcalls
    exact ⟨_, hcalls, rfl, (Job.relabel_relabel_symm k.job).symm, hs'.symm⟩

/-- The program `let f = fn(x) { y }; puts(f); f(2)`. -/
def callsFree : Node :=
  .program
    [.letStmt (.made .letKey "let") (.made .ident "f")
      (.function (.made .function "fn") [.ofName "x"]
        (.block (.made .lbrace "\x7b")
          [.exprStmt (.made .ident "y") (.ofName "y")])),
     .exprStmt (.made .ident "puts")
      (.call (.made .lparen "(") (.ofName "puts") [.ofName "f"]),
     .exprStmt (.made .ident "f")
      (.call (.made .lparen "(") (.ofName "f") [.ofInt 2])]

/-- Where `x` and `y` change places the program prints the function with them
in each other's place and misses the other one. -/
theorem eval_relabelled_swap : ∃ s t,
    eval 6 callsFree 0 Store.empty.addRoot.2 =
      some (.error (.identifierNotFound "y"), s) ∧
    s.printed = #["fn(x) \x7b\ny\n\x7d"] ∧
    eval 6 (callsFree.relabel (Equiv.swap "x" "y")) 0
        (Store.empty.addRoot.2.relabel (Equiv.swap "x" "y")) =
      some (.error (.identifierNotFound "x"), t) ∧
    t.printed = #["fn(y) \x7b\nx\n\x7d"] ∧
    t.frames = s.frames.map (Frame.relabel (Equiv.swap "x" "y")) := by
  have hspares : Spares (Equiv.swap "x" "y") := by
    refine ⟨fun b => ?_, by decide, by decide⟩
    cases b <;> decide
  have hbuilds := Node.builds_named fun _ => True
  have hcall : ∀ (t u v : Token) (n : Node), n.Named →
      (Node.exprStmt t (.call u (.ident v) [n])).Named := fun t u v n hn =>
    hbuilds.exprStmt _ _ (hbuilds.call _ _ _ (hbuilds.ident v)
      (List.forall_mem_singleton.mpr hn))
  have hfunction := hbuilds.function (.made .function "fn") [.ofName "x"]
    (.block (.made .lbrace "\x7b") [.exprStmt (.made .ident "y") (.ofName "y")])
    (List.forall_mem_singleton.mpr ⟨_, rfl, trivial, rfl⟩)
    (hbuilds.block _ _ (List.forall_mem_singleton.mpr
      (hbuilds.exprStmt _ _ (hbuilds.ident _))))
  have hnamed : callsFree.Named := Node.named_of_children rfl
    (List.forall_mem_cons.mpr ⟨hbuilds.letStmt _ _ _ trivial rfl hfunction,
      List.forall_mem_cons.mpr ⟨hcall _ _ _ _ (hbuilds.ident _),
        List.forall_mem_singleton.mpr (hcall _ _ _ _
          (Node.named_of_children rfl nofun))⟩⟩)
  have hstore : Store.Bound Value.Named Store.empty.addRoot.2 :=
    Store.Bound.empty.addFrame nofun none
  obtain ⟨s, hrun, hprinted⟩ : ∃ s, eval 6 callsFree 0 Store.empty.addRoot.2 =
      some (.error (.identifierNotFound "y"), s) ∧
      s.printed = #["fn(x) \x7b\ny\n\x7d"] := ⟨_, rfl, by decide⟩
  have hempty : Store.empty.addRoot.2.relabel (Equiv.swap "x" "y") =
      Store.empty.addRoot.2 := by
    simp [Store.relabel, Store.addRoot, Store.addFrame, Store.empty,
      Frame.relabel]
  obtain ⟨t, hrun', hprinted'⟩ : ∃ t,
      eval 6 (callsFree.relabel (Equiv.swap "x" "y")) 0
        Store.empty.addRoot.2 = some (.error (.identifierNotFound "x"), t) ∧
      t.printed = #["fn(y) \x7b\nx\n\x7d"] := ⟨_, rfl, by decide⟩
  obtain ⟨hends, -⟩ := eval_relabelled hspares hnamed hstore 6 0
  rw [hempty] at hends ⊢
  rw [hrun, hrun'] at hends
  cases hends with
  | some hends =>
      exact ⟨s, t, hrun, hprinted, hrun', hprinted', hends.2.frames⟩

end MonkeyLang

/-
Evaluation under other names.

* `Run.Relabelled π p q f P r r'`: from relabelled stores two runs end in
  relabelled stores, the answer of the second one being `f` of that of the first
  one, which has `P`, or with a fault that names the identifier that stands in
  the place of the other one; `Relabelled.bind` and the lemmas around it;
* `Relabels π p q rec`: a way of evaluation that does so on relabelled trees;
* `Relabels.evalWith`: one step of evaluation does so if the evaluation of the
  parts does, with a lemma for each kind of part before;
* `relabels_eval`: evaluation does so.
-/
import MonkeyLang.Proofs.Eval.Parallel
import MonkeyLang.Proofs.Eval.Steps
import MonkeyLang.Proofs.Store.Relabel
import Mathlib.Order.CompleteBooleanAlgebra
import Mathlib.Order.CompletePartialOrder

namespace MonkeyLang

variable {π : Equiv.Perm String} {p q : Array String} {α β γ δ : Type}

/-! ### Runs -/

namespace Run

/-- From relabelled stores two runs end in relabelled stores, with an answer and
its image or with a fault and the relabelled one; or neither has an answer. -/
abbrev Relabelled (π : Equiv.Perm String) (p q : Array String) (f : α → β)
    (P : α → Prop) (r : Run α) (r' : Run β) : Prop :=
  Parallel (W := Unit) (fun _ => Store.Relabelled π p q)
    (fun g g' => g' = g.relabel π) (fun _ a b => b = f a ∧ P a) () r r'

/-- The same for runs that may answer with a value. -/
abbrev Relabelled? (π : Equiv.Perm String) (p q : Array String)
    (r r' : Run (Option Value)) : Prop :=
  Relabelled π p q (Option.map (Value.relabel π)) (Value.IfAny Value.Named) r r'

namespace Relabelled

variable {f : α → β} {g : γ → δ} {P : α → Prop} {Q : γ → Prop} {r : Run α}
  {r' : Run β}

lemma pure {a : α} {b : β} (hb : b = f a) (ha : P a) :
    Relabelled π p q f P (Pure.pure a) (Pure.pure b) :=
  Parallel.pure ⟨hb, ha⟩

lemma throw {c d : Fault} (hd : d = c.relabel π) :
    Relabelled π p q f P (MonadExcept.throw c) (MonadExcept.throw d) :=
  Parallel.throw hd

lemma bind {k : α → Run γ} {k' : β → Run δ} (h : Relabelled π p q f P r r')
    (hk : ∀ a, P a → Relabelled π p q g Q (k a) (k' (f a))) :
    Relabelled π p q g Q (r >>= k) (r' >>= k') := by
  refine Parallel.bind h fun _ _ a b hab => ?_
  obtain ⟨rfl, ha⟩ := hab
  exact hk a ha

/-- Making something in the stores. -/
lemma modifyGet {c : Store → α × Store} {d : Store → β × Store}
    (h : ∀ s t, s.Relabelled π p q t →
      (c s).2.Relabelled π p q (d t).2 ∧ (d t).1 = f (c s).1 ∧ P (c s).1) :
    Relabelled π p q f P (MonadStateOf.modifyGet c)
      (MonadStateOf.modifyGet d) :=
  Parallel.modifyGet fun s t hs => ⟨(), le_refl _, h s t hs⟩

lemma mono {Q : α → Prop} (h : Relabelled π p q f P r r')
    (hPQ : ∀ a, P a → Q a) : Relabelled π p q f Q r r' := by
  have hmap : Relabelled π p q f Q (r >>= Pure.pure) (r' >>= Pure.pure) :=
    h.bind fun a ha => pure rfl (hPQ a ha)
  rwa [bind_pure, bind_pure] at hmap

/-- Where the first run ends with an answer the second one does, with its
image. -/
lemma ok_inv (h : Relabelled π p q f P r r') {s s' t : Store} {a : α}
    (hs : s.Relabelled π p q t) (hrun : r s = some (.ok a, s')) :
    ∃ t', r' t = some (.ok (f a), t') ∧ s'.Relabelled π p q t' ∧ P a := by
  obtain ⟨b, t', -, hrun', -, hs', rfl, ha⟩ := Parallel.ok_inv h hs hrun
  exact ⟨t', hrun', hs', ha⟩

end Relabelled

/-! ### Results -/

lemma relabelled_some {v w : Value} (hw : w = v.relabel π) (hv : v.Named) :
    Relabelled? π p q (Pure.pure (some v)) (Pure.pure (some w)) :=
  .pure (congrArg some hw) (Value.ifAny_some hv)

lemma relabelled_settle {r : Except Fault Value}
    (hr : ∀ v, r = .ok v → v.Named) :
    Relabelled? π p q (settle r) (settle (relabelResult π r)) := by
  cases r with
  | error f => exact .throw rfl
  | ok v =>
      have hv := hr v rfl
      cases v with
      | error f => exact .throw rfl
      | _ => exact relabelled_some rfl hv

lemma relabelled_deliver {v? : Option Value}
    (hv : Value.IfAny Value.Named v?) :
    Relabelled? π p q (deliver v?) (deliver (v?.map (Value.relabel π))) := by
  have hunwrap : Value.IfAny Value.Named (Value.unwrap v?) := by
    rcases v? with _ | v
    · exact hv
    · cases v with
      | returned v =>
          exact Value.ifAny_some (Value.closed_named.unmarked v (hv _ rfl))
      | _ => exact hv
  rw [deliver, deliver, Value.unwrap_relabel]
  generalize Value.unwrap v? = x at hunwrap
  cases x with
  | none => exact .pure rfl (Value.ifAny_none _)
  | some v =>
      refine relabelled_settle (r := .ok v) ?_
      rintro w ⟨rfl⟩
      exact hunwrap v rfl

end Run

/-! ### Calls -/

/-- Functions of the language are given and print the same values. -/
lemma Builtin.relabelled_call (b : Builtin) {args : List Value}
    (hargs : ∀ a ∈ args, a.Named) :
    Run.Relabelled? π p q (b.call args)
      (b.call (args.map (Value.relabel π))) := by
  have hprints : ∀ (vs : List Value) (s t : Store), s.Relabelled π p q t →
      ((vs.map Value.text).foldl (fun s text => s.print text) s).Relabelled
        π p q (((vs.map (Value.relabel π)).map Value.text).foldl
          (fun s text => s.print text) t) := by
    intro vs
    induction vs with
    | nil => exact fun s t h => h
    | cons v vs ih => exact fun s t h => ih _ _ (h.print v)
  have hchange : Run.Relabelled π p q id (fun _ => True)
      (Run.change fun s => (b.prints args).foldl (fun s text => s.print text) s)
      (Run.change fun s => (b.prints (args.map (Value.relabel π))).foldl
        (fun s text => s.print text) s) := by
    refine .modifyGet fun s t hs => ⟨?_, rfl, trivial⟩
    cases b with
    | puts => exact hprints args s t hs
    | _ => exact hs
  refine hchange.bind fun _ _ => ?_
  rw [Builtin.result_relabel]
  refine Run.relabelled_settle fun v hv => ?_
  exact Value.closed_named.formed.result (fun _ _ => Value.named_integer _)
    (fun _ _ => Value.named_integer _) hargs hv

/-- The frame of a call has the same number. -/
lemma relabelled_callFrame {c : Closure} (hc : c.Named) {args : List Value}
    (hargs : ∀ a ∈ args, a.Named) :
    Run.Relabelled π p q id (fun _ => True) (callFrame c args)
      (callFrame (c.relabel π) (args.map (Value.relabel π))) :=
  .modifyGet fun _ _ hs => ⟨hs.enter hc hargs, hs.size_eq, trivial⟩

/-- Functions made of a tree and of the relabelled one. -/
lemma relabelled_makeClosure {ps : List Node} {b : Node}
    (hps : ∀ p ∈ ps, p.kind = .ident) (hb : b.Named) (e : ℕ) :
    Run.Relabelled π p q (Closure.relabel π) Closure.Named
      (Run.make (Store.makeClosure ps b e))
      (Run.make (Store.makeClosure (ps.map (Node.relabel π)) (b.relabel π)
        e)) :=
  .modifyGet fun _ _ hs =>
    ⟨hs.close ps b e, hs.makeClosure_eq ps b e, ⟨hps, hb⟩⟩

/-! ### Changes of trees -/

section

variable {T : Node → Prop} {K : Node → Node → Prop} {f : Node → Run Node}

/-- Changes of several trees, one after the other. -/
lemma relabelled_transformList {ns : List Node}
    (h : ∀ n ∈ ns, Run.Relabelled π p q (Node.relabel π)
      (fun k => T k ∧ K n k) (n.transformM f) ((n.relabel π).transformM f)) :
    Run.Relabelled π p q (List.map (Node.relabel π))
      (List.Forall₂ (fun n k => T k ∧ K n k) ns) (Node.transformList f ns)
      (Node.transformList f (ns.map (Node.relabel π))) := by
  induction ns with
  | nil => exact .pure rfl .nil
  | cons n ns ih =>
      obtain ⟨hn, hns⟩ := List.forall_mem_cons.mp h
      exact hn.bind fun k hk => (ih hns).bind fun ks hks =>
        .pure rfl (.cons hk hks)

/-- **Changes of trees.**  A rule that does alike on relabelled trees changes
them alike. -/
theorem relabelled_transformM (hK : Node.Rebuilds T K)
    (hf : ∀ m, T m → Run.Relabelled π p q (Node.relabel π)
      (fun k => T k ∧ K m k) (f m) (f (m.relabel π))) {n : Node} (hn : T n) :
    Run.Relabelled π p q (Node.relabel π) (fun k => T k ∧ K n k)
      (n.transformM f) ((n.relabel π).transformM f) := by
  induction n using Node.children_induct with
  | step n ih =>
      by_cases hmissing : n = .missing
      · subst hmissing
        exact .pure rfl ⟨hn, hK.refl _⟩
      · rw [Node.transformM_eq f hmissing,
          Node.transformM_eq f (Node.relabel_ne_missing π hmissing),
          Node.children_relabel]
        refine (relabelled_transformList fun c hc =>
          ih c hc (hK.children n hn c hc)).bind fun cs hcs => ?_
        obtain ⟨hT, hkept⟩ := hK.rebuild n cs hn hcs
        rw [← Node.relabel_withChildren]
        exact (hf _ hT).mono fun k hk => ⟨hk.1, hK.trans hkept hk.2⟩

end

/-! ### Parts -/

/-- Relabelled trees are evaluated alike. -/
def Relabels (π : Equiv.Perm String) (p q : Array String)
    (rec : Node → ℕ → Run (Option Value)) : Prop :=
  ∀ n e, n.Named → Run.Relabelled? π p q (rec n e) (rec (n.relabel π) e)

namespace Relabels

variable {rec : Node → ℕ → Run (Option Value)} {e : ℕ}

lemma operand (h : Relabels π p q rec) {n : Node} (hn : n.Named) :
    Run.Relabelled π p q (Value.relabel π) Value.Named
      (MonkeyLang.operand rec e n)
      (MonkeyLang.operand rec e (n.relabel π)) := by
  refine (h n e hn).bind fun v? hv => .pure (Value.getD_relabel π v?) ?_
  cases v? with
  | none => exact Value.closed_named.null
  | some v => exact hv v rfl

lemma operands (h : Relabels π p q rec) {ns : List Node}
    (hns : ∀ n ∈ ns, n.Named) :
    Run.Relabelled π p q (List.map (Value.relabel π))
      (fun vs => ∀ v ∈ vs, v.Named) (MonkeyLang.operands rec e ns)
      (MonkeyLang.operands rec e (ns.map (Node.relabel π))) := by
  induction ns with
  | nil => exact .pure rfl nofun
  | cons n ns ih =>
      obtain ⟨hn, hns⟩ := List.forall_mem_cons.mp hns
      exact (h.operand hn).bind fun v hv => (ih hns).bind fun vs hvs =>
        .pure rfl (List.forall_mem_cons.mpr ⟨hv, hvs⟩)

/-- The value of the last of some statements. -/
lemma sequence (h : Relabels π p q rec) {ns : List Node}
    (hns : ∀ n ∈ ns, n.Named) {last : Option Value}
    (hlast : Value.IfAny Value.Named last) :
    Run.Relabelled? π p q (MonkeyLang.sequence rec e last ns)
      (MonkeyLang.sequence rec e (last.map (Value.relabel π))
        (ns.map (Node.relabel π))) := by
  induction ns generalizing last with
  | nil => exact .pure rfl hlast
  | cons n ns ih =>
      obtain ⟨hn, hns⟩ := List.forall_mem_cons.mp hns
      refine (h n e hn).bind fun v? hv => ?_
      have hnext := ih hns hv
      rcases v? with _ | v
      · exact hnext
      · cases v with
        | returned v => exact .pure rfl hv
        | _ => exact hnext

lemma entries (h : Relabels π p q rec) {ps : List (Node × Node)}
    (hps : ∀ p ∈ ps, p.1.Named ∧ p.2.Named) {t : Table}
    (ht : (Value.hash t).Named) :
    Run.Relabelled π p q (Table.relabel π) (fun t => (Value.hash t).Named)
      (MonkeyLang.entries rec e t ps)
      (MonkeyLang.entries rec e (t.relabel π)
        (ps.map fun p => (p.1.relabel π, p.2.relabel π))) := by
  induction ps generalizing t with
  | nil => exact .pure rfl ht
  | cons p ps ih =>
      obtain ⟨k, v⟩ := p
      obtain ⟨⟨hk, hv⟩, hps⟩ := List.forall_mem_cons.mp hps
      refine (h.operand hk).bind fun key hkey => ?_
      rw [Value.hashKey_relabel, Value.hashKey]
      cases hhash : key.hashKey? with
      | none => exact .throw rfl
      | some j =>
          refine (h.operand hv).bind fun w hw => ?_
          have hentry := ih hps
            (Value.closed_named.entry t key w j ht hkey hw hhash)
          rw [Table.relabel_set] at hentry
          exact hentry

end Relabels

/-! ### Names and calls -/

/-- A name, and the new one, looked up in the same frame. -/
lemma relabelled_named (hπ : Spares π) (e : ℕ) (name : String) :
    Run.Relabelled? π p q (named e name) (named e (π name)) := by
  refine Parallel.get fun s t hs => ?_
  rw [hs.lookup, hπ.ofName?]
  cases hlookup : s.lookup e name with
  | some v =>
      refine Run.relabelled_settle (r := .ok v) ?_ s t hs
      rintro w ⟨rfl⟩
      exact hs.named.lookup hlookup
  | none =>
      cases Builtin.ofName? name with
      | some b =>
          exact Run.relabelled_some (v := .builtin b) rfl
            (Value.closed_named.builtin b) s t hs
      | none =>
          exact Run.Relabelled.throw (c := .identifierNotFound name) rfl s t hs

namespace Relabels

variable {rec : Node → ℕ → Run (Option Value)} {e : ℕ}

/-- Calling relabelled values with relabelled arguments. -/
lemma applyWith (h : Relabels π p q rec) {f : Value} (hf : f.Named)
    {args : List Value} (hargs : ∀ a ∈ args, a.Named) :
    Run.Relabelled? π p q (MonkeyLang.applyWith rec f args)
      (MonkeyLang.applyWith rec (f.relabel π)
        (args.map (Value.relabel π))) := by
  cases f with
  | function c =>
      have hc := hf.function
      simp only [Value.relabel, MonkeyLang.applyWith, List.length_map,
        Closure.relabel]
      split
      · exact (relabelled_callFrame hc hargs).bind fun e _ =>
          (h c.body e hc.body).bind fun v? hv => Run.relabelled_deliver hv
      · exact .throw rfl
  | builtin b => exact b.relabelled_call hargs
  | _ => exact .throw rfl

/-- The tree of the value of an argument of `unquote`. -/
lemma unquoteWith (h : Relabels π p q rec) {n : Node} (hn : n.Named) :
    Run.Relabelled π p q (Node.relabel π) Node.Named
      (MonkeyLang.unquoteWith rec e n)
      (MonkeyLang.unquoteWith rec e (n.relabel π)) := by
  refine (h n e hn).bind fun v? hv => ?_
  cases v? with
  | none => exact .throw rfl
  | some v =>
      have htree := Value.toNode?_relabel π v
      have hkind := Value.kind_relabel π v
      simp only [Option.map_some, Option.bind_some, Option.bind_eq_bind, htree,
        hkind]
      cases hnode : v.toNode? with
      | none => exact .throw rfl
      | some m => exact .pure rfl ((hv v rfl).toNode? hnode)

variable (hπ : Spares π)

include hπ

/-- Calls of `unquote` on one argument are replaced by such trees. -/
lemma replaceUnquote (h : Relabels π p q rec) {n : Node} (hn : n.Named) :
    Run.Relabelled π p q (Node.relabel π)
      (fun m => m.Named ∧ (n.kind = .ident → m.kind = .ident))
      (MonkeyLang.replaceUnquote rec e n)
      (MonkeyLang.replaceUnquote rec e (n.relabel π)) := by
  have hsame : ∀ m : Node, m = n.relabel π →
      Run.Relabelled π p q (Node.relabel π)
        (fun m => m.Named ∧ (n.kind = .ident → m.kind = .ident))
        (Pure.pure n) (Pure.pure m) := fun m hm => .pure hm ⟨hn, id⟩
  -- only a call of `unquote` on one argument is replaced; the special forms
  -- keep their names, so the same calls are replaced in both
  cases n with
  | call t callee args =>
      rcases args with _ | ⟨arg, _ | ⟨_, _⟩⟩
      · exact hsame _ rfl
      · simp only [Node.relabel, Node.relabelList, MonkeyLang.replaceUnquote,
          SpecialForm.ofCallee?_relabel hπ]
        split
        · have harg : arg.Named :=
            hn.child (List.mem_cons_of_mem callee List.mem_cons_self)
          refine (h.unquoteWith harg).mono fun m hm => ⟨hm, ?_⟩
          rintro ⟨⟩
        · exact hsame _ rfl
      · exact hsame _ rfl
  | _ => exact hsame _ rfl

lemma quoteWith (h : Relabels π p q rec) {n : Node} (hn : n.Named) :
    Run.Relabelled π p q (Node.relabel π) Node.Named
      (MonkeyLang.quoteWith rec e n)
      (MonkeyLang.quoteWith rec e (n.relabel π)) :=
  (relabelled_transformM Node.rebuilds_named
    (fun _ hm => h.replaceUnquote hπ hm) hn).mono fun _ hm => hm.1

lemma callWith (h : Relabels π p q rec) {c : Node} (hc : c.Named)
    {ns : List Node} (hns : ∀ n ∈ ns, n.Named) :
    Run.Relabelled? π p q (MonkeyLang.callWith rec e c ns)
      (MonkeyLang.callWith rec e (c.relabel π)
        (ns.map (Node.relabel π))) := by
  simp only [MonkeyLang.callWith, SpecialForm.ofCallee?_relabel hπ]
  cases SpecialForm.ofCallee? c with
  | none =>
      exact (h.operand hc).bind fun f hf => (h.operands hns).bind
        fun vs hvs => h.applyWith hf hvs
  | some form =>
      cases form with
      | unquote => exact .throw rfl
      | quote =>
          rcases ns with _ | ⟨n, _ | ⟨m, ns⟩⟩
          · exact .throw rfl
          · exact (h.quoteWith hπ (hns n List.mem_cons_self)).bind
              fun m hm => Run.relabelled_some rfl (Value.named_quote hm)
          · exact .throw (by simp [Fault.relabel])

/-- **One step of evaluation.** -/
theorem evalWith (h : Relabels π p q rec) :
    Relabels π p q (MonkeyLang.evalWith rec) := by
  intro n e hn
  have hchild : ∀ m ∈ n.children, m.Named := fun m => hn.child
  -- one case for every form; relabelling keeps the form, so both sides take the
  -- same branch
  cases n with
  | missing => exact .pure rfl (Value.ifAny_none _)
  | program ss =>
      rw [Node.relabel, Node.relabelList_eq_map]
      exact (h.sequence hchild (Value.ifAny_none _)).bind fun v? hv =>
        Run.relabelled_deliver hv
  | block t ss =>
      rw [Node.relabel, Node.relabelList_eq_map]
      exact h.sequence hchild (Value.ifAny_none _)
  | exprStmt t v => exact h v e (hchild v List.mem_cons_self)
  | returnStmt t v =>
      have hv := hchild v List.mem_cons_self
      exact (h.operand hv).bind fun w hw =>
        Run.relabelled_some rfl (Value.closed_named.returned w hw)
  | letStmt t name v =>
      have hv := hchild v List.mem_cons_self
      refine (h.operand hv).bind fun w hw => ?_
      refine Run.Relabelled.bind (f := id) (P := fun _ => True) ?_
        fun _ _ => .pure rfl (Value.ifAny_none _)
      -- the names of bindings are what the relabelling maps, and the frame
      -- binds the image of the name
      exact .modifyGet fun s t hs => ⟨hs.bind e name.text hw, rfl, trivial⟩
  | intLit t n => exact Run.relabelled_some rfl (Value.named_integer n)
  | boolLit t b =>
      exact Run.relabelled_some rfl (Value.closed_named.boolean b)
  | strLit t => exact Run.relabelled_some rfl (Value.closed_named.string t.text)
  | array t ns =>
      rw [Node.relabel, Node.relabelList_eq_map]
      refine (h.operands hchild).bind fun vs hvs => ?_
      refine Run.relabelled_some ?_ (Value.closed_named.array vs hvs)
      rw [Value.relabel, Value.relabelList_eq_map]
  | hash t ps =>
      rw [Node.relabel, Node.relabelPairs_eq_map]
      refine (h.entries (fun _ => hn.entry)
        Value.closed_named.emptyHash).bind fun t ht => ?_
      refine Run.relabelled_some ?_ ht
      rw [Value.relabel, Value.relabelEntries_eq_map]
  | function t ps b =>
      rw [Node.relabel, Node.relabelList_eq_map]
      have hb := hchild b (List.mem_append_right _ List.mem_cons_self)
      exact (relabelled_makeClosure hn.params hb e).bind fun c hc =>
        Run.relabelled_some rfl (Value.named_function hc)
  | macroFn t ps b =>
      rw [Node.relabel, Node.relabelList_eq_map]
      have hb := hchild b (List.mem_append_right _ List.mem_cons_self)
      exact (relabelled_makeClosure hn.params hb e).bind fun c hc =>
        Run.relabelled_some rfl (Value.named_macroFn hc)
  | prefixOp t r =>
      have hr := hchild r List.mem_cons_self
      refine (h.operand hr).bind fun v _ => ?_
      rw [Value.prefixOp_relabel]
      exact Run.relabelled_settle fun w => Value.closed_named.formed.prefixOp
  | infixOp t l r =>
      obtain ⟨hl, hr⟩ := List.forall_mem_cons.mp hchild
      refine (h.operand hl).bind fun v _ => ?_
      refine (h.operand (hr r List.mem_cons_self)).bind fun w _ => ?_
      rw [Value.infixOp_relabel]
      exact Run.relabelled_settle fun x => Value.closed_named.formed.infixOp
  | conditional t c a b =>
      obtain ⟨hc, hab⟩ := List.forall_mem_cons.mp hchild
      obtain ⟨ha, hb⟩ := List.forall_mem_cons.mp hab
      refine (h c e hc).bind fun v? _ => ?_
      rw [Value.holds_relabel, Node.isMissing_relabel]
      split
      · exact h a e ha
      · split
        · exact Run.relabelled_some rfl Value.closed_named.null
        · exact h b e (hb b List.mem_cons_self)
  | ident t => exact relabelled_named hπ e t.text
  | index t l i =>
      obtain ⟨hl, hi⟩ := List.forall_mem_cons.mp hchild
      refine (h.operand hl).bind fun v hv => ?_
      refine (h.operand (hi i List.mem_cons_self)).bind fun w _ => ?_
      rw [Value.index_relabel]
      exact Run.relabelled_settle fun x => Value.closed_named.formed.index hv
  | call t c ns =>
      rw [Node.relabel, Node.relabelList_eq_map]
      obtain ⟨hc, hns⟩ := List.forall_mem_cons.mp hchild
      exact h.callWith hπ hc hns

end Relabels

/-- **Evaluation under other names.**  Relabelled trees in relabelled stores
have relabelled values, or faults. -/
theorem relabels_eval (hπ : Spares π) (p q : Array String) (depth : ℕ) :
    Relabels π p q (eval depth) := by
  induction depth with
  | zero => exact fun _ _ _ => .none
  | succ depth ih => exact ih.evalWith hπ

end MonkeyLang

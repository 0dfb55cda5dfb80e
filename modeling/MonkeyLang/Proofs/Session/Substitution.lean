/-
Macros of templates are substitution.

* `Node.Rewrites law`: trees become others, children first, each node as a law
  lets it; `rewrites_of_transformM`: a change of a tree does that if its rule
  keeps the law wherever the change comes to use it;
* `transformList_of_rewrites`: under a law by which each node becomes what the
  rule makes of it, trees become what the change makes of them;
* `TemplateMacro`: the parameters and the body of a macro that does nothing but
  quote a template of its parameters; `TemplateMacro.assigned`: the arguments
  of a call by the names of the parameters;
* `Session.Substitutes`: what a call of such a macro becomes, and
  `Session.Expands`: the law of an expansion with such a macro;
* `Session.Led.rewrites_of_expand`: every expansion keeps it.
-/
import MonkeyLang.Proofs.Bindings
import MonkeyLang.Proofs.Eval.Template
import MonkeyLang.Proofs.Session.Isolation
import MonkeyLang.Store.Nesting

namespace MonkeyLang

open Relation (ReflTransGen)

/-! ### Rewriting -/

namespace Node

variable {σ : Type}

/-- Trees become others from left to right: the children of a node first, and
then the node rebuilt from them whatever the law lets it become. -/
inductive Rewrites (law : Node → σ → Node → σ → Prop) :
    List Node → σ → List Node → σ → Prop where
  | nil {s : σ} : Rewrites law [] s [] s
  | missing {ns ks : List Node} {s s' : σ} (hns : Rewrites law ns s ks s') :
      Rewrites law (.missing :: ns) s (.missing :: ks) s'
  | node {n k : Node} {ns cs ks : List Node} {s s₁ s₂ s' : σ}
      (hn : n ≠ .missing) (hcs : Rewrites law n.children s cs s₁)
      (hk : law (n.withChildren cs) s₁ k s₂) (hns : Rewrites law ns s₂ ks s') :
      Rewrites law (n :: ns) s (k :: ks) s'

variable {ε : Type} {f : Node → ExceptT ε (StateT σ Option) Node}
  {law : Node → σ → Node → σ → Prop}

/-- One tree is rewritten, and then those behind it. -/
lemma Rewrites.cons {n k : Node} {ns ks : List Node} {s s₁ s' : σ}
    (hn : Rewrites law [n] s [k] s₁) (hns : Rewrites law ns s₁ ks s') :
    Rewrites law (n :: ns) s (k :: ks) s' := by
  cases hn with
  | missing hnil =>
      cases hnil
      exact .missing hns
  | node hn hcs hk hnil =>
      cases hnil
      exact .node hn hcs hk hns

lemma rewrites_of_transformList {ns ks : List Node} {s s' : σ}
    (hns : ∀ pre n post cs s₁ k s₂, ns = pre ++ n :: post →
      transformList f pre s = some (.ok cs, s₁) →
      n.transformM f s₁ = some (.ok k, s₂) → Rewrites law [n] s₁ [k] s₂)
    (h : transformList f ns s = some (.ok ks, s')) :
    Rewrites law ns s ks s' := by
  induction ns generalizing ks s with
  | nil =>
      cases h
      exact .nil
  | cons n ns ih =>
      obtain ⟨k, ls, s₁, rfl, hk, hls⟩ := transformList_cons_inv h
      refine (hns [] n ns [] s k s₁ rfl rfl hk).cons (ih ?_ hls)
      -- the trees behind `n` are changed later, but what is known of them is
      -- known from `s`, so `n` is put before those that are changed first
      intro pre m post cs s₃ l s₄ hsplit hpre hm
      refine hns (n :: pre) m post (k :: cs) s₃ l s₄ (by rw [hsplit]; rfl) ?_ hm
      rw [transformList, bind_ok hk, bind_ok hpre]
      rfl

/-- What is changed by a rule that keeps the law is rewritten by it. -/
theorem rewrites_of_transformM {n k : Node} {s s' : σ}
    (hlaw : ∀ m s₁ l s₂, Comes f n s m s₁ → f m s₁ = some (.ok l, s₂) →
      law m s₁ l s₂)
    (h : n.transformM f s = some (.ok k, s')) :
    Rewrites law [n] s [k] s' := by
  induction n using children_induct generalizing s s' k with
  | step n ih =>
      by_cases hn : n = missing
      · rw [hn] at h ⊢
        cases h
        exact .missing .nil
      obtain ⟨cs, s₁, hcs, hk⟩ := transformM_inv hn h
      refine .node hn (rewrites_of_transformList ?_ hcs)
        (hlaw _ _ _ _ (.here hn hcs) hk) .nil
      intro pre c post ds s₂ l s₃ hsplit hpre hc
      have hmem : c ∈ n.children :=
        hsplit ▸ List.mem_append_right _ List.mem_cons_self
      exact ih c hmem (fun m s₄ l s₅ hm => hlaw m s₄ l s₅
        (.inside hsplit hpre hm)) hc

/-- Under a law by which each node becomes what the rule makes of it, trees
become what the change makes of them. -/
lemma transformList_of_rewrites {ns ks : List Node} {s s' : σ}
    (hlaw : ∀ m s₁ l s₂, law m s₁ l s₂ → f m s₁ = some (.ok l, s₂))
    (h : Rewrites law ns s ks s') :
    transformList f ns s = some (.ok ks, s') := by
  induction h with
  | nil => rfl
  | @missing ns ks s s' _ ih =>
      have hmissing : transformM f .missing s = some (.ok .missing, s) := rfl
      rw [transformList, bind_ok hmissing, bind_ok ih]
      rfl
  | @node n k ns cs ks s s₁ s₂ s' hn _ hk _ ihcs ihns =>
      have hnode : transformM f n s = some (.ok k, s₂) := by
        rw [transformM_eq f hn, bind_ok ihcs]
        exact hlaw _ _ _ _ hk
      rw [transformList, bind_ok hnode, bind_ok ihns]
      rfl

end Node

/-! ### Frames of calls -/

/-- Parameters that are distinct are bound to one argument each. -/
lemma parameterBindings_of_nodup {names : List String} {args : List Value}
    (h : names.Nodup) : parameterBindings names args = names.zip args :=
  Bindings.foldl_set_zip h fun _ _ => List.not_mem_nil

/-- A name of a new frame has what it is bound to there. -/
lemma Store.lookup_addFrame {s : Store} {bs : Bindings String Value}
    {outer : Option ℕ} {name : String} {v : Value}
    (h : Bindings.get? name bs = some v) :
    (s.addFrame bs outer).2.lookup s.frames.size name = some v := by
  have hframe : (s.addFrame bs outer).2.frames[s.frames.size]? =
      some ⟨bs, outer⟩ := Array.getElem?_push_size
  rw [lookup, chain, chainUpTo, hframe, List.findSome?_cons, h]

/-- What is looked up in a frame that lies in none but itself depends on that
frame only. -/
lemma Store.lookup_congr {s t : Store} {e : ℕ} {f : Frame}
    (hf : s.frames[e]? = some f) (houter : ∀ o, f.outer = some o → o = e)
    (h : t.frames[e]? = s.frames[e]?) (name : String) :
    t.lookup e name = s.lookup e name := by
  have hchain : ∀ n, t.chainUpTo n (some e) = s.chainUpTo n (some e) := by
    intro n
    induction n with
    | zero => rfl
    | succ n ih =>
        rw [chainUpTo, chainUpTo, h, hf]
        cases ho : f.outer with
        | none => simp only [ho, chainUpTo_none]
        | some o =>
            cases houter o ho
            simp only [ho, ih]
  rw [lookup, lookup, chain, chain, hchain]

/-! ### Macros of templates -/

/-- The parameters and the body of a macro that does nothing but quote a
template of its parameters. -/
structure TemplateMacro where
  params : List Node
  body : Node
  template : Node
  quotes : body.Quotes template
  distinct : (params.map Node.name).Nodup
  holes : template.Template (params.map Node.name)

namespace TemplateMacro

variable (M : TemplateMacro) {args : List Node}

/-- The names of the parameters. -/
def names : List String := M.params.map Node.name

/-- The arguments of a call by the names of the parameters. -/
def assigned (args : List Node) (p : String) : Node :=
  (Bindings.get? p (M.names.zip args)).getD .missing

/-- The frame of a call, in which each parameter is bound to the quote of its
argument. -/
lemma get?_bindings {p : String} (hp : p ∈ M.names)
    (hargs : args.length = M.params.length) :
    ∃ a ∈ args, M.assigned args p = a ∧
      Bindings.get? p (parameterBindings M.names (args.map .quote)) =
        some (.quote a) := by
  have hkeys : Bindings.keys (M.names.zip args) = M.names :=
    List.map_fst_zip (by simp [names, hargs])
  obtain ⟨a, ha⟩ := Option.isSome_iff_exists.mp
    ((Bindings.isSome_get? p (M.names.zip args)).mpr (hkeys.symm ▸ hp))
  refine ⟨a, (List.of_mem_zip (Bindings.mem_of_get? ha)).2, ?_, ?_⟩
  · rw [assigned, ha]
    rfl
  · have hnodup : M.names.Nodup := M.distinct
    rw [parameterBindings_of_nodup hnodup, List.zip_map_right]
    exact (Bindings.get?_map Value.quote p _).trans (by rw [ha]; rfl)

end TemplateMacro

/-! ### Calls of such macros -/

namespace Session

/-- The session in which the body of a macro runs: the quotes of the arguments
are bound in a new frame inside that of the macros. -/
def entered (M : TemplateMacro) (args : List Node) (s : Session) : Session :=
  s.changeStore fun store => (store.addFrame
    (parameterBindings M.names (args.map .quote)) (some s.macros)).2

/-- A call of such a macro becomes the template, filled with the arguments.
The session is as before, but for a new frame with the quotes of the arguments
and the event; and in that frame no other nodes are evaluated than those of the
body and names of the parameters, without any change of the store. -/
structure Substitutes (depth : ℕ) (M : TemplateMacro) (call : Node)
    (args : List Node) (s : Session) (k : Node) (s' : Session) : Prop where
  tree : k = M.template.fill (M.assigned args)
  session : s' = (s.entered M args).record (.expanded call k)
  evaluated : ∀ q, ReflTransGen Moment.Calls
      ⟨depth, .eval M.body s.store.frames.size, (s.entered M args).store⟩ q →
    q.store = (s.entered M args).store ∧
      ∃ l, q.job = .eval l s.store.frames.size ∧
        Node.Quoting M.names M.template l

/-- What the expansion of an input makes of a node with expanded children, if
`name` is such a macro in the session `prepared`: the one thing that the rule
makes of it, where a call of the macro is filled in, unless an argument is the
name `unquote`, and what names no macro there stays as it is. -/
structure Expands (depth : ℕ) (name : String) (M : TemplateMacro)
    (prepared : Session) (n : Node) (s : Session) (k : Node) (s' : Session) :
    Prop where
  made : Expanding.expandNode depth n s = some (.ok k, s')
  call : ∀ t u args, n = .call t (.ident u) args → u.text = name →
    args.length = M.params.length ∧
      ((∀ a ∈ args, SpecialForm.ofCallee? a ≠ some .unquote) →
        s.Substitutes depth M n args k s')
  other : (∀ t callee args, n = .call t callee args →
      Expanding.macroOf? callee prepared = none) → k = n ∧ s' = s

variable {M : TemplateMacro} {depth : ℕ} {s s' : Session} {t u : Token}
  {args : List Node} {k : Node} {id : ℕ}

/-- Where the body of such a macro runs each parameter has the quote of its
argument. -/
lemma lookup_entered (hargs : args.length = M.params.length) {p : String}
    (hp : p ∈ M.names) :
    (s.entered M args).store.lookup s.store.frames.size p =
      some (.quote (M.assigned args p)) := by
  obtain ⟨a, -, ha, hbound⟩ := M.get?_bindings hp hargs
  rw [ha]
  exact Store.lookup_addFrame hbound

/-- What a call of such a macro is expanded to. -/
lemma substitutes_of_expandNode
    (hbound : s.store.lookup s.macros u.text =
      some (.macroFn ⟨id, M.params, M.body, s.macros⟩))
    (hrun : Expanding.expandNode depth (.call t (.ident u) args) s =
      some (.ok k, s')) :
    args.length = M.params.length ∧
      ((∀ a ∈ args, SpecialForm.ofCallee? a ≠ some .unquote) →
        s.Substitutes depth M (.call t (.ident u) args) args k s') := by
  have hcallee : Expanding.macroOf? (.ident u) s =
      some ⟨id, M.params, M.body, s.macros⟩ := by
    rw [Expanding.macroOf?, hbound]
  rw [Expanding.expandNode_macro hcallee, Expanding.expandCall] at hrun
  split at hrun
  · next hargs =>
    refine ⟨hargs, fun hbare => ?_⟩
    have hnames : ∀ p ∈ M.names,
        (s.entered M args).store.lookup s.store.frames.size p =
          some (.quote (M.assigned args p)) := fun p hp =>
      lookup_entered hargs hp
    have hassigned : ∀ p ∈ M.names,
        SpecialForm.ofCallee? (M.assigned args p) ≠ some .unquote := by
      intro p hp
      obtain ⟨a, hmem, ha, -⟩ := M.get?_bindings hp hargs
      exact ha ▸ hbare a hmem
    -- the body quotes the template in a frame where its names are bound to the
    -- arguments, so that it stays there and fills it
    have hbody : (eval depth M.body s.store.frames.size >>= Run.deliver).Stays
        (s.entered M args).store
        (some (.quote (M.template.fill (M.assigned args)))) :=
      (M.quotes.stays_eval hnames hassigned M.holes depth).bind
        (Run.Stays.pure _)
    obtain ⟨result, s₁, hresult, hrest⟩ := bind_ok_inv hrun
    obtain ⟨⟨out, store⟩, hout, hs₁⟩ := Option.map_eq_some_iff.mp hresult
    cases hs₁
    obtain ⟨rfl, rfl⟩ := hbody _ _ hout
    cases hrest
    exact ⟨rfl, rfl, fun q hq => Moment.quoting_of_calls hnames hassigned
      M.holes (M.quotes.quoting M.names) hq⟩
  · cases hrun

/-! ### Inputs -/

/-- What keeps that law in a call of the macro replaces it by the template,
filled with the expansions of the arguments. -/
theorem substitutes_of_rewrites {name : String} {prepared : Session}
    (hu : u.text = name)
    (h : Node.Rewrites (Expands depth name M prepared)
      [.call t (.ident u) args] s [k] s') :
    ∃ cs s₁, Node.transformList (Expanding.expandNode depth) args s =
        some (.ok cs, s₁) ∧
      cs.length = M.params.length ∧
      ((∀ a ∈ cs, SpecialForm.ofCallee? a ≠ some .unquote) →
        s₁.Substitutes depth M (.call t (.ident u) cs) cs k s') := by
  cases h with
  | node _ hchildren hcall hnil =>
      cases hnil
      cases hchildren with
      | node _ hnone hcallee hargs =>
          cases hnone
          -- the callee is no call, so it stays
          obtain ⟨rfl, rfl⟩ := hcallee.other nofun
          have hcs := Node.transformList_of_rewrites
            (fun _ _ _ _ hm => hm.made) hargs
          exact ⟨_, _, hcs, hcall.call t u _ rfl hu⟩

/-- Wherever the expansion of a tree comes to, the same macros are bound. -/
lemma Apart.lookup_of_comes (h : s.Apart) {n m : Node} {s₁ : Session}
    (hm : Node.Comes (Expanding.expandNode depth) n s m s₁) :
    s₁.macros = s.macros ∧
      ∀ p, s₁.store.lookup s₁.macros p = s.store.lookup s.macros p := by
  obtain ⟨root, hroot, hlies⟩ := h.root
  have hgood : (Regime.zone s.expandingZone fun _ => id).good s.store :=
    h.within_macros rfl fun _ => Iff.rfl
  obtain ⟨-, -, ⟨-, hsame⟩, -, hmacros, -⟩ := Ends.of_comes
    Node.rebuilds_true hm trivial hgood (h.ends_expandAll n).1
  refine ⟨hmacros, fun p => ?_⟩
  rw [hmacros]
  exact Store.lookup_congr hroot hlies.outer
    (hsame _ (Nat.not_le.mpr h.macros_lt)) p

/-- The last definition of a name in an input is bound when the input is
expanded. -/
lemma Apart.lookup_prepared (h : s.Apart) (source : String) {name : String}
    {n : Node}
    (hdef : Node.definition? name n.definitions = some (M.params, M.body)) :
    ∃ id, (s.prepared source n).store.lookup s.macros name =
      some (.macroFn ⟨id, M.params, M.body, s.macros⟩) := by
  obtain ⟨f, hf, -⟩ := h.root
  obtain ⟨g, hg, hdefines⟩ := (defines_prepared source n s).2.own f hf
  obtain ⟨id, hid⟩ := hdefines.defined name _ _ hdef
  refine ⟨id, ?_⟩
  rw [Store.lookup, Store.chain, Store.chainUpTo, hg, List.findSome?_cons, hid]

/-- **Macros of templates are substitution.**  If an input whose last
definition of `name` is a macro that quotes a template is expanded, wherever
the definition stands, then so is every call of `name` in it: its arguments
are expanded first, and if none of them is the name `unquote`, the template
filled with them takes the place of the call, no argument is evaluated, nothing
is printed and nothing is bound but in a new frame. -/
theorem Led.rewrites_of_expand (hs : Led (fun _ _ _ _ => True) s)
    {source name : String} {n : Node}
    (hparsed : parsed source s.tracing = .ok n)
    (hdef : Node.definition? name n.definitions = some (M.params, M.body))
    (hrun : s.expand depth source = some (.ok k, s')) :
    Node.Rewrites (Expands depth name M (s.prepared source n)) [n.remainder]
      (s.prepared source n) [k] s' := by
  obtain ⟨hapart, -, hmacros⟩ := hs.apart.prepared source n
  obtain ⟨id, hbound⟩ := hs.apart.lookup_prepared source hdef
  have hexpand : Expanding.expandAll depth n.remainder (s.prepared source n) =
      some (.ok k, s') := by
    rw [expand_of_parsed hparsed] at hrun
    obtain ⟨⟨result, s₁⟩, hresult, hout⟩ := Option.map_eq_some_iff.mp hrun
    cases result with
    | error f => cases hout
    | ok l =>
        cases hout
        exact hresult
  -- expansion binds nothing among the macros, so that at every call the name is
  -- bound to what it was at first
  refine Node.rewrites_of_transformM (fun m s₁ l s₂ hm hl => ?_) hexpand
  obtain ⟨hmacros₁, hlookup⟩ := hapart.lookup_of_comes hm
  refine ⟨hl, ?_, ?_⟩
  · rintro t u args rfl rfl
    have hmacro : s₁.store.lookup s₁.macros u.text =
        some (.macroFn ⟨id, M.params, M.body, s₁.macros⟩) := by
      rw [hlookup, hmacros, hbound, hmacros₁, hmacros]
    exact substitutes_of_expandNode hmacro hl
  · intro hother
    have hnone : ∀ t callee args, m = .call t callee args →
        Expanding.macroOf? callee s₁ = none := fun t callee args hcall => by
      rw [Expanding.macroOf?_congr hlookup]
      exact hother t callee args hcall
    have hsame : Expanding.expandNode depth m s₁ = some (.ok m, s₁) :=
      Expanding.expandNode_other hnone
    cases hsame.symm.trans hl
    exact ⟨rfl, rfl⟩

/-- A call in a call of a macro that is defined behind them and has a hole for
a callee. -/
def nestedFlip : String := "flip(flip(1, g), h); " ++
  "let flip = macro(a, f) \x7b quote(unquote(f)(unquote(a))) \x7d"

/-- The template of that macro. -/
def flipTemplate (t u v : Token) (i j k l : Position) : Node :=
  .call t (.call u (.ident ⟨.ident, "unquote", i⟩) [.ident ⟨.ident, "f", j⟩])
    [.call v (.ident ⟨.ident, "unquote", k⟩) [.ident ⟨.ident, "a", l⟩]]

lemma template_flipTemplate (t u v : Token) (i j k l : Position) :
    (flipTemplate t u v i j k l).Template ["a", "f"] := by
  have hname : ∀ w, (Node.ident w).Template ["a", "f"] := fun w =>
    .node nofun nofun
  have hhole : ∀ t i p j, p ∈ ["a", "f"] →
      (Node.call t (.ident ⟨.ident, "unquote", i⟩)
        [.ident ⟨.ident, p, j⟩]).Template ["a", "f"] := fun t i p j hp =>
    .node (fun _ => ⟨p, hp, rfl⟩) (List.forall_mem_cons.mpr
      ⟨hname _, List.forall_mem_singleton.mpr (hname _)⟩)
  exact .node nofun (List.forall_mem_cons.mpr
    ⟨hhole u i "f" j (by decide),
      List.forall_mem_singleton.mpr (hhole v k "a" l (by decide))⟩)

set_option maxRecDepth 4000 in
/-- The calls are expanded to `h(g(1))`. -/
theorem Led.rewrites_of_expand_nestedFlip :
    ∃ (M : TemplateMacro) (n k : Node) (s' : Session),
      Led (fun _ _ _ _ => True) (Session.start false) ∧
      parsed nestedFlip false = .ok n ∧
      Node.definition? "flip" n.definitions = some (M.params, M.body) ∧
      (Session.start false).expand 20 nestedFlip = some (.ok k, s') ∧
      k.text = "h(g(1))" ∧
      Node.Rewrites (Expands 20 "flip" M
        ((Session.start false).prepared nestedFlip n)) [n.remainder]
        ((Session.start false).prepared nestedFlip n) [k] s' := by
  obtain ⟨d, calls, e, f, g, p, q, b, x, c, r, t, u, v, i, j, k, l, hparsed⟩ :
      ∃ d calls e f g p q b x c r t u v i j k l,
        parsed nestedFlip false = .ok (.program [.exprStmt d calls,
          .letStmt e ⟨.ident, "flip", f⟩ (.macroFn g
            [.ident ⟨.ident, "a", p⟩, .ident ⟨.ident, "f", q⟩]
            (.block b [.exprStmt x (.call c (.ident ⟨.ident, "quote", r⟩)
              [flipTemplate t u v i j k l])]))]) :=
    ⟨_, _, _, _, _, _, _, _, _, _, _, _, _, _, _, _, _, _, rfl⟩
  obtain ⟨n, s', hrun, htext⟩ : ∃ n s', (Session.start false).expand 20
      nestedFlip = some (.ok n, s') ∧ n.text = "h(g(1))" :=
    ⟨_, _, rfl, by decide +kernel⟩
  -- the same definition that the text has, with what it takes to be a template
  let M : TemplateMacro :=
    { params := [.ident ⟨.ident, "a", p⟩, .ident ⟨.ident, "f", q⟩]
      body := .block b [.exprStmt x (.call c (.ident ⟨.ident, "quote", r⟩)
        [flipTemplate t u v i j k l])]
      template := flipTemplate t u v i j k l
      quotes := ⟨b, x, c, _, rfl, rfl⟩
      distinct := show ["a", "f"].Nodup by decide
      holes := template_flipTemplate t u v i j k l }
  have hdef : Node.definition? "flip" (Node.program [.exprStmt d calls,
      .letStmt e ⟨.ident, "flip", f⟩
        (.macroFn g M.params M.body)]).definitions =
        some (M.params, M.body) := rfl
  exact ⟨M, _, n, s', .start false, hparsed, hdef, hrun, htext,
    Led.rewrites_of_expand (.start false) hparsed hdef hrun⟩

end Session

end MonkeyLang

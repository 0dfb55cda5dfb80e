/-
How a tree is quoted.

* `Node.Reaches`, `Node.CalleesStay`: where a quote comes to in a tree, and that
  it puts the name `unquote` into no place of a callee;
* `Node.PlainCallees.calleesStay`: so it is if no callee is a call of `unquote`
  on one argument;
* `unquoteAll`: the trees for some arguments of `unquote`, one after the other;
* `quoteWith_eq`: quoting a tree is evaluating the arguments of its calls of
  `unquote`, each with the calls inside it replaced, and then putting the trees
  of their values in place of the calls.
-/
import MonkeyLang.Proofs.Eval.Answers
import MonkeyLang.Proofs.Tree.Unquotes
import Mathlib.Data.List.Induction

namespace MonkeyLang

/-! ### Callees -/

/-- Changing a tree from a state comes to a node that is not changed yet, in
another state: to the tree itself, or to a node in a child of it, once those
before it are changed. -/
inductive Node.Reaches {σ ε : Type}
    (f : Node → ExceptT ε (StateT σ Option) Node) :
    Node → σ → Node → σ → Prop where
  | here (n : Node) (s : σ) : Reaches f n s n s
  | inside {n c m : Node} {pre post cs : List Node} {s s' s'' : σ}
      (hc : n.children = pre ++ c :: post)
      (hpre : transformList f pre s = some (.ok cs, s'))
      (hm : Reaches f c s' m s'') : Reaches f n s m s''

section

variable (rec : Node → ℕ → Run (Option Value)) (e : ℕ)

/-- Quoting a tree from a store puts the name `unquote` into no place of a
callee: where it comes to a call whose callee becomes that name, it was so
before. -/
def Node.CalleesStay (n : Node) (s : Store) : Prop :=
  ∀ t callee args s₁,
    Node.Reaches (replaceUnquote rec e) n s (.call t callee args) s₁ →
    ∀ k s₂, quoteWith rec e callee s₁ = some (.ok k, s₂) →
      SpecialForm.ofCallee? k = some .unquote →
      SpecialForm.ofCallee? callee = some .unquote

/-! ### Arguments -/

/-- The trees for some arguments of `unquote`, behind those there are. -/
def unquoteAll (ks args : List Node) : Run (List Node) :=
  args.foldlM (fun ks arg => do
    return ks ++ [← unquoteWith rec e (arg.filledLast ks)]) ks

end

section

variable {rec : Node → ℕ → Run (Option Value)} {e : ℕ} {n m c arg : Node}
  {ks args ns : List Node} {s s' s₁ : Store}

lemma unquoteAll_append (ks as bs : List Node) :
    unquoteAll rec e ks (as ++ bs) =
      unquoteAll rec e ks as >>= fun ks => unquoteAll rec e ks bs :=
  List.foldlM_append

lemma unquoteAll_concat (ks as : List Node) (arg : Node) :
    unquoteAll rec e ks (as ++ [arg]) =
      unquoteAll rec e ks as >>= fun ks =>
        unquoteWith rec e (arg.filledLast ks) >>= fun k =>
          pure (ks ++ [k]) := by
  simp [unquoteAll]

/-- Each argument adds a tree. -/
lemma unquoteAll_inv (h : unquoteAll rec e ks args s = some (.ok ns, s')) :
    ∃ ls, ns = ks ++ ls ∧ ls.length = args.length := by
  induction args using List.reverseRecOn generalizing ns s' with
  | nil =>
      cases h
      exact ⟨[], (List.append_nil _).symm, rfl⟩
  | append_singleton args arg ih =>
      rw [unquoteAll_concat] at h
      obtain ⟨ms, s₁, hms, hrest⟩ := bind_ok_inv h
      obtain ⟨k, s₂, -, hpure⟩ := bind_ok_inv hrest
      cases hpure
      obtain ⟨ls, rfl, hls⟩ := ih hms
      exact ⟨ls ++ [k], List.append_assoc _ _ _, by simp [hls]⟩

/-! ### The rule -/

lemma exists_ident {callee : Node} {form : SpecialForm}
    (h : SpecialForm.ofCallee? callee = some form) :
    ∃ u, callee = .ident u := by
  cases callee with
  | ident u => exact ⟨u, rfl⟩
  | _ => cases h

lemma replaceUnquote_of_none (h : m.unquoted? = none) :
    replaceUnquote rec e m = pure m := by
  rcases replaceUnquote_cases m with ⟨t, callee, arg, rfl, hcallee, -⟩ | hrule
  · rw [Node.unquoted?, if_pos hcallee] at h
    cases h
  · exact hrule rec e

/-- The children of a tree are quoted in the same way. -/
lemma Node.CalleesStay.child {pre post cs : List Node}
    (h : n.CalleesStay rec e s) (hc : n.children = pre ++ c :: post)
    (hpre : Node.transformList (replaceUnquote rec e) pre s =
      some (.ok cs, s₁)) : c.CalleesStay rec e s₁ :=
  fun t callee args _ hreach => h t callee args _ (.inside hc hpre hreach)

lemma Node.CalleesStay.argument {t u : Token} {a : Node}
    (h : (Node.call t (.ident u) [a]).CalleesStay rec e s) :
    a.CalleesStay rec e s :=
  have hchildren : (Node.call t (.ident u) [a]).children =
      [.ident u] ++ a :: [] := rfl
  h.child hchildren rfl

/-- What is no call of `unquote` on one argument becomes none. -/
lemma Node.CalleesStay.rebuilt {cs : List Node} (h : n.CalleesStay rec e s)
    (hn : n.unquoted? = none)
    (hcs : Node.transformList (replaceUnquote rec e) n.children s =
      some (.ok cs, s')) : (n.withChildren cs).unquoted? = none := by
  rcases hm : (n.withChildren cs).unquoted? with _ | arg
  · rfl
  obtain ⟨t, callee, hcall, hcallee⟩ := Node.unquoted?_inv hm
  have hkind : n.kind = .call := by
    rw [← Node.kind_withChildren n cs, hcall]
    rfl
  obtain ⟨u, written, as, rfl⟩ : ∃ u written as, n = .call u written as := by
    cases n with
    | call u written as => exact ⟨u, written, as, rfl⟩
    | _ => cases hkind
  obtain ⟨k, ds, s₁, rfl, hk, hds⟩ := Node.transformList_cons_inv hcs
  obtain ⟨rfl, rfl, rfl⟩ : u = t ∧ k = callee ∧ ds = [arg] := by
    simpa [Node.withChildren] using hcall
  have hwritten := h _ _ _ s (.here _ s) _ _ hk hcallee
  obtain ⟨a, rfl⟩ :=
    List.length_eq_one_iff.mp (Node.length_of_transformList hds).symm
  rw [Node.unquoted?, if_pos hwritten] at hn
  cases hn

/-! ### Trees without a call of `unquote` as a callee -/

/-- No callee in a tree is a call of `unquote` on one argument. -/
inductive Node.PlainCallees : Node → Prop where
  | node {n : Node}
      (hn : ∀ t callee args, n = .call t callee args →
        callee.unquoted? = Option.none)
      (hchildren : ∀ m ∈ n.children, PlainCallees m) : PlainCallees n

/-- What is quoted and is no call of `unquote` is a name only if it was. -/
lemma Node.CalleesStay.eq_of_ident {k : Node} {form : SpecialForm}
    (h : n.CalleesStay rec e s) (hn : n.unquoted? = none)
    (hk : quoteWith rec e n s = some (.ok k, s'))
    (hform : SpecialForm.ofCallee? k = some form) : n = k := by
  obtain ⟨u, rfl⟩ := exists_ident hform
  by_cases hmissing : n = .missing
  · rw [hmissing] at hk
    cases hk
  obtain ⟨cs, s₁, hcs, hrule⟩ := Node.transformM_inv hmissing hk
  rw [replaceUnquote_of_none (h.rebuilt hn hcs)] at hrule
  have hrebuilt : n.withChildren cs = .ident u :=
    Except.ok.inj (Prod.mk.inj (Option.some.inj hrule)).1
  have hkind : n.kind = .ident := by
    rw [← Node.kind_withChildren n cs, hrebuilt]
    rfl
  cases n with
  | ident w => exact hrebuilt
  | _ => cases hkind

/-- So nothing is put into the place of a callee. -/
theorem Node.PlainCallees.calleesStay (h : n.PlainCallees)
    (rec : Node → ℕ → Run (Option Value)) (e : ℕ) (s : Store) :
    n.CalleesStay rec e s := by
  induction h generalizing s with
  | @node n hn hchildren ih =>
      intro t callee args s₁ hreach k s₂ hk hform
      cases hreach with
      | here =>
          have hmem : callee ∈ (Node.call t callee args).children :=
            List.mem_cons_self
          have hsame := (ih callee hmem s).eq_of_ident (hn _ _ _ rfl) hk hform
          rw [hsame]
          exact hform
      | @inside _ c _ pre post cs _ s₂ _ hc hpre hm =>
          have hmem : c ∈ n.children := by
            rw [hc]
            exact List.mem_append_right _ List.mem_cons_self
          exact ih c hmem s₂ t callee args s₁ hm k _ hk hform

/-- A tree without calls of `unquote` on one argument has none as a callee. -/
lemma Node.plainCallees_of_unquotes (h : n.unquotes = []) :
    n.PlainCallees := by
  have hnone : ∀ m : Node, m.unquotes = [] → m.unquoted? = none := by
    intro m hm
    rcases hwritten : m.unquoted? with _ | a
    · rfl
    · rw [unquotes_of_unquoted hwritten] at hm
      simp at hm
  induction n using Node.children_induct with
  | step n ih =>
      have hchildren : ∀ m ∈ n.children, m.unquotes = [] := by
        rw [unquotes_eq (hnone n h), List.flatMap_eq_nil_iff] at h
        exact h
      refine .node ?_ fun m hm => ih m hm (hchildren m hm)
      rintro t callee args rfl
      exact hnone callee (hchildren callee List.mem_cons_self)

/-! ### Quoting -/

/-- Several trees are quoted one after the other if each is. -/
lemma transformList_eq
    (hns : ∀ pre n post cs s₁, ns = pre ++ n :: post →
      Node.transformList (replaceUnquote rec e) pre s = some (.ok cs, s₁) →
      ∀ ks, quoteWith rec e n s₁ =
        (unquoteAll rec e ks n.unquotes >>= fun ls =>
          pure (n.filled (ls.drop ks.length))) s₁) (ks : List Node) :
    Node.transformList (replaceUnquote rec e) ns s =
      (unquoteAll rec e ks (ns.flatMap Node.unquotes) >>= fun ls =>
        pure (Node.filledList ns (ls.drop ks.length))) s := by
  -- the trees of the values are collected in `ks`, and those that belong to
  -- this part are the ones behind those that were there
  induction ns generalizing ks s with
  | nil => rfl
  | cons n ns ih =>
      have hn := hns [] n ns [] s rfl rfl ks
      rw [List.flatMap_cons, unquoteAll_append, bind_assoc]
      refine (bind_congr hn fun _ _ _ => rfl).trans ?_
      rw [bind_assoc]
      simp only [pure_bind]
      refine bind_congr rfl fun ls s₁ hls => ?_
      rw [bind_ok hls] at hn
      have hrest := ih (fun pre m post cs s₂ hsplit hpre =>
        hns (n :: pre) m post (n.filled (ls.drop ks.length) :: cs) s₂
          (by rw [hsplit]; rfl) ((bind_ok hn).trans (bind_ok hpre))) ls
      refine (bind_congr hrest fun _ _ _ => rfl).trans ?_
      rw [bind_assoc]
      simp only [pure_bind]
      refine bind_congr rfl fun ms s₂ hms => ?_
      obtain ⟨as, rfl, has⟩ := unquoteAll_inv hls
      obtain ⟨bs, rfl, -⟩ := unquoteAll_inv hms
      rw [List.drop_left, List.drop_left, List.append_assoc, List.drop_left,
        Node.filledList_cons has]

/-- The argument of a call of `unquote` is quoted before it is evaluated. -/
lemma quoteWith_unquoted (h : n.unquoted? = some arg) :
    quoteWith rec e n = quoteWith rec e arg >>= unquoteWith rec e := by
  obtain ⟨t, callee, rfl, hcallee⟩ := Node.unquoted?_inv h
  obtain ⟨u, rfl⟩ := exists_ident hcallee
  have hcall : quoteWith rec e (.call t (.ident u) [arg]) =
      quoteWith rec e arg >>= fun a =>
        replaceUnquote rec e (.call t (.ident u) [a]) := by
    simp [quoteWith, Node.transformM, Node.transformList, replaceUnquote]
  rw [hcall]
  refine congrArg _ (funext fun a => ?_)
  exact if_pos hcallee

/-- **Quoting.**  A tree is quoted by evaluating the arguments of its calls of
`unquote` one after the other, each with the calls inside it replaced, and
putting the trees of their values in place of the calls. -/
theorem quoteWith_eq (h : n.CalleesStay rec e s) (ks : List Node) :
    quoteWith rec e n s =
      (unquoteAll rec e ks n.unquotes >>= fun ls =>
        pure (n.filled (ls.drop ks.length))) s := by
  induction n using Node.children_induct generalizing s ks with
  | step n ih =>
      by_cases hmissing : n = .missing
      · rw [hmissing]
        rfl
      -- children may be quoted in the store that those before them leave
      have hchild : ∀ pre c post cs s₁, n.children = pre ++ c :: post →
          Node.transformList (replaceUnquote rec e) pre s =
            some (.ok cs, s₁) →
          ∀ ks, quoteWith rec e c s₁ =
            (unquoteAll rec e ks c.unquotes >>= fun ls =>
              pure (c.filled (ls.drop ks.length))) s₁ := by
        intro pre c post cs s₁ hc hpre ks
        have hmem : c ∈ n.children := by
          rw [hc]
          exact List.mem_append_right _ List.mem_cons_self
        exact ih c hmem (h.child hc hpre) ks
      cases hn : n.unquoted? with
      -- a call of `unquote`: first what it contains, then its argument, the
      -- tree of which is the last one that is put
      | some arg =>
          obtain ⟨t, callee, rfl, hcallee⟩ := Node.unquoted?_inv hn
          obtain ⟨u, rfl⟩ := exists_ident hcallee
          have harg := hchild [.ident u] arg [] [.ident u] s rfl rfl ks
          have hquote : quoteWith rec e (.call t (.ident u) [arg]) =
              quoteWith rec e arg >>= unquoteWith rec e :=
            quoteWith_unquoted hn
          rw [hquote, Node.unquotes_of_unquoted hn, unquoteAll_concat,
            bind_assoc]
          refine (bind_congr harg fun _ _ _ => rfl).trans ?_
          rw [bind_assoc]
          simp only [pure_bind, bind_assoc]
          refine bind_congr rfl fun ls s₁ hls => ?_
          obtain ⟨as, rfl, has⟩ := unquoteAll_inv hls
          have hk : ∀ k, (Node.call t (.ident u) [arg]).filled
              ((ks ++ as ++ [k]).drop ks.length) = k := by
            intro k
            rw [List.append_assoc, List.drop_left,
              Node.filled_of_unquoted hn has]
          rw [List.drop_left, Node.filledLast_append ks has]
          simp only [hk, bind_pure]
      -- no call of `unquote`, neither before nor after its children were
      -- replaced, so it is rebuilt from these
      | none =>
          rw [quoteWith, Node.transformM_eq _ hmissing, Node.unquotes_eq hn]
          have hlist := transformList_eq hchild ks
          refine (bind_congr hlist fun _ _ _ => rfl).trans ?_
          rw [bind_assoc]
          simp only [pure_bind]
          refine bind_congr rfl fun ls s₁ hls => ?_
          have hnone := h.rebuilt hn (hlist.trans (bind_ok hls))
          rw [replaceUnquote_of_none hnone, Node.filled_eq hn]

end

end MonkeyLang

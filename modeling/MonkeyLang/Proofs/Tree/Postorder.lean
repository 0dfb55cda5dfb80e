/-
Changing a tree as one walk over its nodes.

* `Node.postorder`: the nodes of a tree, children first and from left to right,
  without absent ones and without the names of `let` statements;
* `Node.visit`: hands a node to a rule, with the answers for its children in
  their places, and puts the answer on top of those not used yet;
* `foldlM_postorder`: changing a tree visits its nodes one after the other;
* `Node.LeafRule`, `LeafRule.fused`: a rule that changes only leaves into leaves,
  and a rule behind it, make one rule, as far as the effects of the two may be
  exchanged;
* `transformM_fold`: all of this for any rule and any kind of effects.
-/
import MonkeyLang.Proofs.Tree.Children

namespace MonkeyLang.Node

/-! ### The nodes of a tree -/

mutual

/-- The nodes of a tree, each behind its children, and these from left to
right. -/
def postorder : Node → List Node
  | missing => []
  | program ss => postorderList ss ++ [program ss]
  | letStmt t name v => postorder v ++ [letStmt t name v]
  | returnStmt t v => postorder v ++ [returnStmt t v]
  | exprStmt t v => postorder v ++ [exprStmt t v]
  | block t ss => postorderList ss ++ [block t ss]
  | ident t => [ident t]
  | intLit t n => [intLit t n]
  | boolLit t b => [boolLit t b]
  | strLit t => [strLit t]
  | prefixOp t r => postorder r ++ [prefixOp t r]
  | infixOp t l r => postorder l ++ postorder r ++ [infixOp t l r]
  | conditional t c a b =>
    postorder c ++ postorder a ++ postorder b ++ [conditional t c a b]
  | function t ps b => postorderList ps ++ postorder b ++ [function t ps b]
  | macroFn t ps b => postorderList ps ++ postorder b ++ [macroFn t ps b]
  | call t c as => postorder c ++ postorderList as ++ [call t c as]
  | array t es => postorderList es ++ [array t es]
  | index t l i => postorder l ++ postorder i ++ [index t l i]
  | hash t ps => postorderPairs ps ++ [hash t ps]

/-- Those of several trees, one after the other. -/
def postorderList : List Node → List Node
  | [] => []
  | n :: ns => postorder n ++ postorderList ns

/-- Those of the entries of a hash literal, each key before its value. -/
def postorderPairs : List (Node × Node) → List Node
  | [] => []
  | (k, v) :: ps => postorder k ++ postorder v ++ postorderPairs ps

end

lemma postorderList_eq (ns : List Node) :
    postorderList ns = ns.flatMap postorder := by
  induction ns with
  | nil => rfl
  | cons n ns ih => rw [postorderList, ih, List.flatMap_cons]

lemma postorderPairs_eq (ps : List (Node × Node)) :
    postorderPairs ps =
      (ps.flatMap fun p => [p.1, p.2]).flatMap postorder := by
  induction ps with
  | nil => rfl
  | cons p ps ih =>
      obtain ⟨k, v⟩ := p
      rw [postorderPairs, ih]
      simp

/-- The nodes of a tree are those of its children and then its root. -/
lemma postorder_eq {n : Node} (hn : n ≠ missing) :
    n.postorder = n.children.flatMap postorder ++ [n] := by
  cases n with
  | missing => exact absurd rfl hn
  | _ => simp [postorder, children, postorderList_eq, postorderPairs_eq]

/-- What holds of all nodes of a tree holds of all nodes of its children. -/
lemma mem_postorder_child {n c m : Node} (hc : c ∈ n.children)
    (hm : m ∈ c.postorder) : m ∈ n.postorder := by
  have hn : n ≠ missing := by
    rintro rfl
    cases hc
  rw [postorder_eq hn]
  exact List.mem_append_left _ (List.mem_flatMap.mpr ⟨c, hc, hm⟩)

/-- A tree is the last of its nodes. -/
lemma mem_postorder_self {n : Node} (hn : n ≠ missing) : n ∈ n.postorder := by
  rw [postorder_eq hn]
  exact List.mem_append_right _ List.mem_cons_self

/-! ### The walk -/

/-- Whether there is a node. -/
def present (n : Node) : Bool := !n.isMissing

lemma present_iff {n : Node} : n.present = true ↔ n ≠ missing := by
  cases n <;> simp [present, isMissing]

/-- The answers in the places of the children that are there. -/
def refill : List Node → List Node → List Node
  | missing :: cs, as => missing :: refill cs as
  | _ :: cs, a :: as => a :: refill cs as
  | _, _ => []

lemma refill_cons {c : Node} (hc : c ≠ missing) (cs : List Node) (a : Node)
    (as : List Node) : refill (c :: cs) (a :: as) = a :: refill cs as := by
  cases c with
  | missing => exact absurd rfl hc
  | _ => rfl

section

variable {m : Type → Type} [Monad m]

/-- Hands a node to the rule, with the last answers in the places of its
children; its own answer takes the place of these. -/
def visit (f : Node → m Node) (answers : List Node) (n : Node) :
    m (List Node) := do
  let count := (n.children.filter present).length
  let answer ← f (n.withChildren
    (refill n.children (answers.take count).reverse))
  pure (answer :: answers.drop count)

variable [LawfulMonad m] (f : Node → m Node)

/-- Of changed trees there are as many as before. -/
lemma transformList_bind_congr {α : Type} {ns : List Node}
    {k k' : List Node → m α}
    (h : ∀ as : List Node, as.length = ns.length → k as = k' as) :
    transformList f ns >>= k = transformList f ns >>= k' := by
  induction ns generalizing k k' with
  | nil => simp only [transformList, pure_bind, h [] rfl]
  | cons n ns ih =>
      simp only [transformList, bind_assoc, pure_bind]
      refine bind_congr fun a => ih fun as has => h (a :: as) ?_
      rw [List.length_cons, has, List.length_cons]

/-- Absent trees stay absent, whatever becomes of the others. -/
lemma transformList_filter (ns : List Node) :
    transformList f ns =
      transformList f (ns.filter present) >>= fun as => pure (refill ns as) := by
  induction ns with
  | nil => simp [transformList, refill]
  | cons n ns ih =>
      by_cases hn : n = missing
      · subst hn
        rw [List.filter_cons_of_neg (by decide), transformList, ih]
        simp [transformM, refill]
      · rw [List.filter_cons_of_pos (present_iff.mpr hn), transformList,
          transformList, ih]
        simp [refill_cons hn]

/-- The nodes of several trees are visited as those of each one are. -/
lemma foldlM_flatMap_postorder {ns : List Node}
    (h : ∀ n ∈ ns, n ≠ missing → ∀ answers,
      n.postorder.foldlM (visit f) answers =
        transformM f n >>= fun a => pure (a :: answers)) (answers : List Node) :
    (ns.flatMap postorder).foldlM (visit f) answers =
      transformList f (ns.filter present) >>= fun as =>
        pure (as.reverse ++ answers) := by
  induction ns generalizing answers with
  | nil => simp [transformList]
  | cons n ns ih =>
      obtain ⟨hn, hns⟩ := List.forall_mem_cons.mp h
      rw [List.flatMap_cons, List.foldlM_append]
      by_cases hmissing : n = missing
      · subst hmissing
        rw [List.filter_cons_of_neg (by decide), ← ih hns]
        exact pure_bind _ _
      · rw [List.filter_cons_of_pos (present_iff.mpr hmissing), transformList,
          hn hmissing]
        simp [ih hns]

/-- **The walk.**  Changing a tree visits its nodes one after the other, and the
answer for the root is on top of the others in the end. -/
lemma foldlM_postorder (n : Node) (hn : n ≠ missing) (answers : List Node) :
    n.postorder.foldlM (visit f) answers =
      transformM f n >>= fun a => pure (a :: answers) := by
  induction n using children_induct generalizing answers with
  | step n ih =>
    rw [postorder_eq hn, List.foldlM_append,
      foldlM_flatMap_postorder f fun c hc hmissing => ih c hc hmissing,
      transformM_eq f hn, transformList_filter f n.children, bind_assoc,
      bind_assoc, bind_assoc]
    refine transformList_bind_congr f fun as has => ?_
    -- the answers on top are those for the children of this node
    have htake : ((as.reverse ++ answers).take as.length).reverse = as := by
      rw [List.take_left' as.length_reverse, List.reverse_reverse]
    have hdrop : (as.reverse ++ answers).drop as.length = answers :=
      List.drop_left' as.length_reverse
    simp only [pure_bind, List.foldlM_cons, List.foldlM_nil, bind_pure, visit,
      ← has, htake, hdrop]

end

/-! ### Rules for leaves -/

/-- Identifiers and literals. -/
def IsLeaf (n : Node) : Prop :=
  n.kind ∈ [Kind.ident, .intLit, .boolLit, .strLit]

lemma IsLeaf.children_eq {n : Node} (hn : n.IsLeaf) : n.children = [] := by
  cases n with
  | ident | intLit | boolLit | strLit => rfl
  | _ => exact absurd hn (by simp [IsLeaf, kind])

lemma IsLeaf.ne_missing {n : Node} (hn : n.IsLeaf) : n ≠ missing := by
  rintro rfl
  exact absurd hn (by simp [IsLeaf, kind])

lemma isLeaf_withChildren (n : Node) (cs : List Node) :
    (n.withChildren cs).IsLeaf ↔ n.IsLeaf := by
  rw [IsLeaf, kind_withChildren, IsLeaf]

section

variable {m : Type → Type} [Monad m]

/-- A leaf is only handed to the rule. -/
lemma IsLeaf.transformM_eq [LawfulMonad m] {n : Node} (hn : n.IsLeaf)
    (f : Node → m Node) : transformM f n = f n := by
  have hself : n.withChildren [] = n := by
    rw [← hn.children_eq, withChildren_children]
  rw [Node.transformM_eq f hn.ne_missing, hn.children_eq, transformList,
    pure_bind, hself]

/-- A rule that changes only leaves, and these into leaves. -/
structure LeafRule (f : Node → m Node) : Prop where
  leaf : ∀ n, n.IsLeaf → ∃ x : m {k : Node // k.IsLeaf}, f n = Subtype.val <$> x
  other : ∀ n, ¬ n.IsLeaf → f n = pure n

/-- Two effects that may be exchanged. -/
def Exchange {α β : Type} (x : m α) (y : m β) : Prop :=
  (x >>= fun a => y >>= fun b => pure (a, b)) =
    y >>= fun b => x >>= fun a => pure (a, b)

end

section

variable {m : Type → Type} [Monad m] [LawfulMonad m] {α β γ : Type}

lemma Exchange.symm {x : m α} {y : m β} (h : Exchange x y) : Exchange y x := by
  have hswap := congrArg (· >>= fun p : α × β => pure (p.2, p.1)) h
  simp only [bind_assoc, pure_bind] at hswap
  exact hswap.symm

/-- Exchanged effects, whatever comes behind them. -/
lemma Exchange.bind_bind {x : m α} {y : m β} (h : Exchange x y)
    (k : α → β → m γ) :
    (x >>= fun a => y >>= fun b => k a b) =
      y >>= fun b => x >>= fun a => k a b := by
  have hbehind := congrArg (· >>= fun p : α × β => k p.1 p.2) h
  simpa only [bind_assoc, pure_bind] using hbehind

lemma exchange_pure (x : m α) (b : β) : Exchange x (pure b) := by
  simp [Exchange]

lemma Exchange.bind {x : m α} {y : m β} (h : Exchange x y) {k : β → m γ}
    (hk : ∀ b, Exchange x (k b)) : Exchange x (y >>= k) := by
  show (x >>= fun a => (y >>= k) >>= fun c => pure (a, c)) =
    (y >>= k) >>= fun c => x >>= fun a => pure (a, c)
  rw [bind_assoc]
  simp only [bind_assoc]
  rw [h.bind_bind]
  exact bind_congr fun b => hk b

variable {f g : Node → m Node}

/-- What may be exchanged with changing each of several trees may be exchanged
with changing all of them. -/
lemma Exchange.transformList {x : m α} {ns : List Node}
    (h : ∀ n ∈ ns, Exchange x (transformM f n)) :
    Exchange x (transformList f ns) := by
  induction ns with
  | nil => exact exchange_pure x _
  | cons n ns ih =>
      obtain ⟨hn, hns⟩ := List.forall_mem_cons.mp h
      rw [Node.transformList]
      exact hn.bind fun a => (ih hns).bind fun as => exchange_pure x _

/-- What may be exchanged with all that a rule does may be exchanged with
changing a tree by it. -/
lemma Exchange.transformM {x : m α} (h : ∀ n, Exchange x (f n)) (n : Node) :
    Exchange x (transformM f n) := by
  induction n using children_induct with
  | step n ih =>
    by_cases hn : n = missing
    · subst hn
      exact exchange_pure x _
    · rw [Node.transformM_eq f hn]
      exact (Exchange.transformList ih).bind fun cs => h _

/-- **Fusion.**  Changing a tree by a rule for leaves and then by another rule is
changing it once, by one rule behind the other, if their effects may be
exchanged. -/
theorem LeafRule.fused (hf : LeafRule f) (hfg : ∀ a b, Exchange (f a) (g b))
    (n : Node) : Node.transformM f n >>= Node.transformM g =
      Node.transformM (fun k => f k >>= g) n := by
  induction n using children_induct with
  | step n ih =>
    by_cases hleaf : n.IsLeaf
    · obtain ⟨x, hx⟩ := hf.leaf n hleaf
      rw [hleaf.transformM_eq, hleaf.transformM_eq, hx, bind_map_left,
        bind_map_left]
      exact bind_congr fun k => k.2.transformM_eq g
    by_cases hn : n = missing
    · subst hn
      exact pure_bind _ _
    have hswap : ∀ ns a, Exchange (transformList f ns) (transformM g a) :=
      fun ns => Exchange.transformM fun b => Exchange.symm <|
        Exchange.transformList fun c _ =>
          Exchange.transformM (fun a => (hfg a b).symm) c
    -- the first rule is done with all children before the second one begins
    have hlist : ∀ ns : List Node, (∀ c ∈ ns, c ∈ n.children) →
        transformList f ns >>= transformList g =
          transformList (fun k => f k >>= g) ns := by
      intro ns hns
      induction ns with
      | nil => exact pure_bind _ _
      | cons c ns ihns =>
          obtain ⟨hc, hns⟩ := List.forall_mem_cons.mp hns
          simp only [transformList, bind_assoc, pure_bind, ← ih c hc,
            ← ihns hns]
          exact bind_congr fun a => (hswap ns a).bind_bind _
    rw [transformM_eq f hn, transformM_eq _ hn, ← hlist _ fun _ => id,
      bind_assoc, bind_assoc]
    refine transformList_bind_congr f fun cs hcs => ?_
    have hother : ∀ ds, f (n.withChildren ds) = pure (n.withChildren ds) :=
      fun ds => hf.other _ (mt (isLeaf_withChildren n ds).mp hleaf)
    rw [hother, pure_bind, transformM_eq g (withChildren_ne_missing hn cs),
      children_withChildren hcs]
    refine transformList_bind_congr g fun ds hds => ?_
    rw [hother, pure_bind, withChildren_withChildren hcs (hds.trans hcs)]

/-- Without effects a rule is applied the same way among effects. -/
lemma transformM_pure_comp (f : Node → Node) (n : Node) :
    n.transformM (fun k => pure (f k)) = (pure (n.transform f) : m Node) :=
  transformM_hom (fun x : Id _ => (pure x.run : m _)) (fun _ => rfl)
    (fun x k => (pure_bind x.run fun a => pure (k a).run).symm)
    (fun k => pure (f k)) n

/-- A rule without effects that changes only leaves, and these into leaves. -/
lemma leafRule_pure {f : Node → Node}
    (hf : ∀ n, f n ≠ n → n.IsLeaf ∧ (f n).IsLeaf) :
    LeafRule fun n => (pure (f n) : m Node) where
  leaf n hn := by
    have hleaf : (f n).IsLeaf := by
      by_cases hsame : f n = n
      · rwa [hsame]
      · exact (hf n hsame).2
    exact ⟨pure ⟨f n, hleaf⟩, by simp⟩
  other n hn := by
    by_cases hsame : f n = n
    · rw [hsame]
    · exact absurd (hf n hsame).1 hn

end

/-- **Changing a tree is one walk over its nodes.**  Whatever effects a rule has,
it is handed every node once, children first and from left to right, with the
answers for the children in their places, and its last answer is the tree that
is given back.  The rule that changes nothing gives the tree back.  A rule that
changes only leaves into leaves, and any rule behind it, make one rule; with
effects they do if those of the one may be exchanged with those of the other. -/
theorem transformM_fold (m : Type → Type) [Monad m] [LawfulMonad m] :
    (∀ (f : Node → m Node) (n : Node),
      n.transformM f =
        (·.headD missing) <$> n.postorder.foldlM (visit f) []) ∧
    (∀ n : Node, n.transformM (pure : Node → m Node) = pure n ∧
      n.transform id = n) ∧
    (∀ f : Node → Node, (∀ n, f n ≠ n → n.IsLeaf ∧ (f n).IsLeaf) →
      ∀ (g : Node → m Node) (n : Node),
        (n.transform f).transformM g = n.transformM fun k => g (f k)) ∧
    (∀ f g : Node → m Node, LeafRule f → (∀ a b, Exchange (f a) (g b)) →
      ∀ n : Node, n.transformM f >>= transformM g =
        n.transformM fun k => f k >>= g) := by
  refine ⟨fun f n => ?_, fun n => ⟨transformM_pure n, transform_id n⟩,
    fun f hf g n => ?_, fun f g hf hfg n => hf.fused hfg n⟩
  · by_cases hn : n = missing
    · subst hn
      exact (map_pure (f := m) (·.headD missing) []).symm
    · rw [foldlM_postorder f n hn]
      simp
  · have hfused := (leafRule_pure (m := m) hf).fused (g := g)
      (fun a b => (exchange_pure (g b) (f a)).symm) n
    simpa only [transformM_pure_comp, pure_bind] using hfused

/-- The statement `let x = if (a) { 1 };`, which has no alternative. -/
def oneSided : Node :=
  letStmt (.made .letKey "let") (.made .ident "x")
    (conditional (.made .ifKey "if") (ofName "a")
      (block (.made .lbrace "\x7b") [exprStmt (.made .int "1") (ofInt 1)])
      missing)

/-- Notes down the kind of each node that it is handed. -/
def noted (n : Node) : StateM (List Kind) Node :=
  modifyGet fun kinds => (n, kinds ++ [n.kind])

theorem transformM_fold_oneSided :
    oneSided.transformM noted = (·.headD missing) <$>
      oneSided.postorder.foldlM (visit noted) [] ∧
    (oneSided.transformM noted []).2 =
      [.ident, .intLit, .exprStmt, .block, .conditional, .letStmt] ∧
    ((oneSided.transform (Rule.rename "a" "b")).transformM noted =
      oneSided.transformM fun n => noted (Rule.rename "a" "b" n)) := by
  obtain ⟨hwalk, -, hfused, -⟩ := transformM_fold (StateM (List Kind))
  refine ⟨hwalk noted oneSided, rfl, hfused _ (fun n hn => ?_) noted oneSided⟩
  unfold Rule.rename at hn ⊢
  split at hn
  · next t =>
    refine ⟨List.mem_cons_self, ?_⟩
    split <;> exact List.mem_cons_self
  · exact absurd rfl hn

end MonkeyLang.Node

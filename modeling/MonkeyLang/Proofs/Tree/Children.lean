/-
Trees by their children.

* `Node.children`: the children of a node from left to right; the name of a
  `let` is none of them;
* `Node.withChildren`: a node with other children in the same places, and
  `children_withChildren`, `withChildren_withChildren`: these are its children
  then, and may be exchanged again;
* `Node.transformM_eq`: a tree is changed by changing its children and then
  the node rebuilt from them;
* `Node.children_induct`: induction from the children of a node to the node;
* `Node.retoken`: a node with another token, and `Node.Nodewise`: maps of trees
  that do nothing else to each node;
* `Nodewise.children`, `Nodewise.withChildren`: these commute with taking and with
  exchanging children;
* `Node.transformM_hom`: changing trees commutes with what keeps answers and
  what comes behind them.
-/
import MonkeyLang.Tree.Transform
import Mathlib.Data.List.Basic
import Mathlib.Tactic.Common

namespace MonkeyLang.Node

/-! ### Children -/

/-- The children of a node from left to right. -/
def children : Node → List Node
  | program ss | block _ ss => ss
  | letStmt _ _ v | returnStmt _ v | exprStmt _ v => [v]
  | prefixOp _ r => [r]
  | infixOp _ l r => [l, r]
  | conditional _ c a b => [c, a, b]
  | function _ ps b | macroFn _ ps b => ps ++ [b]
  | call _ c as => c :: as
  | array _ es => es
  | index _ l i => [l, i]
  | hash _ ps => ps.flatMap fun p => [p.1, p.2]
  | missing | ident _ | intLit .. | boolLit .. | strLit _ => []

/-- The entries of a hash from its keys and values in turn. -/
def pairUp : List Node → List (Node × Node)
  | k :: v :: ns => (k, v) :: pairUp ns
  | _ => []

/-- A node with other children in the same places. -/
def withChildren : Node → List Node → Node
  | program _, cs => program cs
  | block t _, cs => block t cs
  | letStmt t name _, [v] => letStmt t name v
  | returnStmt t _, [v] => returnStmt t v
  | exprStmt t _, [v] => exprStmt t v
  | prefixOp t _, [r] => prefixOp t r
  | infixOp t _ _, [l, r] => infixOp t l r
  | conditional t _ _ _, [c, a, b] => conditional t c a b
  | function t _ _, cs => function t cs.dropLast (cs.getLastD missing)
  | macroFn t _ _, cs => macroFn t cs.dropLast (cs.getLastD missing)
  | call t _ _, c :: as => call t c as
  | array t _, cs => array t cs
  | index t _ _, [l, i] => index t l i
  | hash t _, cs => hash t (pairUp cs)
  | n, _ => n

/-- What holds of the children of a hash holds of its keys and values. -/
lemma forall_mem_entries {P : Node → Prop} {ps : List (Node × Node)} :
    (∀ m ∈ ps.flatMap fun p => [p.1, p.2], P m) ↔
      ∀ p ∈ ps, P p.1 ∧ P p.2 := by
  induction ps with
  | nil => exact iff_of_true nofun nofun
  | cons p ps ih =>
      rw [List.flatMap_cons, List.forall_mem_append, List.forall_mem_cons,
        List.forall_mem_singleton, List.forall_mem_cons, ih]

lemma pairUp_flatMap (ps : List (Node × Node)) :
    pairUp (ps.flatMap fun p => [p.1, p.2]) = ps := by
  induction ps with
  | nil => rfl
  | cons p ps ih => rw [List.flatMap_cons]; exact congrArg (p :: ·) ih

lemma withChildren_children (n : Node) : n.withChildren n.children = n := by
  cases n with
  | function t ps b =>
      show function t (ps ++ [b]).dropLast ((ps ++ [b]).getLastD missing) = _
      rw [List.dropLast_concat, List.getLastD_concat]
  | macroFn t ps b =>
      show macroFn t (ps ++ [b]).dropLast ((ps ++ [b]).getLastD missing) = _
      rw [List.dropLast_concat, List.getLastD_concat]
  | hash t ps => exact congrArg (hash t) (pairUp_flatMap ps)
  | _ => rfl

lemma flatMap_pairUp {cs : List Node} {k : ℕ} (h : cs.length = 2 * k) :
    (pairUp cs).flatMap (fun p => [p.1, p.2]) = cs := by
  induction cs using pairUp.induct generalizing k with
  | case1 l v ns ih =>
      have hns : ns.length = 2 * (k - 1) := by
        rw [List.length_cons, List.length_cons] at h
        omega
      rw [pairUp, List.flatMap_cons, ih hns]
      rfl
  | case2 ns hns =>
      rcases ns with _ | ⟨c, _ | ⟨d, ns⟩⟩
      · rfl
      · rw [List.length_singleton] at h
        omega
      · exact absurd rfl (hns c d ns)

/-- Other children are those of the node that gets them, if there are as
many. -/
lemma children_withChildren {n : Node} {cs : List Node}
    (h : cs.length = n.children.length) : (n.withChildren cs).children = cs := by
  cases n with
  | missing | ident | intLit | boolLit | strLit =>
      exact (List.length_eq_zero_iff.mp h).symm
  | program | block | array => rfl
  | letStmt | returnStmt | exprStmt | prefixOp =>
      obtain ⟨a, rfl⟩ := List.length_eq_one_iff.mp h
      rfl
  | infixOp | index =>
      obtain ⟨a, b, rfl⟩ := List.length_eq_two.mp h
      rfl
  | conditional =>
      obtain ⟨a, b, c, rfl⟩ := List.length_eq_three.mp h
      rfl
  | function | macroFn =>
      rcases List.eq_nil_or_concat cs with rfl | ⟨ps, b, rfl⟩
      · simp [children] at h
      · show (ps.concat b).dropLast ++ [(ps.concat b).getLastD missing] = _
        simp
  | call =>
      cases cs with
      | nil => cases h
      | cons c as => rfl
  | hash t ps =>
      refine flatMap_pairUp (k := ps.length) (h.trans ?_)
      simp [children, List.length_flatMap, List.map_const', Nat.mul_comm]

/-- Children that are exchanged twice. -/
lemma withChildren_withChildren {n : Node} {cs ds : List Node}
    (h : cs.length = n.children.length) (h' : ds.length = n.children.length) :
    (n.withChildren cs).withChildren ds = n.withChildren ds := by
  cases n with
  | letStmt | returnStmt | exprStmt | prefixOp =>
      obtain ⟨a, rfl⟩ := List.length_eq_one_iff.mp h
      obtain ⟨b, rfl⟩ := List.length_eq_one_iff.mp h'
      rfl
  | infixOp | index =>
      obtain ⟨a, b, rfl⟩ := List.length_eq_two.mp h
      obtain ⟨c, d, rfl⟩ := List.length_eq_two.mp h'
      rfl
  | conditional =>
      obtain ⟨a, b, c, rfl⟩ := List.length_eq_three.mp h
      obtain ⟨d, e, f, rfl⟩ := List.length_eq_three.mp h'
      rfl
  | call =>
      cases cs with
      | nil => cases h
      | cons c as =>
          cases ds with
          | nil => cases h'
          | cons d bs => rfl
  | _ => rfl

lemma mem_of_mem_pairUp {cs : List Node} {n : Node}
    (hn : n ∈ (pairUp cs).flatMap fun p => [p.1, p.2]) : n ∈ cs := by
  induction cs using pairUp.induct with
  | case1 k v ns ih =>
      have hcases : n = k ∨ n = v ∨
          n ∈ (pairUp ns).flatMap fun p => [p.1, p.2] := by
        simpa [pairUp] using hn
      rcases hcases with rfl | rfl | hn
      · exact List.mem_cons_self
      · exact List.mem_cons_of_mem k List.mem_cons_self
      · exact List.mem_cons_of_mem k (List.mem_cons_of_mem v (ih hn))
  | case2 ns hns =>
      rw [pairUp.eq_2 ns hns] at hn
      cases hn

/-- The children of a tree with other children are among the new ones, among
the old ones, or absent. -/
lemma mem_children_withChildren {n m : Node} {cs : List Node}
    (hm : m ∈ (n.withChildren cs).children) :
    m ∈ cs ∨ m ∈ n.children ∨ m = missing := by
  unfold withChildren at hm
  split at hm
  case h_9 | h_10 =>
    rcases List.mem_append.mp hm with hm | hm
    · exact Or.inl (List.dropLast_subset cs hm)
    · rw [List.mem_singleton.mp hm]
      rcases List.eq_nil_or_concat cs with rfl | ⟨ps, b, rfl⟩
      · exact Or.inr (Or.inr rfl)
      · exact Or.inl (by simp)
  case h_14 => exact Or.inl (mem_of_mem_pairUp hm)
  case h_15 => exact Or.inr (Or.inl hm)
  all_goals exact Or.inl hm

/-- Other children make no other kind of node. -/
lemma kind_withChildren (n : Node) (cs : List Node) :
    (n.withChildren cs).kind = n.kind := by
  cases n with
  | letStmt | returnStmt | exprStmt | prefixOp =>
      rcases cs with _ | ⟨a, _ | _⟩ <;> rfl
  | infixOp | index =>
      rcases cs with _ | ⟨a, _ | ⟨b, _ | _⟩⟩ <;> rfl
  | conditional =>
      rcases cs with _ | ⟨a, _ | ⟨b, _ | ⟨c, _ | _⟩⟩⟩ <;> rfl
  | call => cases cs <;> rfl
  | _ => rfl

/-- A node is there with other children, too. -/
lemma withChildren_ne_missing {n : Node} (hn : n ≠ missing) (cs : List Node) :
    n.withChildren cs ≠ missing := by
  intro h
  have hkind := kind_withChildren n cs
  rw [h] at hkind
  cases n <;> first | exact hn rfl | cases hkind

/-- A leaf with other children is that leaf. -/
lemma withChildren_eq_intLit {n : Node} {cs : List Node} {t : Token} {k : Int}
    (h : n.withChildren cs = intLit t k) : n = intLit t k := by
  have hkind := kind_withChildren n cs
  rw [h] at hkind
  cases n <;> cases hkind
  exact h

/-! ### Maps that go node by node -/

/-- A node with another token, by its kind, and with another name if it is a
`let`. -/
def retoken (f : Kind → Token → Token) (g : Token → Token) : Node → Node
  | missing => missing
  | program ss => program ss
  | letStmt t name v => letStmt (f .letStmt t) (g name) v
  | returnStmt t v => returnStmt (f .returnStmt t) v
  | exprStmt t v => exprStmt (f .exprStmt t) v
  | block t ss => block (f .block t) ss
  | ident t => ident (f .ident t)
  | intLit t n => intLit (f .intLit t) n
  | boolLit t b => boolLit (f .boolLit t) b
  | strLit t => strLit (f .strLit t)
  | prefixOp t r => prefixOp (f .prefixOp t) r
  | infixOp t l r => infixOp (f .infixOp t) l r
  | conditional t c a b => conditional (f .conditional t) c a b
  | function t ps b => function (f .function t) ps b
  | macroFn t ps b => macroFn (f .macroFn t) ps b
  | call t c as => call (f .call t) c as
  | array t es => array (f .array t) es
  | index t l i => index (f .index t) l i
  | hash t ps => hash (f .hash t) ps

/-- A map of trees that goes node by node: it changes the tokens of a node and
maps the children. -/
def Nodewise (f : Kind → Token → Token) (g : Token → Token)
    (F : Node → Node) : Prop :=
  ∀ n, F n = (n.retoken f g).withChildren (n.children.map F)

section

variable {f : Kind → Token → Token} {g : Token → Token} {F : Node → Node}

lemma kind_retoken (n : Node) : (n.retoken f g).kind = n.kind := by
  cases n <;> rfl

lemma children_retoken (n : Node) : (n.retoken f g).children = n.children := by
  cases n <;> rfl

lemma pairUp_map (F : Node → Node) (cs : List Node) :
    pairUp (cs.map F) = (pairUp cs).map fun p => (F p.1, F p.2) := by
  induction cs using pairUp.induct with
  | case1 k v ns ih =>
      rw [List.map_cons, List.map_cons, pairUp, ih]
      rfl
  | case2 ns hns =>
      rw [pairUp.eq_2 ns hns, pairUp.eq_2]
      · rfl
      rintro k v ms hms
      obtain _ | ⟨a, _ | ⟨b, rest⟩⟩ := ns
      · cases hms
      · cases hms
      · exact hns a b rest rfl

lemma withChildren_map_function (t : Token) (ps : List Node) (b : Node) :
    (function t ps b).withChildren ((ps ++ [b]).map F) =
      function t (ps.map F) (F b) := by
  rw [List.map_append, withChildren]
  simp

lemma withChildren_map_macroFn (t : Token) (ps : List Node) (b : Node) :
    (macroFn t ps b).withChildren ((ps ++ [b]).map F) =
      macroFn t (ps.map F) (F b) := by
  rw [List.map_append, withChildren]
  simp

lemma withChildren_map_hash (t : Token) (ps : List (Node × Node)) :
    (hash t ps).withChildren ((ps.flatMap fun p => [p.1, p.2]).map F) =
      hash t (ps.map fun p => (F p.1, F p.2)) := by
  rw [withChildren, pairUp_map, pairUp_flatMap]

namespace Nodewise

variable (h : Nodewise f g F)

include h

lemma kind (n : Node) : (F n).kind = n.kind := by
  rw [h n, kind_withChildren, kind_retoken]

lemma isMissing (n : Node) : (F n).isMissing = n.isMissing := by
  have hkind := h.kind n
  cases hn : F n <;> rw [hn] at hkind <;> cases n <;> cases hkind <;> rfl

lemma ne_missing {n : Node} (hn : n ≠ missing) : F n ≠ missing := by
  intro hmissing
  have hkind := h.kind n
  rw [hmissing] at hkind
  cases n <;> first | exact hn rfl | cases hkind

/-- The children of a node that is mapped. -/
lemma children (n : Node) : (F n).children = n.children.map F := by
  rw [h n, children_withChildren]
  rw [children_retoken, List.length_map]

/-- A node gets other children before or after it is mapped. -/
theorem withChildren (n : Node) (cs : List Node) :
    F (n.withChildren cs) = (F n).withChildren (cs.map F) := by
  have hmissing : F missing = missing := h missing
  -- the body of a function is the last child, or a missing node if there is
  -- none
  have hlast : F (cs.getLastD missing) = (cs.map F).getLastD missing := by
    rcases List.eq_nil_or_concat cs with rfl | ⟨ds, d, rfl⟩
    · exact hmissing
    · simp
  rw [h (n.withChildren cs), h n]
  cases n with
  | missing | ident | intLit | boolLit | strLit | program | block | array => rfl
  | letStmt | returnStmt | exprStmt | prefixOp =>
      obtain _ | ⟨a, _ | ⟨b, cs⟩⟩ := cs <;> rfl
  | infixOp | index =>
      obtain _ | ⟨a, _ | ⟨b, _ | ⟨c, cs⟩⟩⟩ := cs <;> rfl
  | conditional =>
      obtain _ | ⟨a, _ | ⟨b, _ | ⟨c, _ | ⟨d, cs⟩⟩⟩⟩ := cs <;> rfl
  | call => cases cs <;> rfl
  | function t ps b =>
      show (function _ _ _).withChildren ((_ ++ [_]).map F) = _
      rw [withChildren_map_function, hlast, List.map_dropLast]
      rfl
  | macroFn t ps b =>
      show (macroFn _ _ _).withChildren ((_ ++ [_]).map F) = _
      rw [withChildren_map_macroFn, hlast, List.map_dropLast]
      rfl
  | hash t ps =>
      show (hash _ _).withChildren (List.map F (List.flatMap _ _)) = _
      rw [withChildren_map_hash, ← pairUp_map]
      rfl

end Nodewise

end

/-! ### Changing trees -/

section

variable {m : Type → Type} [Monad m] [LawfulMonad m] (f : Node → m Node)

lemma transformList_concat (ns : List Node) (n : Node) :
    transformList f (ns ++ [n]) =
      transformList f ns >>= fun ns =>
        transformM f n >>= fun n => pure (ns ++ [n]) := by
  induction ns with
  | nil => simp [transformList]
  | cons a ns ih => simp [transformList, ih]

lemma transformList_flatMap (ps : List (Node × Node)) :
    transformList f (ps.flatMap fun p => [p.1, p.2]) =
      transformPairs f ps >>= fun ps =>
        pure (ps.flatMap fun p => [p.1, p.2]) := by
  induction ps with
  | nil => simp [transformList, transformPairs]
  | cons p ps ih =>
      obtain ⟨k, v⟩ := p
      simp [transformList, transformPairs, ih]

/-- A tree is changed by changing its children from left to right and then
the node rebuilt from them. -/
theorem transformM_eq {n : Node} (hn : n ≠ missing) :
    transformM f n =
      transformList f n.children >>= fun cs => f (n.withChildren cs) := by
  cases n with
  | missing => exact absurd rfl hn
  | function t ps b | macroFn t ps b =>
      simp [transformM, children, withChildren, transformList_concat]
  | hash t ps =>
      simp [transformM, children, withChildren, transformList_flatMap,
        pairUp_flatMap]
  | _ =>
      simp only [transformM, children, withChildren, transformList, bind_assoc,
        pure_bind]

end

/-! ### Induction -/

/-- What goes up from the children of a node to the node holds of every
tree. -/
theorem children_induct {P : Node → Prop}
    (step : ∀ n, (∀ m ∈ n.children, P m) → P n) (n : Node) : P n := by
  induction n using Node.induct with
  | missing | ident | intLit | boolLit | strLit =>
      exact step _ fun m hm => absurd hm List.not_mem_nil
  | program ss ih | block t ss ih | array t ss ih => exact step _ ih
  | letStmt t name v ih | returnStmt t v ih | exprStmt t v ih
  | prefixOp t v ih => exact step _ (List.forall_mem_singleton.mpr ih)
  | infixOp t l r ihl ihr | index t l r ihl ihr =>
      exact step _ (List.forall_mem_cons.mpr
        ⟨ihl, List.forall_mem_singleton.mpr ihr⟩)
  | conditional t c a b ihc iha ihb =>
      exact step _ (List.forall_mem_cons.mpr ⟨ihc, List.forall_mem_cons.mpr
        ⟨iha, List.forall_mem_singleton.mpr ihb⟩⟩)
  | function t ps b ih ihb | macroFn t ps b ih ihb =>
      exact step _ (List.forall_mem_append.mpr
        ⟨ih, List.forall_mem_singleton.mpr ihb⟩)
  | call t c as ihc ih => exact step _ (List.forall_mem_cons.mpr ⟨ihc, ih⟩)
  | hash t ps ih => exact step _ (forall_mem_entries.mpr ih)

/-! ### Changing trees in two ways -/

/-- Changing a tree commutes with what keeps answers and what comes behind
them. -/
lemma transformM_hom {m₁ m₂ : Type → Type} [Monad m₁] [LawfulMonad m₁]
    [Monad m₂] [LawfulMonad m₂] (h : ∀ {α : Type}, m₁ α → m₂ α)
    (hpure : ∀ {α : Type} (a : α), h (pure a : m₁ α) = pure a)
    (hbind : ∀ {α β : Type} (x : m₁ α) (k : α → m₁ β),
      h (x >>= k) = h x >>= fun a => h (k a)) (f : Node → m₁ Node) (n : Node) :
    n.transformM (fun n => h (f n)) = h (n.transformM f) := by
  induction n using children_induct with
  | _ n ih =>
    by_cases hn : n = .missing
    · subst hn
      exact (hpure _).symm
    have hlist : ∀ ns : List Node, (∀ m ∈ ns, m ∈ n.children) →
        transformList (fun n => h (f n)) ns =
          h (transformList f ns) := by
      intro ns hns
      induction ns with
      | nil => exact (hpure _).symm
      | cons m ns ihns =>
          obtain ⟨hm, hns⟩ := List.forall_mem_cons.mp hns
          simp only [transformList, hbind, hpure, ih m hm, ihns hns]
    rw [transformM_eq _ hn, transformM_eq _ hn, hbind,
      hlist _ fun _ => id]

end MonkeyLang.Node

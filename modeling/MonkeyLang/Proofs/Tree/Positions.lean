/-
Where the values of the parts of a node go.

* `Node.valueParts`: the parts whose values the node works with;
* `Node.tailParts`: the parts whose value may become that of the node;
* `Node.innerParts`: the parts that are evaluated only when a function is
  called; `Node.mem_children_cases`: there are no others;
* `Node.Graded tree plain`: trees of two grades, plain ones standing where a
  value is worked with; a hereditary property is the case of one grade.
-/
import MonkeyLang.Proofs.Eval.Ends

namespace MonkeyLang.Node

/-! ### Positions -/

/-- The parts of a node in value positions: what it binds or returns, its
operands, its callee and arguments, its members and its condition. -/
def valueParts : Node → List Node
  | letStmt _ _ v | returnStmt _ v => [v]
  | prefixOp _ r => [r]
  | infixOp _ l r | index _ l r => [l, r]
  | conditional _ c _ _ => [c]
  | call _ callee args => callee :: args
  | array _ ns => ns
  | hash _ ps => ps.flatMap fun p => [p.1, p.2]
  | _ => []

/-- The parts of a node of which one may give it its value: statements and
the branches of a conditional. -/
def tailParts : Node → List Node
  | program ss | block _ ss => ss
  | exprStmt _ v => [v]
  | conditional _ _ a b => [a, b]
  | _ => []

/-- The parameters and the body of a function or a macro. -/
def innerParts : Node → List Node
  | function _ ps b | macroFn _ ps b => ps ++ [b]
  | _ => []

/-- Every child of a node is a part of one of these sorts. -/
lemma mem_children_cases {n m : Node} (hm : m ∈ n.children) :
    m ∈ n.valueParts ∨ m ∈ n.tailParts ∨ m ∈ n.innerParts := by
  cases n with
  | missing | ident | intLit | boolLit | strLit => cases hm
  | program | block | exprStmt => exact Or.inr (Or.inl hm)
  | function | macroFn => exact Or.inr (Or.inr hm)
  | conditional t c a b =>
      rcases List.mem_cons.mp hm with rfl | hm
      · exact Or.inl List.mem_cons_self
      · exact Or.inr (Or.inl hm)
  | _ => exact Or.inl hm

lemma mem_children_of_valueParts {n m : Node} (hm : m ∈ n.valueParts) :
    m ∈ n.children := by
  cases n with
  | conditional t c a b =>
      rw [List.mem_singleton.mp hm]
      exact List.mem_cons_self
  | missing | program | exprStmt | block | ident | intLit | boolLit | strLit
  | function | macroFn => cases hm
  | _ => exact hm

lemma mem_children_of_tailParts {n m : Node} (hm : m ∈ n.tailParts) :
    m ∈ n.children := by
  cases n with
  | conditional t c a b => exact List.mem_cons_of_mem c hm
  | program | block | exprStmt => exact hm
  | _ => cases hm

/-- Of the parts whose values a node needs only the expression of a statement
is in no value position. -/
lemma mem_valueParts_of_parts {n m : Node} (hm : m ∈ n.parts) :
    m ∈ n.valueParts ∨ ∃ t, n = .exprStmt t m := by
  cases n with
  | exprStmt t v => exact Or.inr ⟨t, by rw [List.mem_singleton.mp hm]⟩
  | call t callee args =>
      rw [parts] at hm
      split at hm
      · exact Or.inl hm
      · cases hm
  | letStmt | returnStmt | prefixOp | infixOp | conditional | array | index =>
      exact Or.inl hm
  | _ => cases hm

lemma mem_tailParts_of_statements {n m : Node} (hm : m ∈ n.statements) :
    m ∈ n.tailParts := by
  cases n with
  | program | block => exact hm
  | _ => cases hm

lemma mem_children_of_parts {n m : Node} (hm : m ∈ n.parts) :
    m ∈ n.children := by
  rcases mem_valueParts_of_parts hm with hm | ⟨t, rfl⟩
  · exact mem_children_of_valueParts hm
  · exact List.mem_cons_self

/-! ### Grades -/

/-- Trees of two grades.  What stands in a value position of a tree is plain,
other parts are trees, and plain ones if the tree is, but for the statements
of a program, which gives no marked value anyway; a tree whose children are
changed stays what it is if they do. -/
structure Graded (tree plain : Node → Prop) : Prop where
  tree_of_plain : ∀ n, plain n → tree n
  valued : ∀ n, tree n → ∀ m ∈ n.valueParts, plain m
  tail : ∀ n, tree n → ∀ m ∈ n.tailParts, tree m
  plainTail : ∀ n, plain n → n.kind ≠ .program → ∀ m ∈ n.tailParts, plain m
  rebuilds : Rebuilds tree fun n m => plain n → plain m

/-- A hereditary property does not tell the grades apart. -/
lemma Hereditary.graded {N : Node → Prop} (h : Hereditary N) : Graded N N where
  tree_of_plain _ hn := hn
  valued n hn m hm := h.children n hn m (mem_children_of_valueParts hm)
  tail n hn m hm := h.children n hn m (mem_children_of_tailParts hm)
  plainTail n hn _ m hm := h.children n hn m (mem_children_of_tailParts hm)
  rebuilds :=
    { children := h.children
      refl := fun _ hn => hn
      trans := fun h h' hn => h' (h hn)
      rebuild := by
        intro n cs hn hcs
        have hrebuilt := h.withChildren n cs hn
          (forall_of_forall₂ hcs fun _ _ hkept => hkept.1)
        exact ⟨hrebuilt, fun _ => hrebuilt⟩ }

end MonkeyLang.Node

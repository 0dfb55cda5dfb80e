/-
Templates: trees with holes.

* `Node.hole?`: the name in a hole, which is a call of `unquote` on one name;
* `Node.fill`: a tree with a tree put into each hole;
* `Node.Template`: a tree in which every call of `unquote` is a hole with one
  of some names;
* `fill_eq`, `fill_of_hole`: what is no hole is filled child by child;
* `Template.rebuilt`: a node of a template that is no hole is none when its
  children are filled, unless one of them is filled with the name `unquote`.
-/
import MonkeyLang.Eval.Quote
import MonkeyLang.Proofs.Tree.Children

namespace MonkeyLang.Node

/-! ### Holes -/

/-- The name in a hole. -/
def hole? : Node → Option String
  | call _ callee [ident t] =>
    if SpecialForm.ofCallee? callee = some .unquote then some t.text else none
  | _ => none

mutual

/-- A tree with the tree `σ p` put into each hole with the name `p`.  What
stands in the holes is not filled again. -/
def fill (σ : String → Node) : Node → Node
  | program ss => program (fillList σ ss)
  | letStmt t name v => letStmt t name (fill σ v)
  | returnStmt t v => returnStmt t (fill σ v)
  | exprStmt t v => exprStmt t (fill σ v)
  | block t ss => block t (fillList σ ss)
  | prefixOp t r => prefixOp t (fill σ r)
  | infixOp t l r => infixOp t (fill σ l) (fill σ r)
  | conditional t c a b => conditional t (fill σ c) (fill σ a) (fill σ b)
  | function t ps b => function t (fillList σ ps) (fill σ b)
  | macroFn t ps b => macroFn t (fillList σ ps) (fill σ b)
  | call t callee as =>
    match hole? (call t callee as) with
    | some p => σ p
    | none => call t (fill σ callee) (fillList σ as)
  | array t es => array t (fillList σ es)
  | index t l i => index t (fill σ l) (fill σ i)
  | hash t ps => hash t (fillPairs σ ps)
  | n => n

/-- Several trees, filled. -/
def fillList (σ : String → Node) : List Node → List Node
  | [] => []
  | n :: ns => fill σ n :: fillList σ ns

/-- The entries of a hash literal, filled. -/
def fillPairs (σ : String → Node) : List (Node × Node) → List (Node × Node)
  | [] => []
  | (k, v) :: ps => (fill σ k, fill σ v) :: fillPairs σ ps

end

variable {σ : String → Node} {n : Node}

lemma fillList_eq_map (ns : List Node) : fillList σ ns = ns.map (fill σ) := by
  induction ns with
  | nil => rfl
  | cons n ns ih => rw [fillList, ih, List.map_cons]

lemma flatMap_fillPairs (ps : List (Node × Node)) :
    ((fillPairs σ ps).flatMap fun p => [p.1, p.2]) =
      (ps.flatMap fun p => [p.1, p.2]).map (fill σ) := by
  induction ps with
  | nil => rfl
  | cons p ps ih =>
      obtain ⟨k, v⟩ := p
      simp [fillPairs, ih]

lemma kind_of_isUnquote (h : n.isUnquote = true) : n.kind = .call := by
  cases n with
  | call t callee as => rfl
  | _ => cases h

lemma hole?_inv {p : String} (h : n.hole? = some p) :
    ∃ t callee u, n = call t callee [ident u] ∧ u.text = p ∧
      SpecialForm.ofCallee? callee = some .unquote := by
  unfold hole? at h
  split at h
  · next t callee u =>
    split at h
    · next hcallee => exact ⟨t, callee, u, rfl, Option.some.inj h, hcallee⟩
    · cases h
  · cases h

/-- A hole is a call of `unquote`. -/
lemma isUnquote_of_hole {p : String} (h : n.hole? = some p) :
    n.isUnquote = true := by
  obtain ⟨t, callee, u, rfl, -, hcallee⟩ := hole?_inv h
  simp [isUnquote, hcallee]

/-- A hole gives way to its tree. -/
lemma fill_of_hole {p : String} (h : n.hole? = some p) : n.fill σ = σ p := by
  obtain ⟨t, callee, u, rfl, -, -⟩ := hole?_inv h
  rw [fill, h]

/-- What is no hole is filled child by child. -/
lemma fill_eq (h : n.hole? = none) :
    n.fill σ = n.withChildren (n.children.map (fill σ)) := by
  cases n with
  | call t callee as =>
      rw [fill, h, fillList_eq_map]
      rfl
  | function t ps b | macroFn t ps b =>
      simp [fill, children, withChildren, fillList_eq_map]
  | hash t ps =>
      rw [fill, children, ← flatMap_fillPairs, withChildren, pairUp_flatMap]
  | _ => simp [fill, children, withChildren, fillList_eq_map]

/-- Only a name is filled to a name, holes aside. -/
lemma eq_ident_of_fill {t : Token} (hn : n.hole? = none)
    (h : n.fill σ = ident t) : n = ident t := by
  have hkind : n.kind = .ident := by
    rw [← kind_withChildren n (n.children.map (fill σ)), ← fill_eq hn, h]
    rfl
  cases n with
  | ident u => exact h
  | _ => cases hkind

/-! ### Templates -/

/-- A tree in which every call of `unquote` has one argument, which is one of
some names. -/
inductive Template (names : List String) : Node → Prop where
  | node {n : Node}
      (hn : n.isUnquote = true → ∃ p ∈ names, n.hole? = some p)
      (hchildren : ∀ m ∈ n.children, Template names m) : Template names n

namespace Template

variable {names : List String}

lemma hole (h : n.Template names) (hn : n.isUnquote = true) :
    ∃ p ∈ names, n.hole? = some p := by
  cases h with
  | node hhole _ => exact hhole hn

lemma child (h : n.Template names) {m : Node} (hm : m ∈ n.children) :
    m.Template names := by
  cases h with
  | node _ hchildren => exact hchildren m hm

/-- A callee that is not `unquote` is not filled to it, unless it is a hole
that is. -/
lemma ofCallee?_fill (h : n.Template names)
    (hσ : ∀ p ∈ names, SpecialForm.ofCallee? (σ p) ≠ some .unquote)
    (hn : SpecialForm.ofCallee? n ≠ some .unquote) :
    SpecialForm.ofCallee? (n.fill σ) ≠ some .unquote := by
  rcases hhole : n.hole? with _ | p
  · intro hcallee
    obtain ⟨t, ht⟩ : ∃ t, n.fill σ = ident t := by
      cases hfill : n.fill σ with
      | ident t => exact ⟨t, rfl⟩
      | _ =>
          rw [hfill] at hcallee
          cases hcallee
    have hident := eq_ident_of_fill hhole ht
    rw [ht, ← hident] at hcallee
    exact hn hcallee
  · obtain ⟨q, hq, hname⟩ := h.hole (isUnquote_of_hole hhole)
    cases hhole.symm.trans hname
    rw [fill_of_hole hhole]
    exact hσ p hq

/-- A hole stays itself when its children are filled, and nothing else becomes
a call of `unquote`. -/
lemma rebuilt (h : n.Template names)
    (hσ : ∀ p ∈ names, SpecialForm.ofCallee? (σ p) ≠ some .unquote) :
    (n.isUnquote = true ∧ n.withChildren (n.children.map (fill σ)) = n) ∨
    n.hole? = none ∧
      (n.withChildren (n.children.map (fill σ))).isUnquote = false := by
  by_cases hn : n.isUnquote = true
  · obtain ⟨p, -, hhole⟩ := h.hole hn
    obtain ⟨t, callee, u, rfl, -, hcallee⟩ := hole?_inv hhole
    obtain ⟨w, rfl⟩ : ∃ w, callee = ident w := by
      cases callee with
      | ident w => exact ⟨w, rfl⟩
      | _ => cases hcallee
    exact Or.inl ⟨hn, rfl⟩
  · refine Or.inr ⟨?_, ?_⟩
    · rcases hhole : n.hole? with _ | p
      · rfl
      · exact absurd (isUnquote_of_hole hhole) hn
    -- a call stays no call of `unquote`, as its callee is filled with nothing
    -- that is the name; other forms keep their kind
    · cases n with
      | call t callee as =>
          have hcallee : SpecialForm.ofCallee? callee ≠ some .unquote := by
            simpa [isUnquote] using hn
          have hfilled := (h.child List.mem_cons_self).ofCallee?_fill hσ hcallee
          exact decide_eq_false hfilled
      | _ =>
          rw [Bool.eq_false_iff]
          intro hrebuilt
          have hkind := kind_of_isUnquote hrebuilt
          rw [kind_withChildren] at hkind
          cases hkind

end Template

end MonkeyLang.Node

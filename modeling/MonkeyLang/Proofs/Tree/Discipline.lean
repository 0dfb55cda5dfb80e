/-
Where a tree may return.

* `Node.disciplined inValue`: no `return` stands where a value is worked with,
  but in the body of a function or a macro, which is disciplined itself; with
  `inValue` the tree stands there as a whole, so it must not return at all;
* `Node.disciplined_iff`: the same by the parts of a node;
* `Node.graded_disciplined`: disciplined trees, and those that do not return,
  are two grades of trees.
-/
import MonkeyLang.Proofs.Tree.Positions
import Mathlib.Data.List.Forall2

namespace MonkeyLang.Node

/-! ### Disciplined trees -/

mutual

/-- Whether a tree returns from no value position; with `inValue` it stands in
one.  What a program returns goes nowhere, and a function or a macro returns
from its own body. -/
def disciplined (inValue : Bool) : Node → Bool
  | missing | ident _ | intLit .. | boolLit .. | strLit _ => true
  | program ss => allDisciplined false ss
  | block _ ss => allDisciplined inValue ss
  | exprStmt _ v => disciplined inValue v
  | returnStmt _ v => !inValue && disciplined true v
  | letStmt _ _ v | prefixOp _ v => disciplined true v
  | infixOp _ l r | index _ l r => disciplined true l && disciplined true r
  | conditional _ c a b =>
    disciplined true c && (disciplined inValue a && disciplined inValue b)
  | function _ ps b | macroFn _ ps b =>
    allDisciplined false ps && disciplined false b
  | call _ c as => disciplined true c && allDisciplined true as
  | array _ es => allDisciplined true es
  | hash _ ps => pairsDisciplined ps

/-- Whether several trees do. -/
def allDisciplined (inValue : Bool) : List Node → Bool
  | [] => true
  | n :: ns => disciplined inValue n && allDisciplined inValue ns

/-- Whether keys and values of a hash do. -/
def pairsDisciplined : List (Node × Node) → Bool
  | [] => true
  | (k, v) :: ps =>
    disciplined true k && (disciplined true v && pairsDisciplined ps)

end

lemma allDisciplined_iff {inValue : Bool} {ns : List Node} :
    allDisciplined inValue ns = true ↔
      ∀ n ∈ ns, n.disciplined inValue = true := by
  induction ns with
  | nil => simp [allDisciplined]
  | cons n ns ih => simp [allDisciplined, ih]

lemma pairsDisciplined_iff {ps : List (Node × Node)} :
    pairsDisciplined ps = true ↔
      ∀ n ∈ ps.flatMap fun p => [p.1, p.2], n.disciplined true = true := by
  induction ps with
  | nil => simp [pairsDisciplined]
  | cons p ps ih =>
      obtain ⟨k, v⟩ := p
      simp [pairsDisciplined, ih, or_imp, forall_and]

/-- A tree is disciplined if it does not return from a value position itself
and its parts are disciplined where they stand. -/
theorem disciplined_iff {inValue : Bool} {n : Node} :
    n.disciplined inValue = true ↔
      (n.kind = .returnStmt → inValue = false) ∧
      (∀ m ∈ n.valueParts, m.disciplined true = true) ∧
      (∀ m ∈ n.tailParts,
        m.disciplined (if n.kind = .program then false else inValue) = true) ∧
      ∀ m ∈ n.innerParts, m.disciplined false = true := by
  cases n <;> simp [disciplined, kind, valueParts, tailParts, innerParts,
    allDisciplined_iff, pairsDisciplined_iff, or_imp, forall_and]

/-- What does not return at all is disciplined. -/
lemma disciplined_of_plain {n : Node} (h : n.disciplined true = true) :
    n.disciplined false = true := by
  induction n using children_induct with
  | step n ih =>
      obtain ⟨-, hvalued, htail, hinner⟩ := disciplined_iff.mp h
      refine disciplined_iff.mpr ⟨fun _ => rfl, hvalued, fun m hm => ?_, hinner⟩
      have hm' := htail m hm
      split at hm'
      · rw [ite_self]
        exact hm'
      · rw [ite_self]
        exact ih m (mem_children_of_tailParts hm) hm'

/-! ### Two grades of trees -/

/-- Disciplined trees go down to the parts of a tree. -/
lemma disciplined_children {n m : Node} (h : n.disciplined false = true)
    (hm : m ∈ n.children) : m.disciplined false = true := by
  obtain ⟨-, hvalued, htail, hinner⟩ := disciplined_iff.mp h
  rcases mem_children_cases hm with hm | hm | hm
  · exact disciplined_of_plain (hvalued m hm)
  · simpa using htail m hm
  · exact hinner m hm

/-- One tree returns wherever another one does, at most. -/
def ReturnsAsMuch (m c : Node) : Prop :=
  ∀ inValue, m.disciplined inValue = true → c.disciplined inValue = true

lemma all_of_returnsAsMuch {inValue : Bool} {ns cs : List Node}
    (h : List.Forall₂ ReturnsAsMuch ns cs)
    (hns : ∀ n ∈ ns, n.disciplined inValue = true) :
    ∀ c ∈ cs, c.disciplined inValue = true := by
  induction h with
  | nil => exact hns
  | cons hm _ ih =>
      obtain ⟨hn, hns⟩ := List.forall_mem_cons.mp hns
      exact List.forall_mem_cons.mpr ⟨hm inValue hn, ih hns⟩

/-- A tree stays disciplined when its children are exchanged for others that
return at most where they do. -/
lemma returnsAsMuch_withChildren {n : Node} {cs : List Node}
    (hcs : List.Forall₂ ReturnsAsMuch n.children cs) :
    n.ReturnsAsMuch (n.withChildren cs) := by
  intro inValue hn
  -- by the form: what stands in a value position is compared as such, and the
  -- branches of a conditional as the conditional is
  cases n with
  | missing | ident | intLit | boolLit | strLit =>
      cases hcs
      exact hn
  | program ss | block t ss | array t ss =>
      rw [disciplined, allDisciplined_iff] at hn
      rw [withChildren, disciplined, allDisciplined_iff]
      exact all_of_returnsAsMuch hcs hn
  | letStmt | exprStmt | prefixOp =>
      rcases hcs with _ | ⟨hv, _ | _⟩
      exact hv _ hn
  | returnStmt t v =>
      rcases hcs with _ | ⟨hv, _ | _⟩
      simp only [disciplined, Bool.and_eq_true] at hn
      simp only [withChildren, disciplined, Bool.and_eq_true]
      exact ⟨hn.1, hv true hn.2⟩
  | infixOp | index =>
      rcases hcs with _ | ⟨hl, _ | ⟨hr, _ | _⟩⟩
      simp only [disciplined, Bool.and_eq_true] at hn
      simp only [withChildren, disciplined, Bool.and_eq_true]
      exact ⟨hl true hn.1, hr true hn.2⟩
  | conditional t c a b =>
      rcases hcs with _ | ⟨hc, _ | ⟨ha, _ | ⟨hb, _ | _⟩⟩⟩
      simp only [disciplined, Bool.and_eq_true] at hn
      simp only [withChildren, disciplined, Bool.and_eq_true]
      exact ⟨hc true hn.1, ha inValue hn.2.1, hb inValue hn.2.2⟩
  | call t callee args =>
      rcases hcs with _ | ⟨hc, has⟩
      simp only [disciplined, Bool.and_eq_true, allDisciplined_iff] at hn
      simp only [withChildren, disciplined, Bool.and_eq_true,
        allDisciplined_iff]
      exact ⟨hc true hn.1, all_of_returnsAsMuch has hn.2⟩
  | function t ps b | macroFn t ps b =>
      have hchildren := all_of_returnsAsMuch hcs fun m hm =>
        (disciplined_iff.mp hn).2.2.2 m hm
      simp only [withChildren, disciplined, Bool.and_eq_true,
        allDisciplined_iff]
      refine ⟨fun p hp => hchildren p (List.dropLast_subset cs hp), ?_⟩
      rcases List.eq_nil_or_concat cs with rfl | ⟨ps, b, rfl⟩
      · rfl
      · simpa using hchildren b (by simp)
  | hash t ps =>
      have hchildren := all_of_returnsAsMuch hcs (pairsDisciplined_iff.mp hn)
      exact pairsDisciplined_iff.mpr fun m hm =>
        hchildren m (mem_of_mem_pairUp hm)

/-- Disciplined trees, and among them those that do not return. -/
theorem graded_disciplined :
    Graded (fun n => n.disciplined false = true)
      (fun n => n.disciplined true = true) where
  tree_of_plain _ := disciplined_of_plain
  valued n hn := (disciplined_iff.mp hn).2.1
  tail n hn m hm := disciplined_children hn (mem_children_of_tailParts hm)
  plainTail n hn hkind m hm := by
    simpa [hkind] using (disciplined_iff.mp hn).2.2.1 m hm
  rebuilds :=
    { children := fun _ hn _ hm => disciplined_children hn hm
      refl := fun _ hn => hn
      trans := fun h h' hn => h' (h hn)
      rebuild := by
        intro n cs hn hcs
        have hkept : n.ReturnsAsMuch (n.withChildren cs) := by
          refine returnsAsMuch_withChildren (hcs.imp ?_)
          rintro m c ⟨htree, hplain⟩ (_ | _) hm
          · exact htree
          · exact hplain hm
        exact ⟨hkept false hn, hkept true⟩ }

end MonkeyLang.Node

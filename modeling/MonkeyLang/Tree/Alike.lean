/-
When two trees are alike: the same but for the places of their tokens.

* `Node.bare`: a tree with all places forgotten;
* `Node.alike`: the test, node by node;
* `alike_iff`: two trees are alike exactly when they are equal once places
  are forgotten, so being alike is an equivalence.
-/
import MonkeyLang.Tree.Node

namespace MonkeyLang

/-- The token, standing in no text. -/
def Token.bare (t : Token) : Token := .made t.kind t.text

/-- Tokens are alike exactly when they are equal once places are
forgotten. -/
theorem Token.alike_iff {s t : Token} : s.Alike t ↔ s.bare = t.bare := by
  simp [Token.Alike, Token.bare, Token.made]

namespace Node

/-! ### Forgetting places -/

mutual

/-- The tree with the places of all tokens forgotten. -/
def bare : Node → Node
  | missing => missing
  | program ss => program (bareList ss)
  | letStmt t name v => letStmt t.bare name.bare (bare v)
  | returnStmt t v => returnStmt t.bare (bare v)
  | exprStmt t v => exprStmt t.bare (bare v)
  | block t ss => block t.bare (bareList ss)
  | ident t => ident t.bare
  | intLit t n => intLit t.bare n
  | boolLit t b => boolLit t.bare b
  | strLit t => strLit t.bare
  | prefixOp t r => prefixOp t.bare (bare r)
  | infixOp t l r => infixOp t.bare (bare l) (bare r)
  | conditional t c a b => conditional t.bare (bare c) (bare a) (bare b)
  | function t ps b => function t.bare (bareList ps) (bare b)
  | macroFn t ps b => macroFn t.bare (bareList ps) (bare b)
  | call t c as => call t.bare (bare c) (bareList as)
  | array t es => array t.bare (bareList es)
  | index t l i => index t.bare (bare l) (bare i)
  | hash t ps => hash t.bare (barePairs ps)

/-- The same for several trees. -/
def bareList : List Node → List Node
  | [] => []
  | n :: ns => bare n :: bareList ns

/-- The same for the entries of a hash literal. -/
def barePairs : List (Node × Node) → List (Node × Node)
  | [] => []
  | (k, v) :: ps => (bare k, bare v) :: barePairs ps

end

/-! ### The test -/

mutual

/-- Whether two trees are the same but for the places of their tokens. -/
def alike : Node → Node → Bool
  | missing, missing => true
  | program ss, program ss' => alikeList ss ss'
  | letStmt t name v, letStmt t' name' v' =>
    decide (t.Alike t') && decide (name.Alike name') && alike v v'
  | returnStmt t v, returnStmt t' v' => decide (t.Alike t') && alike v v'
  | exprStmt t v, exprStmt t' v' => decide (t.Alike t') && alike v v'
  | block t ss, block t' ss' => decide (t.Alike t') && alikeList ss ss'
  | ident t, ident t' => decide (t.Alike t')
  | intLit t n, intLit t' n' => decide (t.Alike t') && decide (n = n')
  | boolLit t b, boolLit t' b' => decide (t.Alike t') && decide (b = b')
  | strLit t, strLit t' => decide (t.Alike t')
  | prefixOp t r, prefixOp t' r' => decide (t.Alike t') && alike r r'
  | infixOp t l r, infixOp t' l' r' =>
    decide (t.Alike t') && alike l l' && alike r r'
  | conditional t c a b, conditional t' c' a' b' =>
    decide (t.Alike t') && alike c c' && alike a a' && alike b b'
  | function t ps b, function t' ps' b' =>
    decide (t.Alike t') && alikeList ps ps' && alike b b'
  | macroFn t ps b, macroFn t' ps' b' =>
    decide (t.Alike t') && alikeList ps ps' && alike b b'
  | call t c as, call t' c' as' =>
    decide (t.Alike t') && alike c c' && alikeList as as'
  | array t es, array t' es' => decide (t.Alike t') && alikeList es es'
  | index t l i, index t' l' i' =>
    decide (t.Alike t') && alike l l' && alike i i'
  | hash t ps, hash t' ps' => decide (t.Alike t') && alikePairs ps ps'
  | _, _ => false

/-- Whether two lists of trees are alike, member by member. -/
def alikeList : List Node → List Node → Bool
  | [], [] => true
  | n :: ns, n' :: ns' => alike n n' && alikeList ns ns'
  | _, _ => false

/-- Whether the entries of two hash literals are alike, in order. -/
def alikePairs : List (Node × Node) → List (Node × Node) → Bool
  | [], [] => true
  | (k, v) :: ps, (k', v') :: ps' =>
    alike k k' && alike v v' && alikePairs ps ps'
  | _, _ => false

end

/-! ### Alike means equal without places -/

/-- Lists whose members are alike as the test says are equal without
places. -/
theorem alikeList_iff {ns ns' : List Node}
    (h : ∀ n ∈ ns, ∀ n', alike n n' = true ↔ bare n = bare n') :
    alikeList ns ns' = true ↔ bareList ns = bareList ns' := by
  induction ns generalizing ns' with
  | nil => cases ns' <;> simp [alikeList, bareList]
  | cons n ns ih =>
    have hns := fun ns' => @ih ns' fun m hm => h m (List.mem_cons_of_mem n hm)
    cases ns' <;> simp [alikeList, bareList, h n List.mem_cons_self, hns]

/-- The same for the entries of hash literals. -/
theorem alikePairs_iff {ps ps' : List (Node × Node)}
    (h : ∀ p ∈ ps, (∀ n', alike p.1 n' = true ↔ bare p.1 = bare n') ∧
      ∀ n', alike p.2 n' = true ↔ bare p.2 = bare n') :
    alikePairs ps ps' = true ↔ barePairs ps = barePairs ps' := by
  induction ps generalizing ps' with
  | nil => cases ps' <;> simp [alikePairs, barePairs]
  | cons p ps ih =>
    have hps := fun ps' => @ih ps' fun q hq => h q (List.mem_cons_of_mem p hq)
    have hp := h p List.mem_cons_self
    cases ps' <;> simp [alikePairs, barePairs, hp.1, hp.2, hps]

/-- Two trees are alike exactly when they are equal once places are
forgotten. -/
theorem alike_iff (n n' : Node) : alike n n' = true ↔ bare n = bare n' := by
  induction n using Node.induct generalizing n' with
  | program ss ih | block t ss ih | array t ss ih =>
    cases n' <;> simp [alike, bare, Token.alike_iff, alikeList_iff ih]
  | function t ss b ih ihb | macroFn t ss b ih ihb =>
    cases n' <;> simp [alike, bare, Token.alike_iff, alikeList_iff ih, ihb, and_assoc]
  | call t c ss ihc ih =>
    cases n' <;> simp [alike, bare, Token.alike_iff, alikeList_iff ih, ihc, and_assoc]
  | hash t ps ih =>
    cases n' <;> simp [alike, bare, Token.alike_iff, alikePairs_iff ih]
  | _ => cases n' <;> simp_all [alike, bare, Token.alike_iff, and_assoc]

/-- Every tree is like itself. -/
theorem alike_refl (n : Node) : alike n n = true := (alike_iff n n).2 rfl

/-- Being alike goes both ways. -/
theorem alike_comm (n n' : Node) : alike n n' = alike n' n := by
  rw [Bool.eq_iff_iff, alike_iff, alike_iff, eq_comm]

/-- Trees that are like a third one are alike. -/
theorem alike_trans {n m k : Node} (h : alike n m = true)
    (h' : alike m k = true) : alike n k = true := by
  rw [alike_iff] at *
  exact h.trans h'

end Node

end MonkeyLang

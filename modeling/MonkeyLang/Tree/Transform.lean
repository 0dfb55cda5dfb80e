/-
Changing trees from the leaves to the root.

* `Node.transformM f`: rebuilds a tree; every child is changed first, from
  left to right, then `f` is applied to the rebuilt node and its answer
  takes the node's place.  `f` may have effects.  The name of a `let` is
  part of the statement and is not handed to `f`, and neither is a missing
  child;
* `Node.transform f`: the same without effects;
* `transform_id`: the rule that changes nothing gives the tree back;
* `Rule`: some rules.
-/
import MonkeyLang.Tree.Node

namespace MonkeyLang.Node

variable {m : Type → Type} [Monad m]

/-! ### Changing trees -/

mutual

/-- Changes a tree with the rule `f`, children first. -/
def transformM (f : Node → m Node) : Node → m Node
  | missing => pure missing
  | program ss => do f (program (← transformList f ss))
  | letStmt t name v => do f (letStmt t name (← transformM f v))
  | returnStmt t v => do f (returnStmt t (← transformM f v))
  | exprStmt t v => do f (exprStmt t (← transformM f v))
  | block t ss => do f (block t (← transformList f ss))
  | ident t => f (ident t)
  | intLit t n => f (intLit t n)
  | boolLit t b => f (boolLit t b)
  | strLit t => f (strLit t)
  | prefixOp t r => do f (prefixOp t (← transformM f r))
  | infixOp t l r => do
    let l ← transformM f l
    let r ← transformM f r
    f (infixOp t l r)
  | conditional t c a b => do
    let c ← transformM f c
    let a ← transformM f a
    let b ← transformM f b
    f (conditional t c a b)
  | function t ps b => do
    let ps ← transformList f ps
    let b ← transformM f b
    f (function t ps b)
  | macroFn t ps b => do
    let ps ← transformList f ps
    let b ← transformM f b
    f (macroFn t ps b)
  | call t c as => do
    let c ← transformM f c
    let as ← transformList f as
    f (call t c as)
  | array t es => do f (array t (← transformList f es))
  | index t l i => do
    let l ← transformM f l
    let i ← transformM f i
    f (index t l i)
  | hash t ps => do f (hash t (← transformPairs f ps))

/-- Changes several trees, from left to right. -/
def transformList (f : Node → m Node) : List Node → m (List Node)
  | [] => pure []
  | n :: ns => do
    let n ← transformM f n
    let ns ← transformList f ns
    pure (n :: ns)

/-- Changes the entries of a hash literal: each key, then its value. -/
def transformPairs (f : Node → m Node) :
    List (Node × Node) → m (List (Node × Node))
  | [] => pure []
  | (k, v) :: ps => do
    let k ← transformM f k
    let v ← transformM f v
    let ps ← transformPairs f ps
    pure ((k, v) :: ps)

end

/-- Changes a tree with a rule that has no effects. -/
def transform (f : Node → Node) (n : Node) : Node :=
  Id.run (transformM (fun n => pure (f n)) n)

/-! ### The rule that changes nothing -/

/-- Lists are given back if their members are. -/
theorem transformList_pure [LawfulMonad m] {ns : List Node}
    (h : ∀ n ∈ ns, transformM (m := m) pure n = pure n) :
    transformList (m := m) pure ns = pure ns := by
  induction ns with
  | nil => rfl
  | cons n ns ih => simp_all [transformList]

/-- Entries of a hash literal are given back if their parts are. -/
theorem transformPairs_pure [LawfulMonad m] {ps : List (Node × Node)}
    (h : ∀ p ∈ ps, transformM (m := m) pure p.1 = pure p.1 ∧
      transformM (m := m) pure p.2 = pure p.2) :
    transformPairs (m := m) pure ps = pure ps := by
  induction ps with
  | nil => rfl
  | cons p ps ih => obtain ⟨k, v⟩ := p; simp_all [transformPairs]

/-- The rule that gives each node back gives the whole tree back, and has
no effect. -/
theorem transformM_pure [LawfulMonad m] (n : Node) :
    transformM (m := m) pure n = pure n := by
  induction n using Node.induct with
  | program ss ih | block t ss ih | array t ss ih =>
    simp [transformM, transformList_pure ih]
  | function t ps b ih ihb | macroFn t ps b ih ihb =>
    simp [transformM, transformList_pure ih, ihb]
  | call t c as ihc ih => simp [transformM, transformList_pure ih, ihc]
  | hash t ps ih => simp [transformM, transformPairs_pure ih]
  | _ => simp_all [transformM]

/-- The rule that changes nothing gives the tree back. -/
theorem transform_id (n : Node) : transform id n = n := by
  simpa [transform] using congrArg Id.run (transformM_pure (m := Id) n)

/-! ### Some rules -/

namespace Rule

/-- Puts the literal `new` for each literal of the integer `old`. -/
def replaceInt (old new : Int) : Node → Node
  | intLit t n => if n = old then ofInt new else intLit t n
  | n => n

/-- Puts the literal of the sum for each sum of two integer literals. -/
def foldSum : Node → Node
  | infixOp t (intLit s a) (intLit u b) =>
    if t.text = "+" then ofInt (a + b) else infixOp t (intLit s a) (intLit u b)
  | n => n

/-- Puts the name `new` for each identifier `old`. -/
def rename (old new : String) : Node → Node
  | ident t => if t.text = old then ofName new else ident t
  | n => n

/-- Puts its first argument for each call that has one. -/
def firstArg : Node → Node
  | call _ _ (a :: _) => a
  | n => n

/-- Puts `new` for each program. -/
def replaceProgram (new : Node) : Node → Node
  | program _ => new
  | n => n

end Rule

end MonkeyLang.Node

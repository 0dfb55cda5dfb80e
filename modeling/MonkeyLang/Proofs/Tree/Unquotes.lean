/-
The calls of `unquote` on one argument in a tree.

* `Node.unquoted?`: the argument of such a call;
* `Node.unquotes`: the arguments of all such calls in a tree, from left to right
  and those inside an argument before it;
* `Node.put`: takes trees one after the other and puts them in place of these
  calls; `Node.filled`: the tree that this makes of a tree;
* `unquotes_eq`, `put_eq`: any other node is looked through child by child;
* `put_append`: each call takes one tree.
-/
import MonkeyLang.Eval.Quote
import MonkeyLang.Proofs.Tree.Children

namespace MonkeyLang.Node

/-- The argument of a call of `unquote` on one argument. -/
def unquoted? : Node → Option Node
  | call _ callee [arg] =>
    if SpecialForm.ofCallee? callee = some .unquote then some arg else none
  | _ => none

/-! ### The arguments of calls -/

mutual

/-- The arguments of the calls of `unquote` on one argument, from left to right,
those inside an argument before it. -/
def unquotes : Node → List Node
  | missing | ident _ | intLit .. | boolLit .. | strLit _ => []
  | program ss | block _ ss => unquotesList ss
  | letStmt _ _ v | returnStmt _ v | exprStmt _ v | prefixOp _ v => unquotes v
  | infixOp _ l r | index _ l r => unquotes l ++ unquotes r
  | conditional _ c a b => unquotes c ++ unquotes a ++ unquotes b
  | function _ ps b | macroFn _ ps b => unquotesList ps ++ unquotes b
  | call t callee as =>
    match unquoted? (call t callee as) with
    | some arg => unquotesList as ++ [arg]
    | none => unquotes callee ++ unquotesList as
  | array _ es => unquotesList es
  | hash _ ps => unquotesPairs ps

/-- Those of several trees, one after the other. -/
def unquotesList : List Node → List Node
  | [] => []
  | n :: ns => unquotes n ++ unquotesList ns

/-- Those of the entries of a hash literal. -/
def unquotesPairs : List (Node × Node) → List Node
  | [] => []
  | (k, v) :: ps => unquotes k ++ unquotes v ++ unquotesPairs ps

end

/-! ### Trees in place of calls -/

/-- Takes the next tree. -/
def nextTree : StateM (List Node) Node :=
  modifyGet fun ks => (ks.headD missing, ks.tail)

mutual

/-- A tree with the next trees in place of its calls of `unquote` on one
argument.  The trees for calls inside an argument come before the one for the
call around it, and have no other use than to be taken. -/
def put : Node → StateM (List Node) Node
  | program ss => return program (← putList ss)
  | letStmt t name v => return letStmt t name (← put v)
  | returnStmt t v => return returnStmt t (← put v)
  | exprStmt t v => return exprStmt t (← put v)
  | block t ss => return block t (← putList ss)
  | prefixOp t r => return prefixOp t (← put r)
  | infixOp t l r => return infixOp t (← put l) (← put r)
  | conditional t c a b => return conditional t (← put c) (← put a) (← put b)
  | function t ps b => return function t (← putList ps) (← put b)
  | macroFn t ps b => return macroFn t (← putList ps) (← put b)
  | call t callee as =>
    match unquoted? (call t callee as) with
    | some _ => do
      let _ ← putList as
      nextTree
    | none => return call t (← put callee) (← putList as)
  | array t es => return array t (← putList es)
  | index t l i => return index t (← put l) (← put i)
  | hash t ps => return hash t (← putPairs ps)
  | n => return n

/-- Several trees, one after the other. -/
def putList : List Node → StateM (List Node) (List Node)
  | [] => return []
  | n :: ns => return (← put n) :: (← putList ns)

/-- The entries of a hash literal. -/
def putPairs : List (Node × Node) → StateM (List Node) (List (Node × Node))
  | [] => return []
  | (k, v) :: ps => return (← put k, ← put v) :: (← putPairs ps)

end

/-- A tree with some trees in place of its calls of `unquote` on one
argument. -/
def filled (n : Node) (ks : List Node) : Node := (n.put ks).1

/-- Several trees, with some trees in place of their calls. -/
def filledList (ns ks : List Node) : List Node := (putList ns ks).1

/-- A tree with the last ones of some trees in place of its calls. -/
def filledLast (n : Node) (ks : List Node) : Node :=
  n.filled (ks.drop (ks.length - n.unquotes.length))

/-! ### Child by child -/

variable {n arg : Node} {ns ks ls : List Node}

lemma unquoted?_inv (h : n.unquoted? = some arg) :
    ∃ t callee, n = call t callee [arg] ∧
      SpecialForm.ofCallee? callee = some .unquote := by
  unfold unquoted? at h
  split at h
  · next t callee a =>
    split at h
    · next hcallee =>
      cases h
      exact ⟨t, callee, rfl, hcallee⟩
    · cases h
  · cases h

lemma unquotesList_eq (ns : List Node) :
    unquotesList ns = ns.flatMap unquotes := by
  induction ns with
  | nil => rfl
  | cons n ns ih => rw [unquotesList, ih, List.flatMap_cons]

lemma unquotesPairs_eq (ps : List (Node × Node)) :
    unquotesPairs ps = (ps.flatMap fun p => [p.1, p.2]).flatMap unquotes := by
  induction ps with
  | nil => rfl
  | cons p ps ih =>
      obtain ⟨k, v⟩ := p
      simp [unquotesPairs, ih]

/-- The argument of a call comes behind those inside it. -/
lemma unquotes_of_unquoted (h : n.unquoted? = some arg) :
    n.unquotes = arg.unquotes ++ [arg] := by
  obtain ⟨t, callee, rfl, -⟩ := unquoted?_inv h
  rw [unquotes, h]
  simp [unquotesList]

/-- Any other node has the arguments in its children. -/
lemma unquotes_eq (h : n.unquoted? = none) :
    n.unquotes = n.children.flatMap unquotes := by
  cases n with
  | call t callee as =>
      rw [unquotes, h, unquotesList_eq]
      rfl
  | hash t ps => exact unquotesPairs_eq ps
  | _ => simp [unquotes, children, unquotesList_eq]

lemma putList_concat (ns : List Node) (n : Node) :
    putList (ns ++ [n]) =
      putList ns >>= fun ns => put n >>= fun n => pure (ns ++ [n]) := by
  induction ns with
  | nil => simp [putList]
  | cons m ns ih => simp [putList, ih]

lemma putList_flatMap (ps : List (Node × Node)) :
    putList (ps.flatMap fun p => [p.1, p.2]) =
      putPairs ps >>= fun ps => pure (ps.flatMap fun p => [p.1, p.2]) := by
  induction ps with
  | nil => simp [putList, putPairs]
  | cons p ps ih =>
      obtain ⟨k, v⟩ := p
      simp [putList, putPairs, ih]

lemma put_of_unquoted (h : n.unquoted? = some arg) :
    n.put = put arg >>= fun _ => nextTree := by
  obtain ⟨t, callee, rfl, -⟩ := unquoted?_inv h
  rw [put, h]
  simp [putList]

lemma put_eq (h : n.unquoted? = none) :
    n.put = putList n.children >>= fun cs => pure (n.withChildren cs) := by
  cases n with
  | call t callee as =>
      rw [put, h]
      simp [children, withChildren, putList]
  | function t ps b | macroFn t ps b =>
      simp [put, children, withChildren, putList_concat]
  | hash t ps =>
      simp [put, children, withChildren, putList_flatMap, pairUp_flatMap]
  | _ => simp [put, children, withChildren, putList]

/-! ### One tree for each call -/

/-- What takes no other trees than some gives the same without the others. -/
lemma fst_of_append {α : Type} {x : StateM (List Node) α} {a : α}
    (h : ∀ ls, x (ks ++ ls) = (a, ls)) (ls : List Node) :
    x (ks ++ ls) = ((x ks).1, ls) := by
  have hnil := h []
  rw [List.append_nil] at hnil
  rw [h ls, hnil]

/-- Some trees are those for a node and those for the nodes behind it. -/
lemma exists_split {i j : ℕ} (hks : ks.length = i + j) :
    ∃ as bs, ks = as ++ bs ∧ as.length = i ∧ bs.length = j :=
  ⟨ks.take i, ks.drop i, (List.take_append_drop _ _).symm,
    by rw [List.length_take]; omega, by rw [List.length_drop]; omega⟩

/-- Trees for several nodes are taken by one after the other, if each takes
those that are for it. -/
lemma putList_append_of (hns : ∀ n ∈ ns, ∀ ks ls : List Node,
      ks.length = n.unquotes.length → n.put (ks ++ ls) = (n.filled ks, ls))
    (hks : ks.length = (ns.flatMap unquotes).length) (ls : List Node) :
    putList ns (ks ++ ls) = (filledList ns ks, ls) := by
  induction ns generalizing ks ls with
  | nil =>
      obtain rfl : ks = [] := List.length_eq_zero_iff.mp hks
      rfl
  | cons n ns ih =>
      obtain ⟨hn, hns⟩ := List.forall_mem_cons.mp hns
      rw [List.flatMap_cons, List.length_append] at hks
      obtain ⟨as, bs, rfl, has, hbs⟩ := exists_split hks
      have hrun : ∀ ks, putList (n :: ns) ks =
          ((n.put ks).1 :: (putList ns (n.put ks).2).1,
            (putList ns (n.put ks).2).2) := fun _ => rfl
      refine fst_of_append (a := n.filled as :: filledList ns bs)
        (fun ls => ?_) ls
      rw [hrun, List.append_assoc, hn as _ has, ih hns hbs]

/-- **One for each.**  A tree takes one tree for each call of `unquote` on one
argument and leaves the others. -/
theorem put_append (n : Node) {ks : List Node}
    (hks : ks.length = n.unquotes.length) (ls : List Node) :
    n.put (ks ++ ls) = (n.filled ks, ls) := by
  -- by induction over the tree, for all trees that are left over; the argument
  -- of an `unquote` takes its own before the call takes one
  induction n using children_induct generalizing ks ls with
  | step n ih =>
      cases hn : n.unquoted? with
      | some arg =>
          have hmem : arg ∈ n.children := by
            obtain ⟨t, callee, rfl, -⟩ := unquoted?_inv hn
            simp [children]
          rw [unquotes_of_unquoted hn, List.length_append] at hks
          obtain ⟨as, bs, rfl, has, hbs⟩ := exists_split hks
          obtain ⟨k, rfl⟩ := List.length_eq_one_iff.mp hbs
          refine fst_of_append (a := k) (fun ls => ?_) ls
          rw [put_of_unquoted hn, List.append_assoc]
          show nextTree (arg.put (as ++ ([k] ++ ls))).2 = _
          rw [ih arg hmem has]
          rfl
      | none =>
          rw [unquotes_eq hn] at hks
          have hlist := putList_append_of
            (fun m hm ks ls hks => ih m hm hks ls) hks
          refine fst_of_append
            (a := n.withChildren (filledList n.children ks)) (fun ls => ?_) ls
          rw [put_eq hn]
          show (n.withChildren (putList n.children (ks ++ ls)).1,
            (putList n.children (ks ++ ls)).2) = _
          rw [hlist]

/-- The tree for a call is the last one for it and what is inside it. -/
lemma filled_of_unquoted (h : n.unquoted? = some arg)
    (hks : ks.length = arg.unquotes.length) (k : Node) :
    n.filled (ks ++ [k]) = k := by
  rw [filled, put_of_unquoted h]
  show (nextTree (arg.put (ks ++ [k])).2).1 = k
  rw [put_append arg hks]
  rfl

/-- Any other node is filled child by child. -/
lemma filled_eq (h : n.unquoted? = none) (ks : List Node) :
    n.filled ks = n.withChildren (filledList n.children ks) := by
  rw [filled, put_eq h]
  rfl

lemma filledList_cons (hks : ks.length = n.unquotes.length)
    (ls : List Node) :
    filledList (n :: ns) (ks ++ ls) = n.filled ks :: filledList ns ls := by
  show (n.put (ks ++ ls)).1 :: (putList ns (n.put (ks ++ ls)).2).1 = _
  rw [put_append n hks]
  rfl

/-- Of some trees a node takes the last ones that it has calls for. -/
lemma filledLast_append (ls : List Node)
    (hks : ks.length = n.unquotes.length) :
    n.filledLast (ls ++ ks) = n.filled ks := by
  rw [filledLast, List.length_append, hks, Nat.add_sub_cancel,
    List.drop_left]

/-- **Nothing to replace.**  A tree without calls of `unquote` on one argument
stays as it is. -/
theorem filled_nil (h : n.unquotes = []) : n.filled [] = n := by
  induction n using children_induct with
  | step n ih =>
      have hn : n.unquoted? = none := by
        rcases hn : n.unquoted? with _ | arg
        · rfl
        · rw [unquotes_of_unquoted hn] at h
          simp at h
      rw [unquotes_eq hn, List.flatMap_eq_nil_iff] at h
      have hlist : ∀ ns : List Node, (∀ m ∈ ns, m ∈ n.children) →
          filledList ns [] = ns := by
        intro ns hns
        induction ns with
        | nil => rfl
        | cons m ns ihns =>
            obtain ⟨hm, hns⟩ := List.forall_mem_cons.mp hns
            have hzero : ([] : List Node).length = m.unquotes.length := by
              rw [h m hm]
            have hcons : filledList (m :: ns) ([] ++ []) =
                m.filled [] :: filledList ns [] := filledList_cons hzero []
            rw [List.append_nil] at hcons
            rw [hcons, ih m hm (h m hm), ihns hns]
      rw [filled_eq hn, hlist _ fun _ => id, withChildren_children]

end MonkeyLang.Node

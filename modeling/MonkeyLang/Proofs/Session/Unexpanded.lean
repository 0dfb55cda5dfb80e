/-
Programs that call no macro.

* `Expanding.called?`: the macro that a node calls, if it does;
* `Node.transformM_fixed`: a rule that gives back every node of a tree and
  changes nothing does so with the whole tree;
* `expandAll_uncalled`: so does expansion if no node calls a macro;
* `Session.evaluate_uncalled`: an input that neither defines nor calls macros is
  evaluated as it was parsed.
-/
import MonkeyLang.Proofs.Eval.Keeps
import MonkeyLang.Proofs.Session.Concat
import MonkeyLang.Proofs.Tree.Postorder

namespace MonkeyLang

/-! ### Rules that leave a tree alone -/

/-- A rule that gives back every node of a tree and changes nothing does so with
the whole tree. -/
lemma Node.transformM_fixed {σ ε : Type}
    {f : Node → ExceptT ε (StateT σ Option) Node} {s : σ} {n : Node}
    (h : ∀ m ∈ n.postorder, f m s = some (.ok m, s)) :
    n.transformM f s = some (.ok n, s) := by
  induction n using children_induct with
  | step n ih =>
    by_cases hn : n = missing
    · subst hn
      rfl
    have hlist : ∀ ns : List Node, (∀ c ∈ ns, c ∈ n.children) →
        transformList f ns s = some (.ok ns, s) := by
      intro ns hns
      induction ns with
      | nil => rfl
      | cons c ns ihns =>
          obtain ⟨hc, hns⟩ := List.forall_mem_cons.mp hns
          have hchild := ih c hc fun m hm => h m (mem_postorder_child hc hm)
          rw [transformList, bind_ok hchild, bind_ok (ihns hns)]
          rfl
    rw [transformM_eq f hn, bind_ok (hlist _ fun _ => id), withChildren_children,
      h n (mem_postorder_self hn)]

/-! ### Expansion -/

namespace Expanding

/-- The macro that a node calls, if it does. -/
def called? (s : Session) : Node → Option Closure
  | .call _ callee _ => macroOf? callee s
  | _ => none

/-- **Expansion.**  A tree that calls no macro is given back as it is, and nothing
happens. -/
lemma expandAll_uncalled {s : Session} {n : Node}
    (h : ∀ m ∈ n.postorder, called? s m = none) (depth : ℕ) :
    expandAll depth n s = some (.ok n, s) := by
  refine Node.transformM_fixed fun m hm => expandNode_other ?_
  rintro t callee args rfl
  exact h _ hm

end Expanding

namespace Session

/-- An input that neither defines nor calls macros is what is evaluated. -/
lemma expand_uncalled {s : Session} {source : String} {n : Node}
    (hparsed : parsed source s.tracing = .ok n) (hnone : n.definitions = [])
    (h : ∀ m ∈ n.postorder, Expanding.called? s m = none) (depth : ℕ) :
    s.expand depth source = some (.ok n, s.heard source) := by
  have hprepared : s.prepared source n = s.heard source := by
    rw [prepared, hnone]
    rfl
  -- parsing binds no name, so the same macros are there
  have hexpand : Expanding.expandAll depth n (s.heard source) =
      some (.ok n, s.heard source) :=
    Expanding.expandAll_uncalled (s := s.heard source) h depth
  rw [expand_of_parsed hparsed, hprepared, Node.remainder_eq hnone,
    expandProgram, hexpand]
  rfl

/-- **Without macros.**  Where no call in a tree names a macro, expansion gives
the tree back, places included: it does not fail, and it binds, prints and
records nothing.  If the tree is an input that defines no macro either, then the
input is evaluated as it was parsed. -/
theorem evaluate_uncalled {s : Session} {n : Node}
    (h : ∀ m ∈ n.postorder, Expanding.called? s m = none) :
    (∀ depth, Expanding.expandAll depth n s = some (.ok n, s)) ∧
    ∀ source, parsed source s.tracing = .ok n → n.definitions = [] →
      ∀ depth, s.evaluate depth source =
        ((s.heard source).evaluateIn depth s.program n).map
          fun (v?, t) => (.ok v?, t) := by
  refine ⟨Expanding.expandAll_uncalled h, fun source hparsed hnone depth => ?_⟩
  exact evaluate_of_expand (expand_uncalled hparsed hnone h depth)

/-- A session with the macro `twice`. -/
def withTwice : Session :=
  (start false).defineMacro "twice" [.ofName "a"]
    (.block (.made .lbrace "\x7b") [.exprStmt (.made .ident "quote")
      (.call (.made .lparen "(") (.ofName "quote") [.ofName "a"])])

/-- An input in which that name is bound and handed to a call. -/
def twiceAsName : String :=
  "let twice = 2; fn(f) \x7b f(twice)(quote(unquote(f))) \x7d"

set_option maxRecDepth 4000 in
theorem evaluate_uncalled_twiceAsName : ∃ n,
    parsed twiceAsName false = .ok n ∧
    (n.postorder.filter (·.kind = .call)).length = 4 ∧
    Expanding.expandAll 0 n withTwice = some (.ok n, withTwice) ∧
    withTwice.evaluate 20 twiceAsName =
      ((withTwice.heard twiceAsName).evaluateIn 20 withTwice.program n).map
        fun (v?, t) => (.ok v?, t) := by
  obtain ⟨n, hn, hnone, hcount, h⟩ : ∃ n, parsed twiceAsName false = .ok n ∧
      n.definitions = [] ∧ (n.postorder.filter (·.kind = .call)).length = 4 ∧
      ∀ m ∈ n.postorder, Expanding.called? withTwice m = none :=
    ⟨_, rfl, rfl, rfl, fun m hm => by revert m; decide +kernel⟩
  obtain ⟨hexpand, hevaluate⟩ := evaluate_uncalled h
  exact ⟨n, hn, hcount, hexpand 0, hevaluate twiceAsName hn hnone 20⟩

end Session

end MonkeyLang

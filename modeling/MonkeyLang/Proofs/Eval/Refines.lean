/-
Runs that answer wherever others do.

* `Run.Refines r r'`: what the run `r` comes to the run `r'` comes to as well,
  with the lemmas around it: one for each way of building runs;
* `Node.Serves rec rec' n n'`: the node `n'` is good for `n`, in what it is
  evaluated to and in how it looks from above;
* `evalWith_serves`: a node with such children in place of its own comes to
  what the node does;
* `eval_mono`: evaluation with a higher bound comes to the same.
-/
import MonkeyLang.Proofs.Eval.Keeps
import MonkeyLang.Proofs.Eval.Steps
import Mathlib.Data.List.Forall2

namespace MonkeyLang

open List (Forall₂)

/-! ### Runs -/

namespace Run

variable {α β : Type}

/-- Whatever the first run comes to, the second one does. -/
def Refines (r r' : Run α) : Prop := ∀ s x, r s = some x → r' s = some x

namespace Refines

lemma refl (r : Run α) : r.Refines r := fun _ _ h => h

lemma trans {r r' r'' : Run α} (h : r.Refines r') (h' : r'.Refines r'') :
    r.Refines r'' :=
  fun s x hx => h' s x (h s x hx)

lemma bind {r r' : Run α} {k k' : α → Run β} (hr : r.Refines r')
    (hk : ∀ a, (k a).Refines (k' a)) : (r >>= k).Refines (r' >>= k') := by
  rintro s ⟨out, s'⟩ h
  rcases bind_inv h with ⟨f, rfl, hf⟩ | ⟨a, s₁, ha, hrest⟩
  · exact bind_error (hr s _ hf)
  · exact (bind_ok (hr s _ ha)).trans (hk a s₁ _ hrest)

/-- What comes behind both is the same. -/
lemma bind_same {r r' : Run α} (hr : r.Refines r') (k : α → Run β) :
    (r >>= k).Refines (r' >>= k) :=
  hr.bind fun a => refl (k a)

/-- Changes of trees by rules of which one refines the other. -/
lemma transformM {f f' : Node → Run Node} (h : ∀ m, (f m).Refines (f' m))
    (n : Node) : Refines (n.transformM f) (n.transformM f') := by
  induction n using Node.children_induct with
  | step n ih =>
      by_cases hmissing : n = .missing
      · rw [hmissing]
        exact refl _
      have hlist : ∀ ns : List Node, (∀ m ∈ ns, m ∈ n.children) →
          Refines (Node.transformList f ns) (Node.transformList f' ns) := by
        intro ns hns
        induction ns with
        | nil => exact refl _
        | cons m ns ihns =>
            obtain ⟨hm, hns⟩ := List.forall_mem_cons.mp hns
            exact (ih m hm).bind fun c => (ihns hns).bind_same _
      rw [Node.transformM_eq f hmissing, Node.transformM_eq f' hmissing]
      exact (hlist _ fun _ => id).bind fun cs => h _

end Refines

end Run

/-! ### Nodes in place of others -/

section

variable (rec rec' : Node → ℕ → Run (Option Value))

/-- A node that is evaluated to all that another one is evaluated to, and is
absent or names a special form where that one does. -/
structure Node.Serves (n n' : Node) : Prop where
  refines : ∀ e, (rec n e).Refines (rec' n' e)
  isMissing : n.isMissing = n'.isMissing
  form : SpecialForm.ofCallee? n = SpecialForm.ofCallee? n'

end

lemma Node.Serves.mono {rec rec' rec'' : Node → ℕ → Run (Option Value)}
    {n n' : Node} (h : n.Serves rec rec' n')
    (hrec : ∀ m e, (rec' m e).Refines (rec'' m e)) : n.Serves rec rec'' n' :=
  ⟨fun e => (h.refines e).trans (hrec n' e), h.isMissing, h.form⟩

namespace Node

/-- Nodes that come to a result by their children's results: no literals of
functions and macros, no calls of special forms. -/
def isDirect : Node → Bool
  | function .. | macroFn .. => false
  | call _ callee _ => SpecialForm.ofCallee? callee = none
  | _ => true

end Node

section

open Node Run

variable {rec rec' : Node → ℕ → Run (Option Value)} {e : ℕ} {n n' : Node}
  {ns ns' : List Node}

lemma operand_serves (h : n.Serves rec rec' n') :
    (operand rec e n).Refines (operand rec' e n') :=
  (h.refines e).bind_same _

lemma operands_serves (h : Forall₂ (Serves rec rec') ns ns') :
    (operands rec e ns).Refines (operands rec' e ns') := by
  induction h with
  | nil => exact .refl _
  | cons hn _ ih =>
      exact (operand_serves hn).bind fun v => ih.bind_same _

lemma sequence_serves (h : Forall₂ (Serves rec rec') ns ns')
    (last : Option Value) :
    (sequence rec e last ns).Refines (sequence rec' e last ns') := by
  induction h generalizing last with
  | nil => exact .refl _
  | cons hn _ ih =>
      refine (hn.refines e).bind fun v? => ?_
      split
      · exact .refl _
      · exact ih v?

lemma entries_serves {ps ps' : List (Node × Node)}
    (h : Forall₂ (fun p p' => p.1.Serves rec rec' p'.1 ∧
      p.2.Serves rec rec' p'.2) ps ps') (t : Table) :
    (entries rec e t ps).Refines (entries rec' e t ps') := by
  induction h generalizing t with
  | nil => exact .refl _
  | cons hp _ ih =>
      refine (operand_serves hp.1).bind fun key => (Refines.refl _).bind
        fun h => (operand_serves hp.2).bind fun v => ih _

/-- Children in turn are the entries of a hash in turn. -/
lemma forall₂_pairUp {R : Node → Node → Prop} {cs cs' : List Node}
    (h : Forall₂ R cs cs') :
    Forall₂ (fun p p' => R p.1 p'.1 ∧ R p.2 p'.2) (pairUp cs)
      (pairUp cs') := by
  induction cs using pairUp.induct generalizing cs' with
  | case1 k v ns ih =>
      rcases h with _ | ⟨hk, _ | ⟨hv, hns⟩⟩
      exact .cons ⟨hk, hv⟩ (ih hns)
  | case2 ns hns =>
      rcases h with _ | ⟨hk, _ | ⟨hv, _⟩⟩
      · exact .nil
      · exact .nil
      · exact absurd rfl (hns _ _ _)

/-- A node with such children looks from above as it did. -/
lemma isDirect_of_serves {cs cs' : List Node}
    (hdirect : (n.withChildren cs).isDirect = true)
    (hlength : cs.length = n.children.length)
    (h : Forall₂ (Serves rec rec') cs cs') :
    (n.withChildren cs').isDirect = true := by
  cases n with
  | call =>
      rcases h with _ | ⟨hc, -⟩
      · cases hlength
      have hplain := of_decide_eq_true hdirect
      exact decide_eq_true (hc.form.symm.trans hplain)
  | function | macroFn => cases hdirect
  | letStmt | returnStmt | exprStmt | prefixOp =>
      rcases h with _ | ⟨-, _ | _⟩ <;> cases hlength
      rfl
  | infixOp | index =>
      rcases h with _ | ⟨-, _ | ⟨-, _ | _⟩⟩ <;> cases hlength
      rfl
  | conditional =>
      rcases h with _ | ⟨-, _ | ⟨-, _ | ⟨-, _ | _⟩⟩⟩ <;> cases hlength
      rfl
  | _ => rfl

variable (hbody : ∀ b e, (rec b e).Refines (rec' b e))

include hbody

lemma applyWith_refines (f : Value) (args : List Value) :
    (applyWith rec f args).Refines (applyWith rec' f args) := by
  rcases applyWith_cases f args with
    ⟨c, rfl, -, happly⟩ | ⟨b, rfl, happly⟩ | ⟨g, happly⟩
  · rw [happly, happly]
    exact (Refines.refl _).bind fun d => (hbody c.body d).bind_same _
  · rw [happly, happly]
    exact .refl _
  · rw [happly, happly]
    exact .refl _

/-- **One step.**  A node with other children comes to what it comes to with
those that they are good for. -/
theorem evalWith_serves {cs cs' : List Node}
    (hdirect : (n.withChildren cs).isDirect = true)
    (hlength : cs.length = n.children.length)
    (h : Forall₂ (Serves rec rec') cs cs') (e : ℕ) :
    (evalWith rec (n.withChildren cs) e).Refines
      (evalWith rec' (n.withChildren cs') e) := by
  cases n with
  | missing | ident | intLit | boolLit | strLit => exact .refl _
  | program => exact (sequence_serves h none).bind_same _
  | block => exact sequence_serves h none
  | array => exact (operands_serves h).bind_same _
  | hash =>
      exact (entries_serves (forall₂_pairUp h) .empty).bind_same _
  | exprStmt =>
      rcases h with _ | ⟨hv, _ | _⟩ <;> cases hlength
      exact hv.refines e
  | letStmt | returnStmt | prefixOp =>
      rcases h with _ | ⟨hv, _ | _⟩ <;> cases hlength
      exact (operand_serves hv).bind_same _
  | infixOp | index =>
      rcases h with _ | ⟨hl, _ | ⟨hr, _ | _⟩⟩ <;> cases hlength
      exact (operand_serves hl).bind fun v => (operand_serves hr).bind_same _
  | conditional =>
      rcases h with _ | ⟨hc, _ | ⟨ha, _ | ⟨hb, _ | _⟩⟩⟩ <;> cases hlength
      refine (hc.refines e).bind fun v? => ?_
      -- an alternative that is missing is never evaluated, so both have one or
      -- neither does
      rw [hb.isMissing]
      split
      · exact ha.refines e
      · split
        · exact .refl _
        · exact hb.refines e
  | call =>
      rcases h with _ | ⟨hc, has⟩
      · cases hlength
      -- the callee is no special form, so both calls evaluate their callees and
      -- arguments
      have hplain := of_decide_eq_true hdirect
      have hplain' := hc.form.symm.trans hplain
      show (callWith rec e _ _).Refines (callWith rec' e _ _)
      rw [callWith_plain rec e hplain, callWith_plain rec' e hplain']
      refine (operand_serves hc).bind fun f => ?_
      exact (operands_serves has).bind fun vs => applyWith_refines hbody f vs
  | function | macroFn => cases hdirect

/-- Any node comes to what it comes to if all its parts do. -/
lemma evalWith_refines (n : Node) (e : ℕ) :
    (evalWith rec n e).Refines (evalWith rec' n e) := by
  by_cases hdirect : n.isDirect = true
  · have hsame : Forall₂ (Serves rec rec') n.children n.children :=
      List.forall₂_same.mpr fun m _ => ⟨hbody m, rfl, rfl⟩
    have hstep := evalWith_serves hbody
      (by rwa [withChildren_children]) rfl hsame e
    rwa [withChildren_children] at hstep
  cases n with
  | function | macroFn => exact .refl _
  | call t callee args =>
      show (callWith rec e callee args).Refines (callWith rec' e callee args)
      rcases callWith_cases callee args with
        hplain | ⟨n, hquote, rfl⟩ | ⟨f, hfault⟩
      · exact absurd (decide_eq_true hplain) hdirect
      · rw [callWith_quote rec e hquote, callWith_quote rec' e hquote]
        refine (Refines.transformM (fun m => ?_) n).bind_same _
        rcases replaceUnquote_cases m with ⟨-, -, arg, -, -, hrule⟩ | hrule
        · rw [hrule, hrule]
          exact (hbody arg e).bind_same _
        · rw [hrule, hrule]
          exact .refl _
      · rw [hfault, hfault]
        exact .refl _
  | _ => exact absurd rfl hdirect

end

/-- **A higher bound.**  What evaluation comes to within a bound, it comes to
within any higher one. -/
theorem eval_mono {depth depth' : ℕ} (h : depth ≤ depth') (n : Node) (e : ℕ) :
    (eval depth n e).Refines (eval depth' n e) := by
  induction depth generalizing depth' n e with
  | zero => exact fun s x hx => by cases hx
  | succ depth ih =>
      obtain ⟨depth', rfl⟩ : ∃ d, depth' = d + 1 := ⟨depth' - 1, by omega⟩
      exact evalWith_refines (ih (by omega)) n e

end MonkeyLang

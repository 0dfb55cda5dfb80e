/-
Evaluation in which some calls are not allowed.

* `evalOnly allowed n`: evaluation with at most `n` evaluations nested in each
  other, which has no answer once a call is due that is not allowed;
* `evalOnly_refines`: what it comes to evaluation comes to;
* `evalOnly_eq`: where all calls inside are allowed it is evaluation.
-/
import MonkeyLang.Proofs.Eval.Answers
import MonkeyLang.Proofs.Eval.FirstError
import MonkeyLang.Proofs.Eval.Refines

namespace MonkeyLang

open Relation (ReflTransGen)

/-! ### Steps -/

section

variable (allowed : Value → List Value → Bool)
  (rec : Node → ℕ → Run (Option Value))

/-- The result of calling a value, if that is allowed. -/
def applyOnly (f : Value) (args : List Value) : Run (Option Value) :=
  if allowed f args then applyWith rec f args else Run.tooDeep

/-- One step of evaluation, with allowed calls only. -/
def evalOnlyWith (n : Node) (e : ℕ) : Run (Option Value) :=
  match n with
  | .call t callee args =>
    if SpecialForm.ofCallee? callee = none then do
      let f ← operand rec e callee
      let vs ← operands rec e args
      applyOnly allowed rec f vs
    else evalWith rec (.call t callee args) e
  | n => evalWith rec n e

end

/-- The value of a node in a frame, with at most `n` evaluations nested in each
other and with allowed calls only. -/
def evalOnly (allowed : Value → List Value → Bool) :
    ℕ → Node → ℕ → Run (Option Value)
  | 0, _, _ => Run.tooDeep
  | n + 1, node, e => evalOnlyWith allowed (evalOnly allowed n) node e

/-- A step is that of evaluation, but for calls with values. -/
lemma evalOnlyWith_cases (n : Node) :
    (∃ t callee args, n = .call t callee args ∧
      SpecialForm.ofCallee? callee = none ∧ ∀ allowed rec e,
        evalOnlyWith allowed rec n e = operand rec e callee >>= fun f =>
          operands rec e args >>= fun vs => applyOnly allowed rec f vs) ∨
    ∀ allowed rec e, evalOnlyWith allowed rec n e = evalWith rec n e := by
  cases n with
  | call t callee args =>
      by_cases hplain : SpecialForm.ofCallee? callee = none
      · exact Or.inl ⟨t, callee, args, rfl, hplain,
          fun allowed rec e => if_pos hplain⟩
      · exact Or.inr fun allowed rec e => if_neg hplain
  | _ => exact Or.inr fun allowed rec e => rfl

/-! ### Evaluation -/

variable {allowed : Value → List Value → Bool}

/-- Allowed calls are calls. -/
lemma applyOnly_refines {rec rec' : Node → ℕ → Run (Option Value)}
    (h : ∀ n e, (rec n e).Refines (rec' n e)) (f : Value) (args : List Value) :
    (applyOnly allowed rec f args).Refines (applyWith rec' f args) := by
  by_cases hallowed : allowed f args = true
  · rw [applyOnly, if_pos hallowed]
    exact applyWith_refines h f args
  · rw [applyOnly, if_neg hallowed]
    exact fun s x hx => by cases hx

/-- **Evaluation comes to the same.**  Whatever evaluation with allowed calls
comes to, evaluation does. -/
theorem evalOnly_refines (depth : ℕ) (n : Node) (e : ℕ) :
    (evalOnly allowed depth n e).Refines (eval depth n e) := by
  induction depth generalizing n e with
  | zero => exact fun s x hx => by cases hx
  | succ depth ih =>
      show (evalOnlyWith allowed (evalOnly allowed depth) n e).Refines
        (evalWith (eval depth) n e)
      -- only plain calls are stepped differently; their parts are evaluated as
      -- the induction says, and the call is one that evaluation makes as well
      rcases evalOnlyWith_cases n with
        ⟨t, callee, args, rfl, hplain, hstep⟩ | hstep
      · rw [hstep]
        show Run.Refines _ (callWith (eval depth) e callee args)
        rw [callWith_plain _ e hplain]
        have hsame : ∀ m : Node,
            m.Serves (evalOnly allowed depth) (eval depth) m :=
          fun m => ⟨ih m, rfl, rfl⟩
        refine (operand_serves (hsame callee)).bind fun f => ?_
        refine Run.Refines.bind (operands_serves ?_) fun vs => ?_
        · exact List.forall₂_same.mpr fun m _ => hsame m
        · exact applyOnly_refines ih f vs
      · rw [hstep]
        exact evalWith_refines ih n e

/-- **Evaluation is the same.**  Where all calls inside are allowed, to allow no
others does not matter. -/
theorem evalOnly_eq {depth : ℕ} {n : Node} {e : ℕ} {s : Store}
    (h : ∀ q f args, ReflTransGen Moment.Calls ⟨depth, .eval n e, s⟩ q →
      q.job = .apply f args → allowed f args = true) :
    evalOnly allowed depth n e s = eval depth n e s := by
  induction depth generalizing n e s with
  | zero => rfl
  | succ depth ih =>
      have hparts : ∀ i s', Asks (eval depth) (.eval n e) s i s' →
          i.answer (evalOnly allowed depth) s' = i.answer (eval depth) s' := by
        intro i s' hi
        have hinside : ∀ q f args, ReflTransGen Moment.Calls ⟨depth, i, s'⟩ q →
            q.job = .apply f args → allowed f args = true :=
          fun q f args hq => h q f args (.head (.ofEval hi) hq)
        cases i with
        | eval m d => exact ih hinside
        | apply f args =>
            refine Job.step_congr (j := .apply f args) fun k s'' hk => ?_
            cases hk with
            | body hargs hframe =>
                exact ih fun q f args hq =>
                  hinside q f args (.head (.ofApply (.body hargs hframe)) hq)
      have hstep : evalWith (evalOnly allowed depth) n e s =
          evalWith (eval depth) n e s := evalWith_congr hparts
      rcases evalOnlyWith_cases n with
        ⟨t, callee, args, rfl, hplain, honly⟩ | honly
      · have hsame : ∀ m : Node,
            m.Serves (evalOnly allowed depth) (eval depth) m :=
          fun m => ⟨evalOnly_refines depth m, rfl, rfl⟩
        refine Eq.trans ?_ hstep
        show evalOnlyWith allowed _ _ e s = callWith _ e callee args s
        rw [honly, callWith_plain _ e hplain]
        refine bind_congr rfl fun f s₁ hf => bind_congr rfl fun vs s₂ hvs => ?_
        -- the call is due in evaluation, too, so it is allowed
        have hcall : Asks (eval depth) (.eval (.call t callee args) e) s
            (.apply f vs) s₂ :=
          .call hplain (operand_serves (hsame callee) _ _ hf)
            (operands_serves (List.forall₂_same.mpr fun m _ => hsame m) _ _ hvs)
        have hallowed := h ⟨depth, .apply f vs, s₂⟩ f vs
          (.single (.ofEval hcall)) rfl
        rw [applyOnly, if_pos hallowed]
      · exact (congrFun (honly _ _ e) s).trans hstep

end MonkeyLang

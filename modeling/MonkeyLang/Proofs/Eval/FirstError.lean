/-
The first error is final.

* `Value.NoError`: an answer that is no error, and the lemmas that evaluation
  gives no other: an error among the values always stops a run;
* `Moment`: a job, the bound on how deep it may go and the store in which it
  starts;
* `Moment.Calls`: one moment is directly inside another one, at any of the
  places that `Asks` names;
* `first_error_final`: an error of any job inside an evaluation is the error
  of the evaluation, and nothing happens after it.
-/
import MonkeyLang.Proofs.Eval.Asks
import MonkeyLang.Session
import Mathlib.Logic.Relation

namespace MonkeyLang

open Relation (ReflTransGen)

/-! ### Errors are no answers -/

/-- An answer that is no error. -/
def Value.NoError (v? : Option Value) : Prop := ∀ f, v? ≠ some (.error f)

lemma Value.noError_none : NoError none := fun _ h => by cases h

/-- Of a value its kind shows whether it is an error. -/
lemma Value.noError_some {v : Value} (hv : v.kind ≠ .error) :
    NoError (some v) := by
  rintro f ⟨rfl⟩
  exact hv rfl

/-- A run whose answers are no errors, from whatever store. -/
abbrev Run.Settled (r : Run (Option Value)) : Prop :=
  Keeps (fun _ => True) Value.NoError r

namespace Run

lemma keeps_true {α : Type} (r : Run α) :
    Keeps (fun _ => True) (fun _ => True) r :=
  fun _ _ _ _ _ => ⟨trivial, fun _ _ => trivial⟩

/-- What follows a run is settled if it is behind every answer. -/
lemma settled_bind {α : Type} (r : Run α) {k : α → Run (Option Value)}
    (hk : ∀ a, Settled (k a)) : Settled (r >>= k) :=
  (keeps_true r).bind fun a _ => hk a

/-- A value that is shown to be no error by its kind. -/
lemma settled_some {v : Value} (hv : (v.kind == .error) = false) :
    Settled (pure (some v)) :=
  Keeps.pure (Value.noError_some (by simpa using hv))

lemma settled_settle (r : Except Fault Value) : Settled (settle r) := by
  rcases settle_cases r with ⟨v, -, hv, hsettle⟩ | ⟨f, hsettle⟩
  · rw [hsettle]
    exact Keeps.pure (Value.noError_some hv)
  · rw [hsettle]
    exact Keeps.throw f

lemma settled_deliver (v? : Option Value) : Settled (deliver v?) := by
  rcases deliver_cases v? with ⟨-, hdeliver⟩ | ⟨v, -, hdeliver⟩
  · rw [hdeliver]
    exact Keeps.pure Value.noError_none
  · rw [hdeliver]
    exact settled_settle _

end Run

section

variable {rec : Node → ℕ → Run (Option Value)}

lemma settled_named (e : ℕ) (name : String) : Run.Settled (named e name) := by
  refine Run.settled_bind _ fun s => ?_
  split
  · exact Run.settled_settle _
  · split
    · exact Run.settled_some rfl
    · exact Keeps.throw _

lemma settled_applyWith (f : Value) (args : List Value) :
    Run.Settled (applyWith rec f args) := by
  rcases applyWith_cases f args with
    ⟨c, -, -, happly⟩ | ⟨b, -, happly⟩ | ⟨g, happly⟩
  · rw [happly]
    exact Run.settled_bind _ fun e => Run.settled_bind _ Run.settled_deliver
  · rw [happly]
    exact Run.settled_bind _ fun _ => Run.settled_settle _
  · rw [happly]
    exact Keeps.throw g

lemma settled_callWith (e : ℕ) (callee : Node) (args : List Node) :
    Run.Settled (callWith rec e callee args) := by
  rcases callWith_cases callee args with
    hplain | ⟨n, hquote, rfl⟩ | ⟨f, hfault⟩
  · rw [callWith_plain rec e hplain]
    exact Run.settled_bind _ fun f => Run.settled_bind _ fun vs =>
      settled_applyWith f vs
  · rw [callWith_quote rec e hquote]
    exact Run.settled_bind _ fun _ => Run.settled_some rfl
  · rw [hfault]
    exact Keeps.throw f

variable (hrec : ∀ n e, Run.Settled (rec n e))

include hrec

lemma settled_sequence (e : ℕ) {last : Option Value}
    (hlast : Value.NoError last) (ss : List Node) :
    Run.Settled (sequence rec e last ss) := by
  induction ss generalizing last with
  | nil => exact Keeps.pure hlast
  | cons n ss ih =>
      refine (hrec n e).bind fun v? hv => ?_
      split
      · exact Run.settled_some rfl
      · exact ih hv

/-- No step gives an error as its answer. -/
lemma settled_evalWith (n : Node) (e : ℕ) : Run.Settled (evalWith rec n e) := by
  cases n with
  | missing => exact Keeps.pure Value.noError_none
  | intLit | boolLit | strLit => exact Run.settled_some rfl
  | program ss => exact Run.settled_bind _ Run.settled_deliver
  | block t ss => exact settled_sequence hrec e Value.noError_none ss
  | exprStmt t m => exact hrec m e
  | returnStmt | array | hash | function | macroFn =>
      exact Run.settled_bind _ fun _ => Run.settled_some rfl
  | letStmt =>
      exact Run.settled_bind _ fun _ => Run.settled_bind _ fun _ =>
        Keeps.pure Value.noError_none
  | prefixOp => exact Run.settled_bind _ fun _ => Run.settled_settle _
  | infixOp | index =>
      exact Run.settled_bind _ fun _ => Run.settled_bind _ fun _ =>
        Run.settled_settle _
  | conditional t c a b =>
      refine Run.settled_bind _ fun v? => ?_
      split
      · exact hrec a e
      · split
        · exact Run.settled_some rfl
        · exact hrec b e
  | ident t => exact settled_named e t.text
  | call t callee args => exact settled_callWith e callee args

end

/-- Evaluation gives no error as its answer. -/
theorem settled_eval (depth : ℕ) (n : Node) (e : ℕ) :
    Run.Settled (eval depth n e) := by
  induction depth generalizing n e with
  | zero => exact Keeps.none
  | succ depth ih => exact settled_evalWith ih n e

/-! ### Jobs inside jobs -/

/-- A job, how deep evaluations may be nested in it, and the store in which it
starts. -/
structure Moment where
  depth : ℕ
  job : Job
  store : Store

namespace Moment

/-- How a job ends. -/
def outcome : Moment → Option (Except Fault (Option Value) × Store)
  | ⟨depth, .eval n e, s⟩ => eval depth n e s
  | ⟨depth, .apply f args, s⟩ => apply depth f args s

/-- One job comes to ask for another one. -/
inductive Calls : Moment → Moment → Prop where
  | ofEval {depth e : ℕ} {n : Node} {i : Job} {s s' : Store}
      (h : Asks (MonkeyLang.eval depth) (.eval n e) s i s') :
      Calls ⟨depth + 1, .eval n e, s⟩ ⟨depth, i, s'⟩
  | ofApply {depth : ℕ} {f : Value} {args : List Value} {i : Job}
      {s s' : Store}
      (h : Asks (MonkeyLang.eval depth) (.apply f args) s i s') :
      Calls ⟨depth, .apply f args, s⟩ ⟨depth, i, s'⟩

/-- No job ends with an error as its answer: errors are faults. -/
lemma outcome_of_resultOf {p : Moment} {out : Except Fault (Option Value)}
    {s : Store} {f : Fault} (hp : p.outcome = some (out, s))
    (hout : Run.resultOf out = some (.error f)) : out = .error f := by
  have hsettled : ∀ v?, out = .ok v? → Value.NoError v? := by
    obtain ⟨depth, j, t⟩ := p
    cases j with
    | eval n e => exact (settled_eval depth n e t out s trivial hp).2
    | apply g args =>
        exact (settled_applyWith g args t out s trivial hp).2
  cases out with
  | error g =>
      cases hout
      rfl
  | ok v? => exact absurd hout (hsettled v? rfl f)

/-- The fault of a job is that of the job which asks for it. -/
lemma Calls.outcome_error {p q : Moment} {s : Store} {f : Fault}
    (h : p.Calls q) (hq : q.outcome = some (.error f, s)) :
    p.outcome = some (.error f, s) := by
  have hanswer : ∀ (depth : ℕ) (i : Job) (s' : Store),
      (⟨depth, i, s'⟩ : Moment).outcome =
        i.answer (MonkeyLang.eval depth) s' := by
    intro depth i s'
    cases i <;> rfl
  cases h with
  | ofEval h => exact h.step_error ((hanswer _ _ _).symm.trans hq)
  | ofApply h => exact h.step_error ((hanswer _ _ _).symm.trans hq)

/-- So it is of every job around it, however deep it lies. -/
lemma outcome_error {p q : Moment} {s : Store} {f : Fault}
    (h : ReflTransGen Calls p q) (hq : q.outcome = some (.error f, s)) :
    p.outcome = some (.error f, s) := by
  induction h using ReflTransGen.head_induction_on with
  | refl => exact hq
  | head hstep _ ih => exact hstep.outcome_error ih

end Moment

/-- **The first error is final.**  If any job inside the evaluation of a node
results in an error, be it the evaluation of a part or the result of a call,
then the evaluation results in that error, and it ends with the store as the
job left it: nothing is printed and nothing bound after the error.  This holds
from every store, even one whose frames hold errors, since a name that is
bound to one gives it. -/
theorem first_error_final {depth : ℕ} {n : Node} {e : ℕ} {s s' : Store}
    {q : Moment} {out : Except Fault (Option Value)} {f : Fault}
    (hq : ReflTransGen Moment.Calls ⟨depth, .eval n e, s⟩ q)
    (hout : q.outcome = some (out, s'))
    (herror : Run.resultOf out = some (.error f)) :
    ∃ out', eval depth n e s = some (out', s') ∧
      Run.resultOf out' = some (.error f) := by
  obtain rfl := Moment.outcome_of_resultOf hout herror
  exact ⟨.error f, Moment.outcome_error hq hout, rfl⟩

/-- The expression `1 + true`. -/
def badSum : Node :=
  .infixOp (.made .plus "+") (.intLit (.made .int "1") 1)
    (.boolLit (.made .trueKey "true") true)

/-- The program `puts(1 + true); let x = 5;`. -/
def putsBadSum : Node :=
  .program
    [.exprStmt (.made .ident "puts")
      (.call (.made .lparen "(") (.ident (.made .ident "puts")) [badSum]),
     .letStmt (.made .letKey "let") (.made .ident "x")
      (.intLit (.made .int "5") 5)]

/-- The sum stops the program before anything is printed or bound. -/
theorem first_error_final_putsBadSum : ∃ q out,
    ReflTransGen Moment.Calls
      ⟨5, .eval putsBadSum 0, (Session.start false).store⟩ q ∧
    q.outcome = some (out, (Session.start false).store) ∧
    Run.resultOf out =
      some (.error (.typeMismatch .integer "+" .boolean)) ∧
    ∃ out', eval 5 putsBadSum 0 (Session.start false).store =
        some (out', (Session.start false).store) ∧
      Run.resultOf out' =
        some (.error (.typeMismatch .integer "+" .boolean)) := by
  have hcalls : ReflTransGen Moment.Calls
      ⟨5, .eval putsBadSum 0, (Session.start false).store⟩
      ⟨2, .eval badSum 0, (Session.start false).store⟩ :=
    .head (.ofEval (.firstStatement rfl)) <| .head (.ofEval (.first rfl)) <|
      .single (.ofEval (.second rfl rfl))
  exact ⟨_, _, hcalls, rfl, rfl, first_error_final hcalls rfl rfl⟩

end MonkeyLang

/-
Whole evaluations within a regime.

* `Regime.Permits`: all calls inside an evaluation are allowed by the regime;
* `Lawful.ends`: an evaluation that starts within the regime is answered
  within it;
* `Regime.Inside`, `Lawful.inside`: so is every evaluation and every call
  inside it, at any depth, from the store in which it starts;
* `Moment.Passes`, `Lawful.le_of_passes`: and so are the stores in between;
* `Lawful.plain_of_calls`: what such an evaluation asks for in a value position
  is a plain tree.
-/
import MonkeyLang.Proofs.Eval.Within
import MonkeyLang.Proofs.Eval.FirstError

namespace MonkeyLang

open Relation (ReflTransGen)

/-- A job ends as it does inside another one. -/
lemma Moment.outcome_eq (p : Moment) :
    p.outcome = p.job.answer (MonkeyLang.eval p.depth) p.store := by
  obtain ⟨depth, j, s⟩ := p
  cases j <;> rfl

/-- The stores that a job passes: those in which a job inside it starts or
ends. -/
inductive Moment.Passes (m : Moment) : Store → Prop where
  | starts {q : Moment} (hq : ReflTransGen Moment.Calls m q) : Passes m q.store
  | ends {q : Moment} {out : Except Fault (Option Value)} {t : Store}
      (hq : ReflTransGen Moment.Calls m q) (hout : q.outcome = some (out, t)) :
      Passes m t

namespace Regime

/-- All calls inside a job are allowed by the regime. -/
def Permits (R : Regime) (p : Moment) : Prop :=
  ∀ q, ReflTransGen Moment.Calls p q →
    ∀ f args, q.job = .apply f args → R.call f args

/-- Inside one job another one starts, within the regime, and ends in it. -/
structure Inside (R : Regime) (p q : Moment) : Prop where
  good : R.good q.store
  le : R.le p.store q.store
  asked : R.asked q.store q.job
  ends : Ends R.toWorld (R.answer q.job)
    (q.job.answer (MonkeyLang.eval q.depth)) q.store

variable {R : Regime} {p q : Moment}

lemma Permits.step (h : R.Permits p) (hpq : p.Calls q) : R.Permits q :=
  fun r hr => h r (.head hpq hr)

/-- Where all calls are allowed there is nothing to ask. -/
lemma permits_of_all (h : ∀ f args, R.call f args) (p : Moment) :
    R.Permits p :=
  fun _ _ f args _ => h f args

namespace Lawful

variable (h : R.Lawful)

include h

/-! ### Answers -/

/-- Calls are answered within the regime if evaluations of the same depth
are. -/
lemma ends_apply_of_eval {depth : ℕ}
    (heval : ∀ n e s, R.Permits ⟨depth, .eval n e, s⟩ → R.good s →
      R.asked s (.eval n e) →
      Ends R.toWorld (R.answer (.eval n e)) (eval depth n e) s)
    {f : Value} {args : List Value} {s : Store}
    (hcalls : R.Permits ⟨depth, .apply f args, s⟩) (hs : R.good s)
    (hj : R.asked s (.apply f args)) :
    Ends R.toWorld (R.answer (.apply f args)) (apply depth f args) s := by
  refine h.ends_step hs hj (fun g bs hg => hcalls _ .refl g bs hg)
    fun i s' hi hgood _ hasked => ?_
  have hpermits := hcalls.step (.ofApply hi)
  cases hi with
  | body => exact heval _ _ _ hpermits hgood hasked

lemma ends_eval (depth : ℕ) (n : Node) (e : ℕ) (s : Store)
    (hcalls : R.Permits ⟨depth, .eval n e, s⟩) (hs : R.good s)
    (hj : R.asked s (.eval n e)) :
    Ends R.toWorld (R.answer (.eval n e)) (eval depth n e) s := by
  -- a step asks for evaluations and calls one level further in
  induction depth generalizing n e s with
  | zero => exact Ends.none s
  | succ depth ih =>
      refine h.ends_step hs hj nofun fun i s' hi hgood _ hasked => ?_
      have hpermits := hcalls.step (.ofEval hi)
      cases i with
      | eval m d => exact ih m d s' hpermits hgood hasked
      | apply f args => exact h.ends_apply_of_eval ih hpermits hgood hasked

/-- A job that starts within the regime is answered within it. -/
theorem ends (hcalls : R.Permits p) (hs : R.good p.store)
    (hj : R.asked p.store p.job) :
    Ends R.toWorld (R.answer p.job)
      (p.job.answer (MonkeyLang.eval p.depth)) p.store := by
  obtain ⟨depth, j, s⟩ := p
  cases j with
  | eval n e => exact h.ends_eval depth n e s hcalls hs hj
  | apply f args =>
      exact h.ends_apply_of_eval (h.ends_eval depth) hcalls hs hj

/-! ### All that lies inside -/

/-- What a job asks for is answered within the regime. -/
lemma answered (hcalls : R.Permits p) {depth : ℕ}
    (hp : ∀ i s', Asks (MonkeyLang.eval depth) p.job p.store i s' →
      p.Calls ⟨depth, i, s'⟩) :
    R.Answered (MonkeyLang.eval depth) p.job p.store :=
  fun i s' hi hgood _ hasked =>
    h.ends (p := ⟨depth, i, s'⟩) (hcalls.step (hp i s' hi)) hgood hasked

/-- What one job directly asks for starts within the regime if it does. -/
lemma asked_of_calls (hpq : p.Calls q) (hcalls : R.Permits p)
    (hs : R.good p.store) (hj : R.asked p.store p.job) :
    R.good q.store ∧ R.le p.store q.store ∧ R.asked q.store q.job := by
  cases hpq with
  | ofEval hi =>
      exact h.asked_of_asks hs hj
        (h.answered hcalls fun _ _ hi => .ofEval hi) hi
  | ofApply hi =>
      exact h.asked_of_asks hs hj
        (h.answered hcalls fun _ _ hi => .ofApply hi) hi

/-- What is asked for in a value position is a plain tree, and so is whatever
is asked for that does not stand where the value may be that of the node. -/
lemma plain_of_calls (hpq : p.Calls q) (hcalls : R.Permits p)
    (hs : R.good p.store) (hj : R.asked p.store p.job) {n m : Node} {e d : ℕ}
    (hn : p.job = .eval n e) (hm : q.job = .eval m d)
    (hposition : m ∈ n.valueParts ∨ m ∉ n.tailParts) : R.plain m := by
  cases hpq with
  | ofEval hi =>
      cases hn
      cases hm
      exact h.plain_of_asks hs hj
        (h.answered hcalls fun _ _ hi => .ofEval hi) hi hposition
  | ofApply => cases hn

/-- **Everything inside.**  Every job inside one that starts within the regime
starts and ends within it. -/
theorem inside (hpq : ReflTransGen Moment.Calls p q) (hcalls : R.Permits p)
    (hs : R.good p.store) (hj : R.asked p.store p.job) : R.Inside p q := by
  -- the regime is known where the outermost job starts, so the induction goes
  -- from the outside in
  induction hpq using ReflTransGen.head_induction_on with
  | refl => exact ⟨hs, R.refl _, hj, h.ends hcalls hs hj⟩
  | head hstep _ ih =>
      obtain ⟨hgood, hle, hasked⟩ := h.asked_of_calls hstep hcalls hs hj
      have hinside := ih (hcalls.step hstep) hgood hasked
      exact ⟨hinside.good, R.trans hle hinside.le, hinside.asked,
        hinside.ends⟩

/-- Every store that such a job passes may come after the first one. -/
theorem le_of_passes {t : Store} (ht : p.Passes t) (hcalls : R.Permits p)
    (hs : R.good p.store) (hj : R.asked p.store p.job) : R.le p.store t := by
  cases ht with
  | starts hq => exact (h.inside hq hcalls hs hj).le
  | @ends q out t hq hout =>
      have hinside := h.inside hq hcalls hs hj
      exact R.trans hinside.le (hinside.ends.le (q.outcome_eq ▸ hout))

end Lawful

end Regime

end MonkeyLang

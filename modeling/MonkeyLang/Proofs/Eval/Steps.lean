/-
What a step of evaluation comes down to.

* `Run.settle_cases`, `Run.deliver_cases`: how a result goes on;
* `applyWith_cases`: a call of a function, of one that the language comes
  with, or a fault;
* `callWith_plain`, `callWith_quote`, `callWith_cases`: a call, a quote, or a
  fault;
* `replaceUnquote_cases`: the argument of `unquote`, or the node as it is.

Where `rec` is quantified, the case does not depend on how nodes inside are
evaluated.
-/
import MonkeyLang.Eval.Basic
import Mathlib.Tactic.Common

namespace MonkeyLang

/-! ### Results -/

namespace Run

/-- A result that is no error is the answer; any other stops the run. -/
lemma settle_cases (r : Except Fault Value) :
    (∃ v, r = .ok v ∧ v.kind ≠ .error ∧ settle r = pure (some v)) ∨
    ∃ f, settle r = throw f := by
  rcases r with f | v
  · exact Or.inr ⟨f, rfl⟩
  · cases v with
    | error f => exact Or.inr ⟨f, rfl⟩
    | _ => exact Or.inl ⟨_, rfl, nofun, rfl⟩

/-- An answer that stands for a result is the result. -/
lemma ofExcept_inv {α : Type} {r : Except Fault α} {a : α} {s s' : Store}
    (h : ofExcept r s = some (.ok a, s')) : r = .ok a ∧ s = s' := by
  cases r with
  | ok b =>
      cases h
      exact ⟨rfl, rfl⟩
  | error f => cases h

/-- What a function's body gives goes on without its mark. -/
lemma deliver_cases (v? : Option Value) :
    (v? = none ∧ deliver v? = pure none) ∨
    ∃ v, (v? = some v ∨ v? = some (.returned v)) ∧
      deliver v? = settle (.ok v) := by
  rcases v? with _ | v
  · exact Or.inl ⟨rfl, rfl⟩
  · cases v with
    | returned v => exact Or.inr ⟨v, Or.inr rfl, rfl⟩
    | _ => exact Or.inr ⟨_, Or.inl rfl, rfl⟩

end Run

/-! ### Calls -/

/-- A call evaluates the body of a function in a new frame, is one of a
function that the language comes with, or fails. -/
lemma applyWith_cases (f : Value) (args : List Value) :
    (∃ c, f = .function c ∧ args.length = c.params.length ∧
      ∀ rec, applyWith rec f args =
        callFrame c args >>= fun e => rec c.body e >>= Run.deliver) ∨
    (∃ b, f = .builtin b ∧ ∀ rec, applyWith rec f args = b.call args) ∨
    ∃ g, ∀ rec, applyWith rec f args = throw g := by
  cases f with
  | function c =>
      by_cases hargs : args.length = c.params.length
      · exact Or.inl ⟨c, rfl, hargs, fun rec => if_pos hargs⟩
      · exact Or.inr (Or.inr ⟨_, fun rec => if_neg hargs⟩)
  | builtin b => exact Or.inr (Or.inl ⟨b, rfl, fun rec => rfl⟩)
  | _ => exact Or.inr (Or.inr ⟨_, fun rec => rfl⟩)

section

variable (rec : Node → ℕ → Run (Option Value)) (e : ℕ) {callee : Node}

/-- What is no special form is called with values. -/
lemma callWith_plain (h : SpecialForm.ofCallee? callee = none)
    (args : List Node) :
    callWith rec e callee args =
      operand rec e callee >>= fun f =>
        operands rec e args >>= fun vs => applyWith rec f vs := by
  simp only [callWith, h]

/-- A quote gets a tree. -/
lemma callWith_quote (h : SpecialForm.ofCallee? callee = some .quote)
    (n : Node) :
    callWith rec e callee [n] =
      quoteWith rec e n >>= fun m => pure (some (.quote m)) := by
  simp only [callWith, h]

end

/-- A call is one of a value, the quote of a tree, or a special form that
fails. -/
lemma callWith_cases (callee : Node) (args : List Node) :
    SpecialForm.ofCallee? callee = none ∨
    (∃ n, SpecialForm.ofCallee? callee = some .quote ∧ args = [n]) ∨
    ∃ f, ∀ rec e, callWith rec e callee args = throw f := by
  cases hform : SpecialForm.ofCallee? callee with
  | none => exact Or.inl rfl
  | some form =>
      cases form with
      | unquote =>
          refine Or.inr (Or.inr ⟨.strayUnquote, fun rec e => ?_⟩)
          simp only [callWith, hform]
      | quote =>
          rcases args with _ | ⟨n, _ | ⟨m, ns⟩⟩
          · refine Or.inr (Or.inr ⟨.quoteArgumentCount 0, fun rec e => ?_⟩)
            simp only [callWith, hform, List.length_nil]
          · exact Or.inr (Or.inl ⟨n, rfl, rfl⟩)
          · refine Or.inr (Or.inr ⟨.quoteArgumentCount (n :: m :: ns).length,
              fun rec e => ?_⟩)
            simp only [callWith, hform]

/-- A call of `unquote` on one argument is replaced by that argument's tree;
any other node stays. -/
lemma replaceUnquote_cases (n : Node) :
    (∃ t callee arg, n = .call t callee [arg] ∧
      SpecialForm.ofCallee? callee = some .unquote ∧
      ∀ rec e, replaceUnquote rec e n = unquoteWith rec e arg) ∨
    ∀ rec e, replaceUnquote rec e n = pure n := by
  cases n with
  | call t callee args =>
      rcases args with _ | ⟨arg, _ | ⟨m, ns⟩⟩
      · exact Or.inr fun rec e => rfl
      · by_cases hcallee : SpecialForm.ofCallee? callee = some .unquote
        · exact Or.inl ⟨t, callee, arg, rfl, hcallee,
            fun rec e => if_pos hcallee⟩
        · exact Or.inr fun rec e => if_neg hcallee
      · exact Or.inr fun rec e => rfl
  | _ => exact Or.inr fun rec e => rfl

end MonkeyLang

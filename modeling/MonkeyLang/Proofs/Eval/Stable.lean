/-
Invariants of evaluation.

* `Stable F I N V`: `F` of the frames it works in, `I` of the store, `N` of
  the trees and `V` of the values go together, so that no single step of
  evaluation can leave them;
* `Regime.ofInvariant`, `Stable.lawful`: they are a regime, where values look
  alike from every store, trees have one grade and every call is allowed;
* `Stable.keeps_eval`, `Stable.keeps_apply`: every run keeps them.
-/
import MonkeyLang.Proofs.Eval.Moments

namespace MonkeyLang

/-- What may be said of the frames in which nodes are evaluated, of the store,
of the trees and of the values, so that no single step can leave it. -/
structure Stable (F : ℕ → Prop) (I : Store → Prop) (N : Node → Prop)
    (V : Value → Prop) : Prop where
  values : Value.Closed V
  nodes : Node.Hereditary N
  literal : ∀ t n, N (.intLit t n) → V (.integer n)
  quote : ∀ n, N n → V (.quote n)
  syntaxOf : ∀ v n, V v → v.toNode? = some n → N n
  function : ∀ s e t ps b, I s → F e → N (.function t ps b) →
    V (.function (s.makeClosure ps b e).1)
  macroFn : ∀ s e t ps b, I s → F e → N (.macroFn t ps b) →
    V (.macroFn (s.makeClosure ps b e).1)
  body : ∀ c, V (.function c) ∨ V (.macroFn c) → N c.body
  close : ∀ s ps b e, I s → I (s.makeClosure ps b e).2
  lookup : ∀ s e name v, I s → s.lookup e name = some v → V v
  bind : ∀ s e name v, I s → F e → V v → I (s.bind e name v)
  print : ∀ s text, I s → I (s.print text)
  enter : ∀ s c args, I s → V (.function c) ∨ V (.macroFn c) →
    (∀ a ∈ args, V a) → F s.frames.size ∧
      I (s.addFrame (parameterBindings c.names args) (some c.frame)).2

/-- The regime of an invariant. -/
def Regime.ofInvariant (F : ℕ → Prop) (I : Store → Prop) (N : Node → Prop)
    (V : Value → Prop) : Regime where
  good := I
  le _ _ := True
  image s := s
  refl _ := trivial
  trans _ _ := trivial
  frame _ := F
  value _ := V
  tree := N
  plain := N
  call _ _ := True

namespace Stable

variable {F : ℕ → Prop} {I : Store → Prop} {N : Node → Prop}
  {V : Value → Prop} (h : Stable F I N V)

include h

lemma lawful : (Regime.ofInvariant F I N V).Lawful where
  frame_mono _ he := he
  value_mono _ hv := hv
  values _ := h.values.formed
  trees := h.nodes.graded
  literal _ := h.literal
  quote _ := h.quote
  syntaxOf _ := h.syntaxOf
  body _ := h.body
  marked _ _ _ v _ hv := h.values.returned v hv
  unmarked _ := h.values.unmarked
  result _ _ _ _ _ hargs hv := h.values.formed.result
    (by rintro s rfl; exact h.values.length s (hargs _ List.mem_cons_self))
    (by rintro vs rfl; exact h.values.size vs (hargs _ List.mem_cons_self))
    hargs hv
  lookup s e name hs _ := ⟨rfl, fun v hv => h.lookup s e name v hs hv⟩
  function s e t ps b hs he hn := Ends.modifyGet rfl (h.close s ps b e hs)
    trivial (h.function s e t ps b hs he hn)
  macroFn s e t ps b hs he hn := Ends.modifyGet rfl (h.close s ps b e hs)
    trivial (h.macroFn s e t ps b hs he hn)
  bind s e name v hs he hv := ⟨rfl, h.bind s e name v hs he hv, trivial⟩
  print s text hs := ⟨rfl, h.print s text hs, trivial⟩
  enter s c args hs hc hargs :=
    have henter := h.enter s c args hs hc hargs
    Ends.modifyGet rfl henter.2 trivial henter.1

/-- A run that starts within the regime keeps the invariant. -/
lemma keeps_job (depth : ℕ) {j : Job}
    (hj : ∀ s, (Regime.ofInvariant F I N V).asked s j) :
    Keeps I (Value.IfAny V) (j.answer (eval depth)) := by
  intro s out s' hs hrun
  have hends := h.lawful.ends (p := ⟨depth, j, s⟩)
    (Regime.permits_of_all (fun _ _ => trivial) _) hs (hj s)
  refine ⟨hends.good hrun, ?_⟩
  rintro v? rfl
  have hanswer := hends.answer hrun
  cases j with
  | apply f args => exact hanswer
  | eval n e =>
      refine hanswer.1.mono fun v hv => ?_
      rcases hv with hv | ⟨w, rfl, hw⟩
      · exact hv
      · exact h.values.returned w hw

/-- Evaluation keeps the invariant, however deep it goes. -/
theorem keeps_eval (depth : ℕ) {n : Node} {e : ℕ} (he : F e) (hn : N n) :
    Keeps I (Value.IfAny V) (eval depth n e) :=
  h.keeps_job (j := .eval n e) depth fun _ => ⟨he, hn⟩

/-- So does the call of a value. -/
theorem keeps_apply (depth : ℕ) {f : Value} {args : List Value} (hf : V f)
    (hargs : ∀ a ∈ args, V a) :
    Keeps I (Value.IfAny V) (apply depth f args) :=
  h.keeps_job (j := .apply f args) depth fun _ => ⟨hf, hargs⟩

end Stable

end MonkeyLang

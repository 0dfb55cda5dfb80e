/-
Regimes that speak of all values that are bound.

* `Value.Safe V tree plain call`: `V` of values goes together with two grades
  of trees and with the calls that are allowed, so that no single step of
  evaluation can leave it;
* `Regime.ofValues`, `Safe.lawful`: then it is a regime that every bound value
  has `V`;
* `Session.Led.bound`: the inputs that the regime admits keep it;
* `Moment.Only V`: all values that a job finds, gets and gives have `V`, and
  `Inside.only`: so it is inside the regime.
-/
import MonkeyLang.Proofs.Store.Bound
import MonkeyLang.Proofs.Session.Regime

namespace MonkeyLang

/-- What may be said of values, of trees of two grades and of calls, so that
no single step of evaluation can leave it. -/
structure Value.Safe (V : Value → Prop) (tree plain : Node → Prop)
    (call : Value → List Value → Prop) : Prop where
  formed : Value.Formed V
  trees : Node.Graded tree plain
  literal : ∀ t n, tree (.intLit t n) → V (.integer n)
  quote : ∀ n, plain n → V (.quote n)
  syntaxOf : ∀ v n, V v → v.toNode? = some n → plain n
  function : ∀ t id ps b e, tree (.function t ps b) →
    V (.function ⟨id, ps, b, e⟩)
  macroFn : ∀ t id ps b e, tree (.macroFn t ps b) →
    V (.macroFn ⟨id, ps, b, e⟩)
  body : ∀ c, V (.function c) ∨ V (.macroFn c) → tree c.body
  marked : ∀ t n v, plain (.returnStmt t n) → V v → V (.returned v)
  unmarked : ∀ v, V (.returned v) → V v
  result : ∀ b args v, call (.builtin b) args → (∀ a ∈ args, V a) →
    b.result args = .ok v → V v

/-- The regime in which every bound value has the property. -/
def Regime.ofValues (V : Value → Prop) (tree plain : Node → Prop)
    (call : Value → List Value → Prop) : Regime where
  good s := s.Bound V
  le _ _ := True
  image s := s
  refl _ := trivial
  trans _ _ := trivial
  frame _ _ := True
  value _ := V
  tree := tree
  plain := plain
  call := call

section

variable {V : Value → Prop} {tree plain : Node → Prop}
  {call : Value → List Value → Prop}

lemma Value.Safe.lawful (h : Value.Safe V tree plain call) :
    (Regime.ofValues V tree plain call).Lawful where
  frame_mono _ _ := trivial
  value_mono _ hv := hv
  values _ := h.formed
  trees := h.trees
  literal _ := h.literal
  quote _ := h.quote
  syntaxOf _ := h.syntaxOf
  body _ := h.body
  marked _ := h.marked
  unmarked _ := h.unmarked
  result _ := h.result
  lookup _ _ _ hs _ := ⟨rfl, fun _ hv => hs.lookup hv⟩
  function _ e t ps b hs _ hn :=
    Ends.modifyGet rfl hs trivial (h.function t _ ps b e hn)
  macroFn _ e t ps b hs _ hn :=
    Ends.modifyGet rfl hs trivial (h.macroFn t _ ps b e hn)
  bind _ e name _ hs _ hv := ⟨rfl, hs.bind e name hv, trivial⟩
  print _ _ hs := ⟨rfl, hs, trivial⟩
  enter _ _ _ hs _ hargs := Ends.modifyGet rfl (hs.addFrame
    (fun _ hb => hargs _ (mem_parameterBindings hb)) _) trivial trivial

/-- The regime covers every session whose bound values have the property. -/
lemma Value.Safe.covers (h : Value.Safe V tree plain call) {s : Session}
    (hs : s.store.Bound V) :
    (Regime.ofValues V tree plain call).Covers s :=
  ⟨hs, trivial, h.lawful.reads_of_frame fun _ _ => trivial⟩

/-- The bound values of a session keep the property along the inputs that the
regime admits. -/
theorem Session.Led.bound (h : Value.Safe V tree plain call)
    {P : Session.Aim → ℕ → String → Session → Prop}
    (hP : ∀ {aim depth source s}, s.store.Bound V → P aim depth source s →
      (Regime.ofValues V tree plain call).Admits aim depth source s)
    {s : Session} (hs : Session.Led P s) : s.store.Bound V := by
  induction hs with
  | start tracing =>
      have hnone : ∀ b ∈ ([] : Bindings String Value), V b.2 :=
        fun _ hb => absurd hb List.not_mem_nil
      exact (Store.Bound.empty.addFrame hnone none).addFrame hnone none
  | expand _ hinput hrun ih =>
      exact (h.lawful.expand (h.covers ih) (hP ih hinput)
        hrun).1
  | evaluate _ hinput hrun ih =>
      exact (h.lawful.evaluate (h.covers ih) trivial
        (hP ih hinput) hrun).1
  | output _ printed events ih => exact ih

/-! ### The values of a job -/

/-- All values have a property that are bound before or after a job, that it
calls or hands over, and that come out of it, maybe marked as returned; what a
call gives is not. -/
structure Moment.Only (V : Value → Prop) (q : Moment) : Prop where
  before : q.store.Bound V
  after : ∀ out s', q.outcome = some (out, s') → s'.Bound V
  called : ∀ f args, q.job = .apply f args → ∀ v ∈ f :: args, V v
  given : ∀ f args v s', q.job = .apply f args →
    q.outcome = some (.ok (some v), s') → V v
  outcome : ∀ v s', q.outcome = some (.ok (some v), s') →
    V v ∨ ∃ w, v = .returned w ∧ V w

lemma Store.Bound.mono {W : Value → Prop} {s : Store} (h : s.Bound V)
    (hVW : ∀ v, V v → W v) : s.Bound W :=
  fun e f hf b hb => hVW b.2 (h e f hf b hb)

lemma Moment.Only.mono {W : Value → Prop} {q : Moment} (h : q.Only V)
    (hVW : ∀ v, V v → W v) : q.Only W where
  before := h.before.mono hVW
  after out s' hout := (h.after out s' hout).mono hVW
  called f args hjob v hv := hVW v (h.called f args hjob v hv)
  given f args v s' hjob hout := hVW v (h.given f args v s' hjob hout)
  outcome v s' hout := (h.outcome v s' hout).imp (hVW v) fun ⟨w, hw, hV⟩ =>
    ⟨w, hw, hVW w hV⟩

/-- Inside the regime all values of a job have the property. -/
theorem Regime.Inside.only {p q : Moment}
    (h : (Regime.ofValues V tree plain call).Inside p q) : q.Only V := by
  obtain ⟨hgood, -, hasked, hends⟩ := h
  have hout : ∀ out s', q.outcome = some (out, s') →
      q.job.answer (MonkeyLang.eval q.depth) q.store = some (out, s') :=
    fun _ _ hout => q.outcome_eq ▸ hout
  obtain ⟨depth, j, s⟩ := q
  refine ⟨hgood, fun out s' h => hends.good (hout out s' h), ?_, ?_, ?_⟩
  · rintro f args rfl
    exact List.forall_mem_cons.mpr hasked
  · rintro f args v s' rfl h
    exact hends.answer (hout _ s' h) v rfl
  · intro v s' h
    have hanswer := hends.answer (hout _ s' h)
    cases j with
    | eval n e => exact hanswer.1 v rfl
    | apply f args => exact Or.inl (hanswer v rfl)

end

end MonkeyLang

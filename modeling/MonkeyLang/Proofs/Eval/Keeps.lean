/-
Runs that keep an invariant.

* `bind_ok`, `bind_error`, `bind_inv`: what a run does behind another one;
* `bind_ok_inv`: two runs in a row have an answer if both of them have;
* `Keeps I A r`: from a state with `I` the run `r` ends in one with `I`,
  whether it fails or not, and its answer has `A`;
* `Keeps.bind` and the lemmas around it: one for each way of building runs;
* `Node.Hereditary`: a property that trees share with their children.
-/
import MonkeyLang.Eval.Run
import MonkeyLang.Proofs.Tree.Children

namespace MonkeyLang

variable {σ ε α β : Type}

/-! ### Runs one after the other -/

/-- Behind a run with an answer the next one goes on. -/
lemma bind_ok {x : ExceptT ε (StateT σ Option) α}
    {k : α → ExceptT ε (StateT σ Option) β} {s s' : σ} {a : α}
    (h : x s = some (.ok a, s')) : (x >>= k) s = k a s' := by
  show (x s).bind _ = _
  rw [h]
  rfl

/-- A failure passes through what was to come. -/
lemma bind_error {x : ExceptT ε (StateT σ Option) α}
    {k : α → ExceptT ε (StateT σ Option) β} {s s' : σ} {f : ε}
    (h : x s = some (.error f, s')) :
    (x >>= k) s = some (.error f, s') := by
  show (x s).bind _ = _
  rw [h]
  rfl

/-- Two runs in a row end as the first fails, or as the second does behind
the answer of the first. -/
lemma bind_inv {x : ExceptT ε (StateT σ Option) α}
    {k : α → ExceptT ε (StateT σ Option) β} {s s' : σ} {out : Except ε β}
    (h : (x >>= k) s = some (out, s')) :
    (∃ f, out = .error f ∧ x s = some (.error f, s')) ∨
    ∃ a s₁, x s = some (.ok a, s₁) ∧ k a s₁ = some (out, s') := by
  change (x s).bind _ = _ at h
  rcases hx : x s with _ | ⟨a | a, s₁⟩
  · rw [hx] at h
    cases h
  · rw [hx] at h
    cases h
    exact Or.inl ⟨a, rfl, rfl⟩
  · rw [hx] at h
    exact Or.inr ⟨a, s₁, rfl, h⟩

/-- If two runs in a row have an answer, the first one does not fail. -/
lemma bind_ok_inv {x : ExceptT ε (StateT σ Option) α}
    {k : α → ExceptT ε (StateT σ Option) β} {s s' : σ} {b : β}
    (h : (x >>= k) s = some (.ok b, s')) :
    ∃ a s₁, x s = some (.ok a, s₁) ∧ k a s₁ = some (.ok b, s') := by
  rcases bind_inv h with ⟨f, hf, -⟩ | hboth
  · cases hf
  · exact hboth

/-! ### Keeping an invariant -/

/-- From a state with `I` a run ends in one with `I`, and its answer has
`A`. -/
def Keeps (I : σ → Prop) (A : α → Prop)
    (r : ExceptT ε (StateT σ Option) α) : Prop :=
  ∀ s out s', I s → r s = some (out, s') →
    I s' ∧ ∀ a, out = .ok a → A a

namespace Keeps

variable {I : σ → Prop} {A : α → Prop} {C : β → Prop}
  {r : ExceptT ε (StateT σ Option) α}

lemma pure {a : α} (ha : A a) :
    Keeps I A (Pure.pure a : ExceptT ε (StateT σ Option) α) := by
  rintro s out s' hs ⟨rfl, rfl⟩
  refine ⟨hs, ?_⟩
  rintro b ⟨rfl⟩
  exact ha

lemma throw (f : ε) :
    Keeps I A (MonadExcept.throw f : ExceptT ε (StateT σ Option) α) := by
  rintro s out s' hs ⟨rfl, rfl⟩
  exact ⟨hs, fun a ha => by cases ha⟩

/-- A run without an answer keeps everything. -/
lemma none :
    Keeps I A (fun _ => Option.none : ExceptT ε (StateT σ Option) α) := by
  rintro s out s' hs ⟨⟩

lemma bind {k : α → ExceptT ε (StateT σ Option) β} (hr : Keeps I A r)
    (hk : ∀ a, A a → Keeps I C (k a)) : Keeps I C (r >>= k) := by
  intro s out s' hs h
  rcases bind_inv h with ⟨f, rfl, hf⟩ | ⟨a, s₁, ha, hk'⟩
  · exact ⟨(hr s _ s' hs hf).1, fun a ha => by cases ha⟩
  · obtain ⟨hs₁, hA⟩ := hr s _ s₁ hs ha
    exact hk a (hA a rfl) s₁ out s' hs₁ hk'

end Keeps

/-! ### Properties of trees -/

/-- A property that goes from a node to its children and stays when they are
exchanged for others that have it. -/
structure Node.Hereditary (N : Node → Prop) : Prop where
  children : ∀ n, N n → ∀ m ∈ n.children, N m
  withChildren : ∀ n cs, N n → (∀ m ∈ cs, N m) → N (n.withChildren cs)

lemma Node.hereditary_true : Node.Hereditary fun _ => True :=
  ⟨fun _ _ _ _ => trivial, fun _ _ _ _ => trivial⟩

end MonkeyLang

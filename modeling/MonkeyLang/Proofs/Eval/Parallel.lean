/-
Two runs side by side.

* `Parallel S E A w r r'`: from states related by `S` in the world `w`, two
  runs end in a later world, in states that are related there, with answers
  related by `A` or faults related by `E`; or neither of them has an answer;
* `Parallel.bind` and the lemmas around it: one for each way of building runs;
* `Parallel.ok_inv`, `Parallel.exists_ok`: where one of the runs has an answer
  the other one has;
* `Parallel.transformM`: changes of trees that are equal without places.
-/
import MonkeyLang.Proofs.Eval.Keeps
import MonkeyLang.Proofs.Related
import MonkeyLang.Proofs.Tree.Bare
import Mathlib.Order.Basic

namespace MonkeyLang

open List (Forall₂)

variable {W σ τ ε ε' α β γ δ : Type} [Preorder W]

/-- From related states two runs end in related states, with related answers
or faults, in a world that may be a later one; or neither has an answer. -/
def Parallel (S : W → σ → τ → Prop) (E : ε → ε' → Prop)
    (A : W → α → β → Prop) (w : W) (r : ExceptT ε (StateT σ Option) α)
    (r' : ExceptT ε' (StateT τ Option) β) : Prop :=
  ∀ s t, S w s t → Option.Rel
    (fun x y => ∃ w', w ≤ w' ∧ S w' x.2 y.2 ∧ Outcome E (A w') x.1 y.1)
    (r s) (r' t)

namespace Parallel

variable {S : W → σ → τ → Prop} {E : ε → ε' → Prop} {A : W → α → β → Prop}
  {B : W → γ → δ → Prop} {w : W} {r : ExceptT ε (StateT σ Option) α}
  {r' : ExceptT ε' (StateT τ Option) β}

lemma pure {a : α} {b : β} (h : A w a b) :
    Parallel S E A w (Pure.pure a) (Pure.pure b) :=
  fun _ _ hs => .some ⟨w, le_refl w, hs, .ok h⟩

lemma throw {f : ε} {g : ε'} (h : E f g) :
    Parallel S E A w (MonadExcept.throw f) (MonadExcept.throw g) :=
  fun _ _ hs => .some ⟨w, le_refl w, hs, .error h⟩

/-- Where the first run ends with an answer the second one does. -/
lemma ok_inv (h : Parallel S E A w r r') {s s' : σ} {t : τ} {a : α}
    (hs : S w s t) (hrun : r s = some (.ok a, s')) :
    ∃ b t' w', r' t = some (.ok b, t') ∧ w ≤ w' ∧ S w' s' t' ∧ A w' a b := by
  have hends := h s t hs
  rcases hrun' : r' t with _ | ⟨out, t'⟩ <;> rw [hrun, hrun'] at hends
  · cases hends
  · cases hends with
    | some hends =>
        obtain ⟨w', hw, hs', hout⟩ := hends
        cases hout with
        | ok hab => exact ⟨_, t', w', rfl, hw, hs', hab⟩

/-- Where the second run ends with an answer the first one does. -/
lemma exists_ok (h : Parallel S E A w r r') {s : σ} {t t' : τ} {b : β}
    (hs : S w s t) (hrun : r' t = some (.ok b, t')) :
    ∃ a s', r s = some (.ok a, s') := by
  have hends := h s t hs
  rcases hrun' : r s with _ | ⟨out, s'⟩ <;> rw [hrun, hrun'] at hends
  · cases hends
  · cases hends with
    | some hends =>
        obtain ⟨w', -, -, hout⟩ := hends
        cases hout with
        | ok _ => exact ⟨_, s', rfl⟩

/-- Two runs without an answer. -/
lemma none : Parallel S E A w (fun _ => Option.none) fun _ => Option.none :=
  fun _ _ _ => .none

lemma bind {k : α → ExceptT ε (StateT σ Option) γ}
    {k' : β → ExceptT ε' (StateT τ Option) δ} (h : Parallel S E A w r r')
    (hk : ∀ w', w ≤ w' → ∀ a b, A w' a b → Parallel S E B w' (k a) (k' b)) :
    Parallel S E B w (r >>= k) (r' >>= k') := by
  intro s t hs
  show Option.Rel _ ((r s).bind _) ((r' t).bind _)
  refine rel_bind (h s t hs) ?_
  rintro ⟨out, s'⟩ ⟨out', t'⟩ ⟨w', hw, hs', hout⟩
  cases hout with
  | ok hab =>
      refine rel_imp (hk w' hw _ _ hab s' t' hs') ?_
      rintro x y ⟨w'', hw', hxy⟩
      exact ⟨w'', hw.trans hw', hxy⟩
  | error hfg => exact .some ⟨w', hw, hs', .error hfg⟩

/-- A last step that only changes the answers. -/
lemma map {f : α → γ} {g : β → δ} (h : Parallel S E A w r r')
    (hfg : ∀ w' a b, A w' a b → B w' (f a) (g b)) :
    Parallel S E B w (do return f (← r)) (do return g (← r')) :=
  h.bind fun w' _ a b hab => pure (hfg w' a b hab)

/-- Less may be said of the answers. -/
lemma imp {A' : W → α → β → Prop} (h : Parallel S E A w r r')
    (hA : ∀ w a b, A w a b → A' w a b) : Parallel S E A' w r r' := by
  intro s t hs
  refine rel_imp (h s t hs) ?_
  rintro ⟨out, s'⟩ ⟨out', t'⟩ ⟨w', hw, hs', hout⟩
  refine ⟨w', hw, hs', ?_⟩
  cases hout with
  | ok hab => exact .ok (hA _ _ _ hab)
  | error hfg => exact .error hfg

/-- Reading the state before going on. -/
lemma get {k : σ → ExceptT ε (StateT σ Option) α}
    {k' : τ → ExceptT ε' (StateT τ Option) β}
    (hk : ∀ s t, S w s t → Option.Rel
      (fun x y => ∃ w', w ≤ w' ∧ S w' x.2 y.2 ∧ Outcome E (A w') x.1 y.1)
      (k s s) (k' t t)) :
    Parallel S E A w (MonadState.get >>= k) (MonadState.get >>= k') :=
  hk

/-- Making something in the states. -/
lemma modifyGet {f : σ → α × σ} {g : τ → β × τ}
    (h : ∀ s t, S w s t →
      ∃ w', w ≤ w' ∧ S w' (f s).2 (g t).2 ∧ A w' (f s).1 (g t).1) :
    Parallel S E A w (MonadStateOf.modifyGet f) (MonadStateOf.modifyGet g) := by
  intro s t hs
  obtain ⟨w', hw, hs', hab⟩ := h s t hs
  exact .some ⟨w', hw, hs', .ok hab⟩

/-! ### Changes of trees -/

/-- Changes of several trees, one after the other. -/
lemma transformList {f : Node → ExceptT ε (StateT σ Option) Node}
    {f' : Node → ExceptT ε' (StateT τ Option) Node} {ns ns' : List Node}
    (hns : Forall₂ (fun n n' => n.bare = n'.bare) ns ns')
    (h : ∀ n ∈ ns, ∀ n' : Node, n.bare = n'.bare → ∀ w', w ≤ w' →
      Parallel S E (fun _ m m' => m.bare = m'.bare) w' (n.transformM f)
        (n'.transformM f')) :
    Parallel S E (fun _ ms ms' => ms.map Node.bare = ms'.map Node.bare) w
      (Node.transformList f ns) (Node.transformList f' ns') := by
  induction hns generalizing w with
  | nil => exact pure rfl
  | @cons n n' ns ns' hn _ ih =>
      refine (h n List.mem_cons_self n' hn w (le_refl w)).bind
        fun w₁ hw₁ m m' hm => ?_
      refine (ih fun k hk k' hkk w' hw' => h k (List.mem_cons_of_mem n hk) k'
        hkk w' (hw₁.trans hw')).bind fun w₂ hw₂ ms ms' hms => pure ?_
      rw [List.map_cons, List.map_cons, hm, hms]

/-- **Changes of trees.**  Rules that do alike on trees that are equal without
places change such trees alike. -/
theorem transformM {f : Node → ExceptT ε (StateT σ Option) Node}
    {f' : Node → ExceptT ε' (StateT τ Option) Node}
    (hf : ∀ m m' : Node, m.bare = m'.bare → ∀ w', w ≤ w' →
      Parallel S E (fun _ k k' => k.bare = k'.bare) w' (f m) (f' m'))
    {n n' : Node} (hn : n.bare = n'.bare) :
    Parallel S E (fun _ k k' => k.bare = k'.bare) w (n.transformM f)
      (n'.transformM f') := by
  induction n using Node.children_induct generalizing n' w with
  | step n ih =>
      by_cases hmissing : n = .missing
      · cases hmissing
        cases Node.matches_of_bare hn
        exact pure rfl
      · have hmissing' : n' ≠ .missing := by
          rintro rfl
          cases Node.matches_of_bare hn
          exact hmissing rfl
        have hchildren : n.children.map Node.bare =
            n'.children.map Node.bare := by
          rw [← Node.children_bare, hn, Node.children_bare]
        rw [Node.transformM_eq f hmissing, Node.transformM_eq f' hmissing']
        refine (transformList (forall₂_map_eq.mpr hchildren)
          fun c hc c' hcc w' hw => ih c hc (fun m m' hm w'' hw' =>
            hf m m' hm w'' (hw.trans hw')) hcc).bind
              fun w' hw cs cs' hcs => hf _ _ ?_ w' hw
        rw [Node.bare_withChildren, Node.bare_withChildren, hn, hcs]

end Parallel

end MonkeyLang

/-
How a run ends that starts in a given state.

* `World`: what is followed along runs: which states are good, which states
  may come after which, and an image of every state;
* `Ends W A r s`: from the state `s` the run `r` ends in a good one that may
  come after `s`, its answer has `A` there, and from the image of `s` it goes
  the same way;
* `Ends.bind`: a run goes on only where it comes to, so what follows may use
  how the run before it ended;
* `Ends.mapM`, `Ends.transformM`: several runs in a row, and the change of a
  tree, of which every part may use how those before it ended.
-/
import MonkeyLang.Proofs.Eval.Asks

namespace MonkeyLang

variable {σ ε α β : Type}

/-- What is followed along runs. -/
structure World (σ : Type) where
  good : σ → Prop
  le : σ → σ → Prop
  image : σ → σ
  refl : ∀ s, le s s
  trans : ∀ {s t u}, le s t → le t u → le s u

/-- The world in which nothing is followed. -/
def World.free (σ : Type) : World σ where
  good _ := True
  le _ _ := True
  image s := s
  refl _ := trivial
  trans _ _ := trivial

/-- A run from `s` ends in a good state that may come after `s`, with an
answer that has `A` there, and from the image of `s` it gives the same answer
and ends in the image of that state. -/
structure Ends (W : World σ) (A : σ → α → Prop)
    (r : ExceptT ε (StateT σ Option) α) (s : σ) : Prop where
  image : r (W.image s) = (r s).map fun p => (p.1, W.image p.2)
  good : ∀ {out s'}, r s = some (out, s') → W.good s'
  le : ∀ {out s'}, r s = some (out, s') → W.le s s'
  answer : ∀ {a s'}, r s = some (.ok a, s') → A s' a

namespace Ends

variable {W : World σ} {A B : σ → α → Prop} {C : σ → β → Prop}
  {r : ExceptT ε (StateT σ Option) α} {s : σ}

lemma pure (hs : W.good s) {a : α} (ha : A s a) :
    Ends W A (Pure.pure a : ExceptT ε (StateT σ Option) α) s where
  image := rfl
  good := by rintro out s' ⟨⟩; exact hs
  le := by rintro out s' ⟨⟩; exact W.refl s
  answer := by rintro b s' ⟨⟩; exact ha

lemma throw (hs : W.good s) (f : ε) :
    Ends W A (MonadExcept.throw f : ExceptT ε (StateT σ Option) α) s where
  image := rfl
  good := by rintro out s' ⟨⟩; exact hs
  le := by rintro out s' ⟨⟩; exact W.refl s
  answer := by rintro b s' ⟨⟩

/-- A run without an answer ends nowhere. -/
lemma none (s : σ) :
    Ends W A (fun _ => Option.none : ExceptT ε (StateT σ Option) α) s where
  image := rfl
  good := by rintro out s' ⟨⟩
  le := by rintro out s' ⟨⟩
  answer := by rintro b s' ⟨⟩

lemma modifyGet {f : σ → α × σ}
    (himage : f (W.image s) = ((f s).1, W.image (f s).2))
    (hgood : W.good (f s).2) (hle : W.le s (f s).2) (ha : A (f s).2 (f s).1) :
    Ends W A
      (MonadState.modifyGet f : ExceptT ε (StateT σ Option) α) s where
  image := by
    show some (Except.ok (f (W.image s)).1, (f (W.image s)).2) = _
    rw [himage]
    rfl
  good := by rintro out s' ⟨⟩; exact hgood
  le := by rintro out s' ⟨⟩; exact hle
  answer := by rintro b s' ⟨⟩; exact ha

/-- A change of the state ends as the state changes. -/
lemma modifyGet_inv {f : σ → α × σ}
    (h : Ends W A
      (MonadState.modifyGet f : ExceptT ε (StateT σ Option) α) s) :
    f (W.image s) = ((f s).1, W.image (f s).2) ∧ W.good (f s).2 ∧
      W.le s (f s).2 ∧ A (f s).2 (f s).1 := by
  refine ⟨?_, h.good rfl, h.le rfl, h.answer rfl⟩
  have himage := Option.some.inj h.image
  exact Prod.ext (Except.ok.inj (Prod.ext_iff.mp himage).1)
    (Prod.ext_iff.mp himage).2

/-- Runs that go alike from a state and from its image end alike. -/
lemma congr {r' : ExceptT ε (StateT σ Option) α} (h : Ends W A r s)
    (hs : r' s = r s) (himage : r' (W.image s) = r (W.image s)) :
    Ends W A r' s where
  image := by rw [himage, hs, h.image]
  good hrun := h.good (hs ▸ hrun)
  le hrun := h.le (hs ▸ hrun)
  answer hrun := h.answer (hs ▸ hrun)

/-- Of an answer more may be known from the states that the run leads to. -/
lemma mono (h : Ends W A r s)
    (hA : ∀ s' a, r s = some (.ok a, s') → W.good s' → W.le s s' → A s' a →
      B s' a) : Ends W B r s where
  image := h.image
  good := h.good
  le := h.le
  answer hrun := hA _ _ hrun (h.good hrun) (h.le hrun) (h.answer hrun)

/-- What follows a run starts where it ended. -/
lemma bind {k : α → ExceptT ε (StateT σ Option) β} (hr : Ends W A r s)
    (hk : ∀ a s₁, r s = some (.ok a, s₁) → W.good s₁ → W.le s s₁ → A s₁ a →
      Ends W C (k a) s₁) : Ends W C (r >>= k) s := by
  -- from the image the run takes the same one of these three ways
  rcases hrun : r s with _ | ⟨f | a, s₁⟩
  · have hnone : ∀ t, r t = .none → (r >>= k) t = .none := by
      intro t ht
      show (r t).bind _ = _
      rw [ht]
      rfl
    refine (none s).congr (hnone s hrun) (hnone _ ?_)
    rw [hr.image, hrun]
    rfl
  · have himage : r (W.image s) = some (.error f, W.image s₁) := by
      rw [hr.image, hrun]
      rfl
    constructor
    · rw [bind_error hrun, bind_error himage]
      rfl
    all_goals
      rw [bind_error hrun]
      rintro out s' ⟨⟩
    · exact hr.good hrun
    · exact hr.le hrun
  · have himage : r (W.image s) = some (.ok a, W.image s₁) := by
      rw [hr.image, hrun]
      rfl
    have hk := hk a s₁ hrun (hr.good hrun) (hr.le hrun) (hr.answer hrun)
    constructor
    · rw [bind_ok hrun, bind_ok himage]
      exact hk.image
    all_goals rw [bind_ok hrun]
    · exact hk.good
    · exact fun hout => W.trans (hr.le hrun) (hk.le hout)
    · exact hk.answer

/-- A run from the answer of which more follows. -/
lemma map {g : α → β} (hr : Ends W A r s)
    (h : ∀ s' a, W.good s' → W.le s s' → A s' a → C s' (g a)) :
    Ends W C (do return g (← r)) s :=
  hr.bind fun a s₁ _ hgood hle ha => Ends.pure hgood (h s₁ a hgood hle ha)

/-! ### Several runs in a row -/

/-- Of several runs in a row each starts where those before it ended; what is
known of an answer stays known. -/
theorem mapM {g : α → ExceptT ε (StateT σ Option) β} {B : σ → α → β → Prop}
    (hB : ∀ {s t a b}, W.le s t → B s a b → B t a b) {as : List α} {s : σ}
    (hs : W.good s)
    (h : ∀ pre a post bs s', as = pre ++ a :: post →
      pre.mapM g s = some (.ok bs, s') → W.good s' → W.le s s' →
      Ends W (fun t b => B t a b) (g a) s') :
    Ends W (fun t bs => List.Forall₂ (B t) as bs) (as.mapM g) s := by
  induction as generalizing s with
  | nil => exact Ends.pure hs .nil
  | cons a as ih =>
      rw [List.mapM_cons]
      refine (h [] a as [] s rfl rfl hs (W.refl s)).bind
        fun b s₁ hb hgood hle hab => ?_
      refine (ih hgood ?_).map fun s₂ bs _ hle' hbs =>
        .cons (hB hle' hab) hbs
      -- the runs behind `a` start later, but what is asked of them is asked
      -- from `s`, so `a` is put before those that came first
      intro pre c post cs s₂ has hpre hgood' hle'
      refine h (a :: pre) c post (b :: cs) s₂ (by rw [has]; rfl) ?_ hgood'
        (W.trans hle hle')
      rw [List.mapM_cons, bind_ok hb, bind_ok hpre]
      rfl

end Ends

/-- What is related to members of a list has a property if the relation gives
it. -/
lemma forall_of_forall₂ {R : α → β → Prop} {p : β → Prop} {as : List α}
    {bs : List β} (h : List.Forall₂ R as bs) (hp : ∀ a b, R a b → p b) :
    ∀ b ∈ bs, p b := by
  induction h with
  | nil => exact fun b hb => absurd hb List.not_mem_nil
  | cons hab _ ih => exact List.forall_mem_cons.mpr ⟨hp _ _ hab, ih⟩

/-! ### Changing trees -/

namespace Node

lemma transformList_eq_mapM {m : Type → Type} [Monad m] [LawfulMonad m]
    (f : Node → m Node) (ns : List Node) :
    transformList f ns = ns.mapM (transformM f) := by
  induction ns with
  | nil => rfl
  | cons n ns ih => rw [transformList, ih, List.mapM_cons]

/-- What a change of trees may rely on: `T` goes from a tree to its children,
and `K`, which says what the change of a tree keeps of it, goes from the
children to the tree rebuilt from them. -/
structure Rebuilds (T : Node → Prop) (K : Node → Node → Prop) : Prop where
  children : ∀ n, T n → ∀ m ∈ n.children, T m
  refl : ∀ n, K n n
  trans : ∀ {n m k}, K n m → K m k → K n k
  rebuild : ∀ n cs, T n →
    List.Forall₂ (fun m c => T c ∧ K m c) n.children cs →
    T (n.withChildren cs) ∧ K n (n.withChildren cs)

/-- Of a tree from which nothing is asked everything is kept. -/
lemma rebuilds_true : Rebuilds (fun _ => True) fun _ _ => True where
  children _ _ _ _ := trivial
  refl _ := trivial
  trans _ _ := trivial
  rebuild _ _ _ _ := ⟨trivial, trivial⟩

end Node

namespace Ends

variable {W : World σ} {f : Node → ExceptT ε (StateT σ Option) Node}
  {T : Node → Prop} {K : Node → Node → Prop} {n m : Node} {s s' : σ}

/-- The rule keeps what is asked of it wherever the change of `n` that starts
in `s` comes to use it. -/
def RuleKeeps (W : World σ) (f : Node → ExceptT ε (StateT σ Option) Node)
    (T : Node → Prop) (K : Node → Node → Prop) (n : Node) (s : σ) : Prop :=
  ∀ m s', Node.Comes f n s m s' → T m → W.good s' → W.le s s' →
    Ends W (fun _ c => T c ∧ K m c) (f m) s'

lemma RuleKeeps.inside (hf : RuleKeeps W f T K n s) {c : Node}
    {pre post cs : List Node} (hc : n.children = pre ++ c :: post)
    (hpre : Node.transformList f pre s = some (.ok cs, s'))
    (hle : W.le s s') : RuleKeeps W f T K c s' :=
  fun m s'' hm hT hgood hle' =>
    hf m s'' (.inside hc hpre hm) hT hgood (W.trans hle hle')

variable (hK : Node.Rebuilds T K)

include hK

/-- The first children of a tree are changed one by one, if each of them
is. -/
lemma transformList {pre post : List Node} (hn : T n) (hs : W.good s)
    (hpre : n.children = pre ++ post) (hf : RuleKeeps W f T K n s)
    (hchild : ∀ c ∈ n.children, ∀ t, RuleKeeps W f T K c t → T c →
      W.good t → Ends W (fun _ k => T k ∧ K c k) (c.transformM f) t) :
    Ends W (fun _ cs => List.Forall₂ (fun c k => T k ∧ K c k) pre cs)
      (Node.transformList f pre) s := by
  rw [Node.transformList_eq_mapM]
  refine Ends.mapM (fun _ h => h) hs fun before c after cs s' hc hbefore hgood
    hle => ?_
  rw [← Node.transformList_eq_mapM] at hbefore
  have hsplit : n.children = before ++ c :: (after ++ post) := by
    rw [hpre, hc, List.append_assoc]
    rfl
  have hmem : c ∈ n.children := by
    rw [hsplit]
    exact List.mem_append_right _ List.mem_cons_self
  exact hchild c hmem s' (hf.inside hsplit hbefore hle)
    (hK.children n hn c hmem) hgood

/-- The change of a tree with a rule keeps what the rule keeps wherever the
change comes to use it. -/
theorem transformM (hn : T n) (hs : W.good s) (hf : RuleKeeps W f T K n s) :
    Ends W (fun _ c => T c ∧ K n c) (n.transformM f) s := by
  induction n using Node.children_induct generalizing s with
  | step n ih =>
      by_cases hmissing : n = .missing
      · rw [hmissing] at hn ⊢
        exact Ends.pure hs ⟨hn, hK.refl _⟩
      · rw [Node.transformM_eq f hmissing]
        have hchildren := transformList hK hn hs (List.append_nil _).symm hf
          fun c hc t hf' hT ht => ih c hc hT ht hf'
        refine hchildren.bind fun cs s' hcs hgood hle hforall => ?_
        obtain ⟨hT, hkept⟩ := hK.rebuild n cs hn hforall
        exact (hf _ s' (.here hmissing hcs) hT hgood hle).mono
          fun _ c _ _ _ hc => ⟨hc.1, hK.trans hkept hc.2⟩

/-- The change comes to use the rule on trees that it may be used on, in good
states. -/
theorem of_comes (hm : Node.Comes f n s m s') (hn : T n) (hs : W.good s)
    (hf : RuleKeeps W f T K n s) : T m ∧ W.good s' ∧ W.le s s' := by
  induction hm with
  | here _ hcs =>
      have hchildren := transformList hK hn hs (List.append_nil _).symm hf
        fun c _ t hf' hT ht => transformM hK hT ht hf'
      exact ⟨(hK.rebuild _ _ hn (hchildren.answer hcs)).1,
        hchildren.good hcs, hchildren.le hcs⟩
  | @inside n c m pre post cs s s₁ s₂ hc hpre _ ih =>
      have hbefore := transformList hK hn hs hc hf
        fun c _ t hf' hT ht => transformM hK hT ht hf'
      have hle := hbefore.le hpre
      have hmem : c ∈ n.children := by
        rw [hc]
        exact List.mem_append_right _ List.mem_cons_self
      obtain ⟨hT, hgood, hle'⟩ := ih (hK.children n hn c hmem)
        (hbefore.good hpre) (hf.inside hc hpre hle)
      exact ⟨hT, hgood, W.trans hle hle'⟩

end Ends

end MonkeyLang

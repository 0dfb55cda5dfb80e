/-
Evaluation does not tell names and places.

* `Run.Renamed S ρ r r'`: from stores related by `S`, such as those that are
  the same but for names, two runs end in such stores, with related values or
  the same fault;
* `Evaluates S rec rec'`: two ways of evaluation that do so on trees that are
  equal without places;
* `Evaluates.evalWith`: one step of evaluation does so if the evaluation of the
  parts does, with lemmas for calls and quotes before;
* `Lockstep.evaluates_eval`: evaluation does so, if the relation goes along
  with what it does to the stores.
-/
import MonkeyLang.Proofs.Eval.Parts
import MonkeyLang.Proofs.Store.Renamed

namespace MonkeyLang

open List (Forall₂)

variable {S : Renaming → Store → Store → Prop} {ρ : Renaming}

/-! ### Answers -/

/-- From related stores two runs end in such stores, with related values or the
same fault, or neither has an answer. -/
abbrev Run.Renamed (S : Renaming → Store → Store → Prop) (ρ : Renaming)
    (r r' : Run (Option Value)) : Prop :=
  Parallel S Eq (fun ρ => Option.Rel (Value.Renamed ρ)) ρ r r'

/-- Where more names are matched, values that are the same stay so. -/
lemma Value.Renamed.coupling : Value.Coupling (fun ρ => Closure.Renamed ρ)
    (fun ρ => Closure.Renamed ρ) (fun m n => m.bare = n.bare) Eq
    Value.Renamed where
  congruence := Value.Renamed.congruence
  faithful := Value.Renamed.faithful
  mono hρ _ _ h := h.mono hρ
  ofInt _ := rfl
  ofBool _ := rfl
  fault _ := rfl

open Value.Renamed (coupling)

/-! ### Calls -/

/-- Functions of the language print the same. -/
lemma Builtin.call_renamed (hS : Store.Lockstep S) (b : Builtin)
    {args args' : List Value}
    (h : Forall₂ (Value.Renamed ρ) args args') :
    Run.Renamed S ρ (b.call args) (b.call args') := by
  have hprints : b.prints args = b.prints args' := by
    cases b with
    | puts => exact forall₂_map_eq.mp (h.imp fun _ _ h => h.text_eq)
    | _ => rfl
  have hchange : Parallel S Eq (fun _ _ _ => True) ρ
      (Run.change fun s => (b.prints args).foldl (fun s text => s.print text) s)
      (Run.change fun s =>
        (b.prints args').foldl (fun s text => s.print text) s) := by
    refine Parallel.modifyGet fun s t hs => ⟨ρ, le_refl ρ, ?_, trivial⟩
    show S ρ (List.foldl _ s _) (List.foldl _ t _)
    rw [← hprints]
    generalize b.prints args = texts
    induction texts generalizing s t with
    | nil => exact hs
    | cons text texts ih => exact ih _ _ (hS.print hs text)
  exact hchange.bind fun ρ' hρ _ _ _ => coupling.settle
    ((Value.Renamed.congruence ρ').builtin_result b
      (h.imp fun _ _ h => h.mono hρ))

/-- Frames of calls are matched with each other. -/
lemma callFrame_renamed (hS : Store.Lockstep S) {c d : Closure}
    (hc : c.Renamed ρ d) {args args' : List Value}
    (h : Forall₂ (Value.Renamed ρ) args args') :
    Parallel S Eq (fun ρ => ρ.frames.pair) ρ
      (callFrame c args) (callFrame d args') :=
  Parallel.modifyGet fun _ _ hs => by
    obtain ⟨ρ', hρ, he, hs'⟩ := hS.enter hs hc h
    exact ⟨ρ', hρ, hs', he⟩

/-- Functions made of the same parameters and the same body. -/
lemma makeClosure_renamed (hS : Store.Lockstep S) {e e' : ℕ}
    (he : ρ.frames.pair e e')
    {ps ps' : List Node} {b b' : Node}
    (hps : ps.map Node.bare = ps'.map Node.bare) (hb : b.bare = b'.bare) :
    Parallel S Eq (fun ρ => Closure.Renamed ρ) ρ
      (Run.make (Store.makeClosure ps b e))
      (Run.make (Store.makeClosure ps' b' e')) :=
  Parallel.modifyGet fun _ _ hs => by
    obtain ⟨ρ', hρ, hc, hs'⟩ := hS.close hs he hps hb
    exact ⟨ρ', hρ, hs', hc⟩

/-! ### Parts -/

/-- Trees that are equal without places are evaluated alike in matched
frames. -/
def Evaluates (S : Renaming → Store → Store → Prop)
    (rec rec' : Node → ℕ → Run (Option Value)) : Prop :=
  ∀ ρ e e' n n', ρ.frames.pair e e' → n.bare = n'.bare →
    Run.Renamed S ρ (rec n e) (rec' n' e')

namespace Evaluates

variable {rec rec' : Node → ℕ → Run (Option Value)} {e e' : ℕ}

lemma coupled (h : Evaluates S rec rec') (he : ρ.frames.pair e e')
    {n n' : Node} (hn : n.bare = n'.bare) :
    Run.Coupled S Eq Value.Renamed ρ (rec n e) (rec' n' e') :=
  fun ρ' hρ => h ρ' e e' n n' (hρ.1 _ _ he) hn

lemma forall_coupled (h : Evaluates S rec rec') (he : ρ.frames.pair e e')
    {ns ns' : List Node} (hns : ns.map Node.bare = ns'.map Node.bare) :
    Forall₂ (fun n n' => Run.Coupled S Eq Value.Renamed ρ (rec n e)
      (rec' n' e')) ns ns' :=
  (forall₂_map_eq.mpr hns).imp fun _ _ => h.coupled he

/-- The value of the last of some statements. -/
lemma sequence (h : Evaluates S rec rec') (he : ρ.frames.pair e e')
    {ns ns' : List Node} (hns : ns.map Node.bare = ns'.map Node.bare)
    {last last' : Option Value}
    (hlast : Option.Rel (Value.Renamed ρ) last last') :
    Run.Renamed S ρ (MonkeyLang.sequence rec e last ns)
      (MonkeyLang.sequence rec' e' last' ns') :=
  coupling.sequence (h.forall_coupled he hns) hlast

end Evaluates

/-! ### Calls and quotes -/

/-- Special forms are told by their names. -/
lemma SpecialForm.ofCallee?_of_bare {n n' : Node} (h : n.bare = n'.bare) :
    ofCallee? n = ofCallee? n' := by
  cases Node.matches_of_bare h with
  | ident ht => rw [ofCallee?, ofCallee?, ht]
  | _ => rfl

namespace Evaluates

variable {rec rec' : Node → ℕ → Run (Option Value)} {e e' : ℕ}

/-- Calling related values with related arguments. -/
lemma applyWith (h : Evaluates S rec rec') (hS : Store.Lockstep S)
    {f f' : Value}
    (hf : f.Renamed ρ f') {args args' : List Value}
    (hargs : Forall₂ (Value.Renamed ρ) args args') :
    Run.Renamed S ρ (MonkeyLang.applyWith rec f args)
      (MonkeyLang.applyWith rec' f' args') := by
  cases hf with
  | @function c d hc =>
      rw [MonkeyLang.applyWith, MonkeyLang.applyWith, hargs.length_eq,
        hc.params_length]
      split
      · refine (callFrame_renamed hS hc hargs).bind fun ρ₁ hρ₁ e e' he => ?_
        refine (h ρ₁ e e' _ _ he hc.body).bind fun ρ₂ hρ₂ v? w? hv => ?_
        exact coupling.deliver hv
      · exact .throw rfl
  | builtin b => exact b.call_renamed hS hargs
  | _ => exact .throw rfl

/-- Calls of `unquote` on one argument are replaced by such trees. -/
lemma replaceUnquote (h : Evaluates S rec rec') (he : ρ.frames.pair e e')
    {n n' : Node} (hn : n.bare = n'.bare) :
    Parallel S Eq (fun _ m m' => m.bare = m'.bare) ρ
      (MonkeyLang.replaceUnquote rec e n)
      (MonkeyLang.replaceUnquote rec' e' n') := by
  cases Node.matches_of_bare hn with
  | call hc has =>
      replace has := forall₂_map_eq.mpr has
      cases has with
      | nil => exact .pure hn
      | cons ha has =>
          cases has with
          | nil =>
              rw [MonkeyLang.replaceUnquote, MonkeyLang.replaceUnquote,
                SpecialForm.ofCallee?_of_bare hc]
              split
              · exact coupling.unquoteWith (h.coupled he ha)
              · exact .pure hn
          | cons _ _ => exact .pure hn
  | _ => exact .pure hn

lemma quoteWith (h : Evaluates S rec rec') (he : ρ.frames.pair e e')
    {n n' : Node} (hn : n.bare = n'.bare) :
    Parallel S Eq (fun _ m m' => m.bare = m'.bare) ρ
      (MonkeyLang.quoteWith rec e n) (MonkeyLang.quoteWith rec' e' n') := by
  refine Parallel.transformM (fun m m' hm ρ' hρ => ?_) hn
  exact h.replaceUnquote (hρ.1 _ _ he) hm

lemma callWith (h : Evaluates S rec rec') (hS : Store.Lockstep S)
    (he : ρ.frames.pair e e')
    {c c' : Node} (hc : c.bare = c'.bare) {ns ns' : List Node}
    (hns : ns.map Node.bare = ns'.map Node.bare) :
    Run.Renamed S ρ (MonkeyLang.callWith rec e c ns)
      (MonkeyLang.callWith rec' e' c' ns') := by
  simp only [MonkeyLang.callWith, SpecialForm.ofCallee?_of_bare hc]
  cases SpecialForm.ofCallee? c' with
  | none =>
      refine (coupling.operand (h.coupled he hc)).bind fun ρ₁ hρ₁ f f' hf => ?_
      have hargs := h.forall_coupled (hρ₁.1 _ _ he) hns
      refine (coupling.operands hargs).bind fun ρ₂ hρ₂ vs vs' hvs => ?_
      exact h.applyWith hS (hf.mono hρ₂) hvs
  | some form =>
      cases form with
      | unquote => exact .throw rfl
      | quote =>
          replace hns := forall₂_map_eq.mpr hns
          have hlength := hns.length_eq
          cases hns with
          | nil => exact .throw rfl
          | cons hn hns =>
              cases hns with
              | nil =>
                  exact (h.quoteWith he hn).map
                    fun _ _ _ hm => .some (.quote hm)
              | cons _ _ => exact .throw (congrArg _ hlength)

/-- **One step of evaluation.** -/
theorem evalWith (h : Evaluates S rec rec') (hS : Store.Lockstep S) :
    Evaluates S (MonkeyLang.evalWith rec) (MonkeyLang.evalWith rec') := by
  intro ρ e e' n n' he hn
  -- both nodes have the same form, with parts that are equal up to positions
  cases Node.matches_of_bare hn with
  | missing => exact .pure .none
  | program hss =>
      exact (h.sequence he hss .none).bind fun _ _ _ _ hv =>
        coupling.deliver hv
  | block hss => exact h.sequence he hss .none
  | exprStmt hv => exact h ρ e e' _ _ he hv
  | returnStmt hv =>
      exact (coupling.operand (h.coupled he hv)).map
        fun _ _ _ hv => .some (.returned hv)
  | letStmt hname hv =>
      refine (coupling.operand (h.coupled he hv)).bind fun ρ₁ hρ₁ v w hvw => ?_
      refine .bind (A := fun _ _ _ => True) ?_ fun _ _ _ _ _ => .pure .none
      refine Parallel.modifyGet fun s t hs => ⟨ρ₁, le_refl ρ₁, ?_, trivial⟩
      rw [← hname]
      exact hS.bind hs (hρ₁.1 _ _ he) _ hvw
  | intLit n => exact .pure (.some (.integer n))
  | boolLit b => exact .pure (.some (.boolean b))
  | strLit ht =>
      rw [MonkeyLang.evalWith, MonkeyLang.evalWith, ht]
      exact .pure (.some (.string _))
  | array hes =>
      exact (coupling.operands (h.forall_coupled he hes)).map
        fun _ _ _ hvs => .some (.array hvs)
  | hash hps =>
      refine (coupling.entries ((forall₂_map_eq.mpr hps).imp fun p p' hp => ?_)
        .nil).map fun _ _ _ ht => .some (.hash ht)
      obtain ⟨hk, hv⟩ := Prod.mk.inj hp
      exact ⟨h.coupled he hk, h.coupled he hv⟩
  | function hps hb =>
      exact (makeClosure_renamed hS he hps hb).map
        fun _ _ _ hc => .some (.function hc)
  | macroFn hps hb =>
      exact (makeClosure_renamed hS he hps hb).map
        fun _ _ _ hc => .some (.macroFn hc)
  | prefixOp ht hr =>
      rw [MonkeyLang.evalWith, MonkeyLang.evalWith, ht]
      exact coupling.prefixOp _ (h.coupled he hr)
  | infixOp ht hl hr =>
      rw [MonkeyLang.evalWith, MonkeyLang.evalWith, ht]
      exact coupling.infixOp _ (h.coupled he hl) (h.coupled he hr)
  | @conditional _ _ c c' a a' b b' hc ha hb =>
      -- an alternative is missing in both or in neither, as positions do not
      -- matter for that
      have hmissing : b.isMissing = b'.isMissing := by
        rw [← Node.isMissing_bare, hb, Node.isMissing_bare]
      exact coupling.conditional _ _ hmissing (h.coupled he hc)
        (h.coupled he ha) (h.coupled he hb)
  | ident ht =>
      rw [MonkeyLang.evalWith, MonkeyLang.evalWith, ht]
      exact coupling.named rfl rfl fun s t hs => hS.lookup hs he _
  | index hl hi => exact coupling.index (h.coupled he hl) (h.coupled he hi)
  | call hc has => exact h.callWith hS he hc has

end Evaluates

/-- **Evaluation does not tell names and places.**  Trees that are equal
without places have related values, or the same fault, in matched frames of
related stores, if the relation goes along with what evaluation does to
them. -/
theorem Store.Lockstep.evaluates_eval (hS : Store.Lockstep S) (depth : ℕ) :
    Evaluates S (eval depth) (eval depth) := by
  induction depth with
  | zero => exact fun _ _ _ _ _ _ _ => .none
  | succ depth ih => exact ih.evalWith hS

/-- So it is in stores that are the same but for names. -/
lemma evaluates_eval (p q : Array String) (depth : ℕ) :
    Evaluates (Store.Renamed p q) (eval depth) (eval depth) :=
  (Store.lockstep_renamed p q).evaluates_eval depth

end MonkeyLang

/-
Evaluation under other names.

* `Node.Legible π r σ e n`: the tree `n` may be evaluated in the frame `e` with
  the names that `σ` gives;
* `scalarsOnly quiet`: in quiet runs `puts` is only called with integers, truth
  values and strings;
* `Run.Respelled π quiet r x x'`: from stores that are the same but for names two
  runs end in such stores, with related values or with faults;
* `Respells π quiet rec rec'`: two ways of evaluation that do so on a tree and on
  the one with other names;
* `Respells.quoteWith`, `Respells.quoteSealed`: trees are quoted alike, with the
  names that `π` gives or, where only what is unquoted tells them, with their own;
* `Respells.evalOnlyWith`: one step of evaluation does so if the evaluation of
  the parts does, with a lemma for each kind of part before;
* `respells_evalOnly`: evaluation does so, with the calls that are allowed.
-/
import MonkeyLang.Proofs.Eval.Allowed
import MonkeyLang.Proofs.Eval.Parts
import MonkeyLang.Proofs.Store.Respell

namespace MonkeyLang

open List (Forall₂)

variable {π σ : Equiv.Perm String} {r r' : Reading} {quiet : Bool} {e : ℕ}

/-! ### Trees in frames -/

lemma Spares.refl : Spares (.refl _) := ⟨fun _ => rfl, rfl, rfl⟩

/-- A tree may be evaluated in a frame with other names: with those that `π`
gives if `π` keeps what it binds, and with its own ones if `π` keeps those that
it quotes and the frame is read in no other way. -/
structure Node.Legible (π : Equiv.Perm String) (r : Reading)
    (σ : Equiv.Perm String) (e : ℕ) (n : Node) : Prop where
  reads : σ ∈ r.frame e
  named : n.Named
  fits : σ = π ∧ n.Settled π ∨ r.frame e = {.refl _} ∧ n.Discreet π

namespace Node.Legible

variable {n m : Node}

lemma child (h : n.Legible π r σ e) (hm : m ∈ n.children) :
    m.Legible π r σ e where
  reads := h.reads
  named := h.named.child hm
  fits := h.fits.imp (fun h => ⟨h.1, h.2.child hm⟩)
    fun h => ⟨h.1, h.2.child hm⟩

lemma mono (hr : r ≤ r') (h : n.Legible π r σ e) : n.Legible π r' σ e where
  reads := Reading.mem_mono hr h.reads
  named := h.named
  fits := h.fits.imp id fun hfits => ⟨(hr e ⟨σ, h.reads⟩).trans hfits.1, hfits.2⟩

/-- There are no other names than those that `π` gives and the own ones. -/
lemma cases (h : n.Legible π r σ e) :
    σ = π ∧ n.Settled π ∨ σ = .refl _ ∧ n.Discreet π := by
  refine h.fits.imp id fun hfits => ⟨?_, hfits.2⟩
  have hσ := h.reads
  rw [hfits.1] at hσ
  exact hσ

lemma readable (h : n.Legible π r σ e) : n.Readable π σ := ⟨h.named, h.cases⟩

lemma spares (h : n.Legible π r σ e) (hπ : Spares π) : Spares σ := by
  rcases h.cases with ⟨rfl, -⟩ | ⟨rfl, -⟩
  · exact hπ
  · exact .refl

/-- In the frame of a call the body of a function may be evaluated. -/
lemma ofReadable (h : n.Readable π σ) (hσ : r.frame e = {σ}) :
    n.Legible π r σ e where
  reads := hσ ▸ Set.mem_singleton σ
  named := h.1
  fits := by
    refine h.2.imp id ?_
    rintro ⟨rfl, hdiscreet⟩
    exact ⟨hσ, hdiscreet⟩

/-- What `let` binds is kept by whatever the frame is read with. -/
lemma keeps_name {t u : Token} {v : Node}
    (h : (Node.letStmt t u v).Legible π r σ e)
    (hreadings : ∀ τ ∈ r.frame e, τ = π ∨ τ = .refl _) :
    ∀ τ ∈ r.frame e, τ u.text = u.text := by
  intro τ hτ
  rcases h.fits with ⟨-, hsettled⟩ | ⟨hframe, -⟩
  · rcases hreadings τ hτ with rfl | rfl
    · exact hsettled.name
    · rfl
  · rw [hframe] at hτ
    rw [Set.mem_singleton_iff.mp hτ]
    rfl

end Node.Legible

/-! ### What is printed -/

/-- Whether a value is an integer, a truth value or a string. -/
def Value.isScalar : Value → Bool
  | integer _ | boolean _ | string _ => true
  | _ => false

lemma Value.Respelled.eq_of_isScalar {v w : Value}
    (h : v.Respelled π r w) (hv : v.isScalar = true) : v = w := by
  cases h <;> first | rfl | cases hv

lemma Value.Respelled.isScalar_eq {v w : Value} (h : v.Respelled π r w) :
    v.isScalar = w.isScalar := by
  cases h <;> rfl

/-- Whether a call may be made: in quiet runs only scalars may be printed. -/
def scalarsOnly (quiet : Bool) (f : Value) (args : List Value) : Bool :=
  match f with
  | .builtin .puts => !quiet || args.all Value.isScalar
  | _ => true

/-- So it is with related values. -/
lemma scalarsOnly_eq {f f' : Value} (hf : f.Respelled π r f')
    {args args' : List Value} (h : Forall₂ (Value.Respelled π r) args args') :
    scalarsOnly quiet f args = scalarsOnly quiet f' args' := by
  have hall : args.all Value.isScalar = args'.all Value.isScalar := by
    induction h with
    | nil => rfl
    | cons hv _ ih => rw [List.all_cons, List.all_cons, hv.isScalar_eq, ih]
  cases hf with
  | builtin b =>
      cases b with
      | puts => rw [scalarsOnly, scalarsOnly, hall]
      | _ => rfl
  | _ => rfl

/-- What quiet runs print is the same, line by line. -/
lemma prints_respelled {b : Builtin} {args args' : List Value}
    (h : Forall₂ (Value.Respelled π r) args args')
    (hallowed : scalarsOnly quiet (.builtin b) args = true) :
    Forall₂ (fun text text' => quiet = true → text = text') (b.prints args)
      (b.prints args') := by
  cases b with
  | puts =>
      have hscalars : ∀ v ∈ args, quiet = true → v.isScalar = true := by
        intro v hv hquiet
        rw [scalarsOnly, hquiet, Bool.not_true, Bool.false_or,
          List.all_eq_true] at hallowed
        exact hallowed v hv
      have hboth := (List.forall₂_and_left args args').mpr ⟨hscalars, h⟩
      refine List.forall₂_map_left_iff.mpr (List.forall₂_map_right_iff.mpr ?_)
      exact hboth.imp fun _ _ h hquiet =>
        congrArg Value.text (h.2.eq_of_isScalar (h.1 hquiet))
  | _ => exact .nil

/-! ### Answers -/

/-- From stores that are the same but for names two runs end in such stores,
with related values or with faults, or neither has an answer. -/
abbrev Run.Respelled (π : Equiv.Perm String) (quiet : Bool) (r : Reading)
    (x x' : Run (Option Value)) : Prop :=
  Parallel (Store.Respelled π quiet) (fun _ _ => True)
    (fun r => Option.Rel (Value.Respelled π r)) r x x'

/-- Where more frames are read, values that are the same but for names stay so;
faults may be any ones. -/
lemma Value.Respelled.coupling (π : Equiv.Perm String) :
    Value.Coupling (Closure.Respelled π) (fun _ c d => c.id = d.id)
      (fun m n => n = m.respell π ∧ m.Named ∧ m.Settled π) (fun _ _ => True)
      (Value.Respelled π) where
  congruence := Value.Respelled.congruence π
  faithful := Value.Respelled.faithful π
  mono hr _ _ h := h.mono hr
  ofInt n := ⟨rfl, Node.named_of_children rfl nofun,
    Node.settled_of_postorder rfl nofun⟩
  ofBool b := by
    cases b <;> exact ⟨rfl, Node.named_of_children rfl nofun,
      Node.settled_of_postorder rfl nofun⟩
  fault _ := trivial

open Value.Respelled (coupling)

/-! ### Calls -/

/-- Functions of the language, which print the same in quiet runs. -/
lemma Builtin.call_respelled (b : Builtin) {args args' : List Value}
    (h : Forall₂ (Value.Respelled π r) args args')
    (hallowed : scalarsOnly quiet (.builtin b) args = true) :
    Run.Respelled π quiet r (b.call args) (b.call args') := by
  have hchange : Parallel (Store.Respelled π quiet) (fun _ _ => True)
      (fun _ _ _ => True) r
      (Run.change fun s => (b.prints args).foldl (fun s text => s.print text) s)
      (Run.change fun s =>
        (b.prints args').foldl (fun s text => s.print text) s) := by
    have hprints := prints_respelled h hallowed
    refine Parallel.modifyGet fun s t hs => ⟨r, le_refl r, ?_, trivial⟩
    show Store.Respelled π quiet r (List.foldl _ s _) (List.foldl _ t _)
    generalize b.prints args = texts, b.prints args' = texts' at hprints
    induction hprints generalizing s t with
    | nil => exact hs
    | cons htext _ ih => exact ih _ _ (hs.print htext)
  refine hchange.bind fun r' hr _ _ _ => (coupling π).settle ?_
  exact (Value.Respelled.congruence π r').builtin_result b
    (h.imp fun _ _ h => h.mono hr)

/-- Frames of calls. -/
lemma callFrame_respelled {c : Closure} (hc : c.Named)
    (hσ : σ ∈ r.frame c.frame) {args args' : List Value}
    (h : Forall₂ (Value.Respelled π r) args args') :
    Parallel (Store.Respelled π quiet) (fun _ _ => True)
      (fun r e e' => e = e' ∧ r.frame e = {σ}) r
      (callFrame c args) (callFrame (c.respell σ) args') :=
  Parallel.modifyGet fun s _ hs => ⟨r.add s.frames.size σ,
    Reading.le_add hs.unread, hs.enter hc hσ h, hs.size,
    Reading.frame_add_self ..⟩

/-- Functions and macros are made with the same numbers. -/
lemma makeClosure_respelled {ps : List Node} {b : Node}
    (hps : ∀ p ∈ ps, p.kind = .ident) (hb : b.Legible π r σ e) :
    Parallel (Store.Respelled π quiet) (fun _ _ => True)
      (fun r => Closure.Respelled π r) r
      (Run.make (Store.makeClosure ps b e))
      (Run.make (Store.makeClosure (ps.map (Node.respell σ)) (b.respell σ)
        e)) :=
  Parallel.modifyGet fun _ _ hs =>
    have hclose := hs.close hb.reads hps hb.readable
    ⟨r, le_refl r, hclose.2, hclose.1⟩

/-! ### Changes of trees -/

namespace Parallel

variable {f f' : Node → Run Node}

lemma transformList_respelled {ns : List Node}
    (h : ∀ n ∈ ns, ∀ r', r ≤ r' →
      Parallel (Store.Respelled π quiet) (fun _ _ => True)
        (fun _ => Node.Replaced π n) r' (n.transformM f)
        ((n.respell π).transformM f')) :
    Parallel (Store.Respelled π quiet) (fun _ _ => True)
      (fun _ ms ms' => ms' = ms.map (Node.respell π) ∧
        Forall₂ (fun n m => Node.Replaced π n m (m.respell π)) ns ms) r
      (Node.transformList f ns)
      (Node.transformList f' (ns.map (Node.respell π))) := by
  induction ns generalizing r with
  | nil => exact pure ⟨rfl, .nil⟩
  | cons n ns ih =>
      refine (h n List.mem_cons_self r (le_refl r)).bind
        fun r₁ hr₁ m m' hm => ?_
      refine (ih fun k hk r' hr' => h k (List.mem_cons_of_mem n hk) r'
        (hr₁.trans hr')).bind fun r₂ hr₂ ms ms' hms => pure ?_
      obtain ⟨rfl, hms⟩ := hms
      obtain rfl := hm.eq
      exact ⟨rfl, .cons hm hms⟩

/-- **Changes of trees.**  Rules that do alike on a tree and on the one with
other names change such trees alike. -/
theorem transformM_respelled
    (hf : ∀ m : Node, m.Named → m.Settled π → ∀ r', r ≤ r' →
      Parallel (Store.Respelled π quiet) (fun _ _ => True)
        (fun _ => Node.Replaced π m) r' (f m) (f' (m.respell π)))
    {n : Node} (hn : n.Named) (hsettled : n.Settled π) :
    Parallel (Store.Respelled π quiet) (fun _ _ => True)
      (fun _ => Node.Replaced π n) r (n.transformM f)
      ((n.respell π).transformM f') := by
  induction n using Node.children_induct generalizing r with
  | step n ih =>
    by_cases hmissing : n = .missing
    · subst hmissing
      exact pure ⟨rfl, hn, hsettled, id⟩
    have hmissing' : n.respell π ≠ .missing :=
      (Node.nodewise_respell π).ne_missing hmissing
    rw [Node.transformM_eq f hmissing, Node.transformM_eq f' hmissing',
      Node.children_respell]
    refine (transformList_respelled fun c hc r' hr => ih c hc
      (fun m hm hs r'' hr' => hf m hm hs r'' (hr.trans hr')) (hn.child hc)
      (hsettled.child hc)).bind fun r' hr cs cs' hcs => ?_
    obtain ⟨rfl, hcs⟩ := hcs
    have hlength : cs.length = n.children.length := hcs.length_eq.symm
    have hrebuilt := Node.rebuilds_named.rebuild n cs hn
      (hcs.imp fun _ _ h => ⟨h.named, h.ident⟩)
    have hstep := hf (n.withChildren cs) hrebuilt.1
      (Node.settled_withChildren hsettled.self hlength
        (forall_of_forall₂ hcs fun _ _ h => h.settled)) r' hr
    rw [Node.respell_withChildren] at hstep
    exact hstep.imp fun _ _ _ hm => ⟨hm.eq, hm.named, hm.settled,
      fun hkind => hm.ident ((Node.kind_withChildren n cs).trans hkind)⟩

end Parallel

/-! ### Parts -/

/-- A tree and the one with other names are evaluated alike in a frame that is
read so. -/
def Respells (π : Equiv.Perm String) (quiet : Bool)
    (rec rec' : Node → ℕ → Run (Option Value)) : Prop :=
  ∀ r σ e n, n.Legible π r σ e →
    Run.Respelled π quiet r (rec n e) (rec' (n.respell σ) e)

namespace Respells

variable {rec rec' : Node → ℕ → Run (Option Value)} {n : Node} {ns : List Node}

lemma coupled (h : Respells π quiet rec rec') (hn : n.Legible π r σ e) :
    Run.Coupled (Store.Respelled π quiet) (fun _ _ => True) (Value.Respelled π) r
      (rec n e) (rec' (n.respell σ) e) :=
  fun r' hr => h r' σ e n (hn.mono hr)

lemma forall_coupled (h : Respells π quiet rec rec')
    (hns : ∀ n ∈ ns, n.Legible π r σ e) :
    Forall₂ (fun n n' => Run.Coupled (Store.Respelled π quiet) (fun _ _ => True)
      (Value.Respelled π) r (rec n e) (rec' n' e)) ns
      (ns.map (Node.respell σ)) :=
  List.forall₂_map_right_iff.mpr
    (List.forall₂_same.mpr fun n hn => h.coupled (hns n hn))

/-! ### Calls and quotes -/

/-- Calling related values with related arguments, if that is allowed. -/
lemma applyOnly (h : Respells π quiet rec rec') {f f' : Value}
    (hf : f.Respelled π r f') {args args' : List Value}
    (hargs : Forall₂ (Value.Respelled π r) args args') :
    Run.Respelled π quiet r
      (MonkeyLang.applyOnly (scalarsOnly quiet) rec f args)
      (MonkeyLang.applyOnly (scalarsOnly quiet) rec' f' args') := by
  rw [MonkeyLang.applyOnly, MonkeyLang.applyOnly, ← scalarsOnly_eq hf hargs]
  split
  case isFalse => exact .none
  next hallowed =>
    cases hf with
    | @function c d hc =>
        obtain @⟨τ, hτ, hparams, hbody⟩ := hc
        have hlength : (c.respell τ).params.length = c.params.length :=
          List.length_map _
        rw [applyWith, applyWith, hargs.length_eq, hlength]
        split
        · refine (callFrame_respelled ⟨hparams, hbody.1⟩ hτ hargs).bind
            fun r₁ hr₁ d d' hd => ?_
          obtain ⟨rfl, hframe⟩ := hd
          refine (h r₁ τ d c.body (.ofReadable hbody hframe)).bind
            fun r₂ hr₂ v? w? hv => ?_
          exact (coupling π).deliver hv
        · exact .throw trivial
    | builtin b => exact b.call_respelled hargs hallowed
    | _ => exact .throw trivial

/-- Calls of `unquote` on one argument are replaced by such trees. -/
lemma replaceUnquote (h : Respells π quiet rec rec') (hπ : Spares π)
    (hn : n.Legible π r π e) (hsettled : n.Settled π) :
    Parallel (Store.Respelled π quiet) (fun _ _ => True)
      (fun _ => Node.Replaced π n) r (MonkeyLang.replaceUnquote rec e n)
      (MonkeyLang.replaceUnquote rec' e (n.respell π)) := by
  have hsame : ∀ m : Node, m = n.respell π →
      Parallel (Store.Respelled π quiet) (fun _ _ => True)
        (fun _ => Node.Replaced π n) r (Pure.pure n : Run Node)
        (Pure.pure m : Run Node) :=
    fun m hm => .pure ⟨hm, hn.named, hsettled, id⟩
  cases n with
  | call t callee args =>
      rcases args with _ | ⟨arg, _ | ⟨_, _⟩⟩
      · exact hsame _ rfl
      · rw [Node.respell_call, List.map_singleton, MonkeyLang.replaceUnquote,
          MonkeyLang.replaceUnquote, SpecialForm.ofCallee?_respell hπ]
        split
        · have harg : arg.Legible π r π e :=
            hn.child (List.mem_cons_of_mem callee List.mem_cons_self)
          refine ((coupling π).unquoteWith (h.coupled harg)).imp
            fun _ m m' hm => ⟨hm.1, hm.2.1, hm.2.2, ?_⟩
          rintro ⟨⟩
        · exact hsame _ (Node.respell_call π t callee [arg]).symm
      · exact hsame _ rfl
  | _ => exact hsame _ rfl

lemma quoteWith (h : Respells π quiet rec rec') (hπ : Spares π)
    (hn : n.Legible π r π e) (hsettled : n.Settled π) :
    Parallel (Store.Respelled π quiet) (fun _ _ => True)
      (fun _ => Node.Replaced π n) r (MonkeyLang.quoteWith rec e n)
      (MonkeyLang.quoteWith rec' e (n.respell π)) :=
  Parallel.transformM_respelled (fun _ hnamed hm _ hr => h.replaceUnquote hπ
    ⟨Reading.mem_mono hr hn.reads, hnamed, Or.inl ⟨rfl, hm⟩⟩ hm)
    hn.named hsettled

/-- The trees for arguments of `unquote` in a frame that is read as it is. -/
lemma unquoteAll (h : Respells π quiet rec rec')
    (hns : ∀ n ∈ ns, n.unquotes = [] ∧ n.Legible π r (.refl _) e)
    {ks : List Node} (hks : ∀ k ∈ ks, k.Named ∧ k.Settled π) :
    Parallel (Store.Respelled π quiet) (fun _ _ => True)
      (fun _ ms ms' => ms' = ms.map (Node.respell π) ∧
        ms.length = ks.length + ns.length ∧
        ∀ m ∈ ms, m.Named ∧ m.Settled π) r
      (MonkeyLang.unquoteAll rec e ks ns)
      (MonkeyLang.unquoteAll rec' e (ks.map (Node.respell π)) ns) := by
  induction ns generalizing r ks with
  | nil => exact .pure ⟨rfl, rfl, hks⟩
  | cons n ns ih =>
      obtain ⟨⟨hnone, hn⟩, hns⟩ := List.forall_mem_cons.mp hns
      -- nothing is unquoted inside the arguments, so that they are evaluated as
      -- they are written
      have hfilled : ∀ ks : List Node, n.filledLast ks = n := by
        intro ks
        rw [Node.filledLast, hnone, List.length_nil, Nat.sub_zero,
          List.drop_length, Node.filled_nil hnone]
      have hstep : ∀ rec : Node → ℕ → Run (Option Value), ∀ ks,
          MonkeyLang.unquoteAll rec e ks (n :: ns) =
            MonkeyLang.unquoteWith rec e n >>= fun k =>
              MonkeyLang.unquoteAll rec e (ks ++ [k]) ns := by
        intro rec ks
        simp [MonkeyLang.unquoteAll, hfilled]
      have hrefl := (coupling π).unquoteWith (h.coupled hn)
      rw [Node.respell_refl] at hrefl
      rw [hstep, hstep]
      refine hrefl.bind fun r₁ hr₁ k k' hk => ?_
      obtain ⟨rfl, hk⟩ := hk
      have hall : ∀ m ∈ ks ++ [k], m.Named ∧ m.Settled π :=
        List.forall_mem_append.mpr ⟨hks, List.forall_mem_singleton.mpr hk⟩
      -- frames may have been opened meanwhile, so the induction is over every
      -- renaming further on
      have hrest := ih (fun m hm => ⟨(hns m hm).1, (hns m hm).2.mono hr₁⟩) hall
      rw [List.map_append] at hrest
      refine hrest.imp fun _ ms ms' hms => ⟨hms.1, ?_, hms.2.2⟩
      simp only [hms.2.1, List.length_append, List.length_cons, List.length_nil]
      omega

/-- Sealed trees are quoted alike there. -/
lemma quoteSealed (h : Respells π quiet rec rec') (hn : n.Sealed π)
    (hlegible : n.Legible π r (.refl _) e) :
    Parallel (Store.Respelled π quiet) (fun _ _ => True)
      (fun _ => Node.Replaced π n) r (MonkeyLang.quoteWith rec e n)
      (MonkeyLang.quoteWith rec' e n) := by
  have hquote : ∀ rec : Node → ℕ → Run (Option Value),
      MonkeyLang.quoteWith rec e n =
        MonkeyLang.unquoteAll rec e [] n.unquotes >>= fun ks =>
          Pure.pure (n.filled ks) :=
    fun rec => funext fun s =>
      quoteWith_eq (hn.plainCallees.calleesStay rec e s) []
  have hargs : ∀ m ∈ n.unquotes, m.unquotes = [] ∧
      m.Legible π r (.refl _) e :=
    fun m hm => ⟨hn.unquotes_eq_nil hm,
      Node.of_mem_unquotes (fun _ hk _ => hk.child) hlegible hm⟩
  rw [hquote, hquote]
  refine (h.unquoteAll hargs (List.forall_mem_nil _)).map fun _ ks ks' hks => ?_
  obtain ⟨rfl, hlength, hks⟩ := hks
  rw [List.length_nil, Nat.zero_add] at hlength
  exact hn.filled hlegible.named hlength hks

/-- A call of a special form: what is quoted gets the names that `π` gives. -/
lemma callWith (h : Respells π quiet rec rec') (hπ : Spares π) {t : Token}
    {c : Node} (hform : SpecialForm.ofCallee? c ≠ none)
    (hn : (Node.call t c ns).Legible π r σ e) :
    Run.Respelled π quiet r (MonkeyLang.callWith rec e c ns)
      (MonkeyLang.callWith rec' e (c.respell σ)
        (ns.map (Node.respell σ))) := by
  have hns : ∀ m ∈ ns, m.Legible π r σ e := fun m hm =>
    hn.child (List.mem_cons_of_mem c hm)
  simp only [MonkeyLang.callWith,
    SpecialForm.ofCallee?_respell (hn.spares hπ)]
  cases hc : SpecialForm.ofCallee? c with
  | none => exact absurd hc hform
  | some form =>
      cases form with
      | unquote => exact .throw trivial
      | quote =>
          rcases ns with _ | ⟨n, _ | ⟨_, _⟩⟩
          · exact .throw trivial
          · have harg : n ∈ (Node.call t c [n]).children :=
              List.mem_cons_of_mem c List.mem_cons_self
            -- either the tree has got its new names already, or it has those of
            -- the program and what it quotes is sealed
            have hquote : Parallel (Store.Respelled π quiet)
                (fun _ _ => True) (fun _ => Node.Replaced π n) r
                (MonkeyLang.quoteWith rec e n)
                (MonkeyLang.quoteWith rec' e (n.respell σ)) := by
              rcases hn.cases with ⟨rfl, hsettled⟩ | ⟨rfl, hdiscreet⟩
              · exact h.quoteWith hπ (hns n List.mem_cons_self)
                  (hsettled.child harg)
              · rw [Node.respell_refl]
                exact h.quoteSealed (hdiscreet.sealed hc)
                  (hns n List.mem_cons_self)
            refine hquote.bind fun _ _ m m' hm => ?_
            obtain rfl := hm.eq
            exact .pure (.some (.quote hm.named hm.settled))
          · exact .throw trivial

/-- **One step of evaluation.** -/
theorem evalOnlyWith (h : Respells π quiet rec rec') (hπ : Spares π) :
    Respells π quiet (MonkeyLang.evalOnlyWith (scalarsOnly quiet) rec)
      (MonkeyLang.evalOnlyWith (scalarsOnly quiet) rec') := by
  intro r σ e n hn
  have hchild : ∀ m ∈ n.children, m.Legible π r σ e := fun m => hn.child
  have hcoupled : ∀ m ∈ n.children, Run.Coupled (Store.Respelled π quiet)
      (fun _ _ => True) (Value.Respelled π) r (rec m e)
      (rec' (m.respell σ) e) :=
    fun m hm => h.coupled (hchild m hm)
  -- a name is looked up as the frame is read, and the legibility of the tree says
  -- how that is
  cases n with
  | missing => exact .pure .none
  | program ss =>
      rw [Node.respell_eq σ (by simp [Node.kind])]
      exact ((coupling π).sequence (h.forall_coupled hchild) .none).bind
        fun _ _ _ _ hv => (coupling π).deliver hv
  | block t ss =>
      rw [Node.respell_eq σ (by simp [Node.kind])]
      exact (coupling π).sequence (h.forall_coupled hchild) .none
  | exprStmt t v => exact h r σ e v (hchild v List.mem_cons_self)
  | returnStmt t v =>
      exact ((coupling π).operand (hcoupled v List.mem_cons_self)).map
        fun _ _ _ hv => .some (.returned hv)
  | letStmt t name v =>
      refine ((coupling π).operand (hcoupled v List.mem_cons_self)).bind
        fun r₁ hr₁ w w' hw => ?_
      refine .bind (A := fun _ _ _ => True) ?_ fun _ _ _ _ _ => .pure .none
      refine Parallel.modifyGet fun s t hs => ⟨r₁, le_refl r₁, ?_, trivial⟩
      exact hs.bind e ((hn.mono hr₁).keeps_name (hs.readings e)) hw
  | intLit t n => exact .pure (.some (.integer n))
  | boolLit t b => exact .pure (.some (.boolean b))
  | strLit t => exact .pure (.some (.string t.text))
  | array t ns =>
      rw [Node.respell_eq σ (by simp [Node.kind])]
      exact ((coupling π).operands (h.forall_coupled hchild)).map
        fun _ _ _ hvs => .some (.array hvs)
  | hash t ps =>
      rw [Node.respell_hash]
      refine ((coupling π).entries (List.forall₂_map_right_iff.mpr
        (List.forall₂_same.mpr fun p hp => ?_)) .nil).map
          fun _ _ _ ht => .some (.hash ht)
      exact ⟨hcoupled _ (List.mem_flatMap.mpr ⟨p, hp, by simp⟩),
        hcoupled _ (List.mem_flatMap.mpr ⟨p, hp, by simp⟩)⟩
  | function t ps b =>
      rw [Node.respell_function]
      exact (makeClosure_respelled hn.named.params
        (hchild b (List.mem_append_right _ List.mem_cons_self))).map
          fun _ _ _ hc => .some (.function hc)
  | macroFn t ps b =>
      rw [Node.respell_macroFn]
      exact (makeClosure_respelled hn.named.params
        (hchild b (List.mem_append_right _ List.mem_cons_self))).map
          fun _ _ _ hc => .some (.macroFn hc.id_eq)
  | prefixOp t v =>
      exact (coupling π).prefixOp _ (hcoupled v List.mem_cons_self)
  | infixOp t l k =>
      obtain ⟨hl, hk⟩ := List.forall_mem_cons.mp hcoupled
      exact (coupling π).infixOp _ hl (hk k List.mem_cons_self)
  | conditional t c a b =>
      obtain ⟨hc, hab⟩ := List.forall_mem_cons.mp hcoupled
      obtain ⟨ha, hb⟩ := List.forall_mem_cons.mp hab
      exact (coupling π).conditional t t (Node.isMissing_respell σ b).symm hc ha
        (hb b List.mem_cons_self)
  | ident t =>
      -- a name that is bound nowhere is a function of the language, and those
      -- keep their names
      have hσ := hn.spares hπ
      rw [Node.respell_ident]
      show Run.Respelled π quiet r (named e t.text) (named e (t.respell σ).text)
      rw [Token.text_respell]
      exact (coupling π).named (hσ.ofName? _).symm trivial
        fun s t hs => hs.lookup hn.reads _
  | index t l k =>
      obtain ⟨hl, hk⟩ := List.forall_mem_cons.mp hcoupled
      exact (coupling π).index hl (hk k List.mem_cons_self)
  | call t c ns =>
      obtain ⟨hc, hns⟩ := List.forall_mem_cons.mp hchild
      simp only [Node.respell_call, MonkeyLang.evalOnlyWith,
        SpecialForm.ofCallee?_respell (hn.spares hπ)]
      split
      · refine ((coupling π).operand (h.coupled hc)).bind
          fun r₁ hr₁ f f' hf => ?_
        have hargs := h.forall_coupled fun m hm => (hns m hm).mono hr₁
        refine ((coupling π).operands hargs).bind fun r₂ hr₂ vs vs' hvs => ?_
        exact h.applyOnly (hf.mono hr₂) hvs
      · next hform => exact h.callWith hπ hform hn

end Respells

/-- **Evaluation under other names.**  A tree and the one with other names are
evaluated alike, as far as the calls that are due are allowed. -/
theorem respells_evalOnly (hπ : Spares π) (quiet : Bool) (depth : ℕ) :
    Respells π quiet (evalOnly (scalarsOnly quiet) depth)
      (evalOnly (scalarsOnly quiet) depth) := by
  induction depth with
  | zero => exact fun _ _ _ _ _ _ _ _ => .none
  | succ depth ih => exact ih.evalOnlyWith hπ

end MonkeyLang

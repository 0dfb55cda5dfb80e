/-
Evaluation within a regime.

* `Regime.Answered`: all that a step asks for within the regime is answered
  within it;
* `Lawful.ends_step`: then so is the step;
* `Lawful.asked_of_asks`, `Lawful.plain_of_asks`: then it asks for nothing but
  what is within the regime, and in value positions for plain trees only.
-/
import MonkeyLang.Proofs.Eval.Regime

namespace MonkeyLang

/-- Whatever the step of a job comes to ask for within the regime is answered
within it. -/
def Regime.Answered (R : Regime) (rec : Node → ℕ → Run (Option Value))
    (j : Job) (s : Store) : Prop :=
  ∀ i s', Asks rec j s i s' → R.good s' → R.le s s' → R.asked s' i →
    Ends R.toWorld (R.answer i) (i.answer rec) s'

namespace Regime.Lawful

variable {R : Regime} (h : R.Lawful) {s : Store}
  {rec : Node → ℕ → Run (Option Value)} {n : Node} {e : ℕ}

include h

/-! ### Calls of values -/

/-- A call keeps the regime if the body of the function does. -/
lemma ends_apply {f : Value} {args : List Value} (hs : R.good s)
    (hj : R.asked s (.apply f args)) (hcall : R.call f args)
    (hask : R.Answered rec (.apply f args) s) :
    Ends R.toWorld (R.answer (.apply f args)) (applyWith rec f args) s := by
  rcases applyWith_cases f args with
    ⟨c, rfl, hcount, happly⟩ | ⟨b, rfl, happly⟩ | ⟨g, happly⟩
  · rw [happly]
    refine (h.enter s c args hs (Or.inl hj.1) hj.2).bind
      fun d s₁ hframe hgood hle hd => ?_
    have hbody := hask _ _ (.body hcount hframe) hgood hle
      ⟨hd, h.body s c (Or.inl hj.1)⟩
    exact hbody.bind fun v? s₂ _ hgood' _ hv => h.ends_deliver hgood' hv.1
  · rw [happly]
    exact h.ends_call hs hj.2 hcall
  · rw [happly]
    exact Ends.throw hs g

/-! ### Parts of a node -/

variable (hs : R.good s) (hj : R.asked s (.eval n e))
  (hask : R.Answered rec (.eval n e) s)

include hs hj hask

omit hs hask in
/-- A part is a tree of the regime. -/
lemma tree_part {m : Node} (hm : m ∈ n.parts) : R.tree m := by
  rcases Node.mem_valueParts_of_parts hm with hvalued | ⟨t, rfl⟩
  · exact h.trees.tree_of_plain m (h.trees.valued n hj.2 m hvalued)
  · exact h.trees.tail _ hj.2 m List.mem_cons_self

omit hs in
/-- The value of a part is within the regime. -/
lemma ends_part {m : Node} {pre post : List Node} {vs : List Value} {s' : Store}
    (hm : n.parts = pre ++ m :: post)
    (hpre : operands rec e pre s = some (.ok vs, s')) (hgood : R.good s')
    (hle : R.le s s') :
    Ends R.toWorld (R.answer (.eval m e)) (rec m e) s' := by
  have hmem : m ∈ n.parts := by
    rw [hm]
    exact List.mem_append_right _ List.mem_cons_self
  exact hask _ _ (.part hm hpre) hgood hle
    ⟨h.frame_mono hle hj.1, h.tree_part hj hmem⟩

/-- So are those of the first parts, if they stand in value positions. -/
lemma ends_parts {pre post : List Node} (hparts : n.parts = pre ++ post)
    (hplain : ∀ m ∈ pre, R.plain m) :
    Ends R.toWorld (fun s vs => ∀ v ∈ vs, R.value s v)
      (operands rec e pre) s := by
  refine h.ends_operands hs hplain fun before m after vs s' hm hbefore => ?_
  have hsplit : n.parts = before ++ m :: (after ++ post) := by
    rw [hparts, hm, List.append_assoc]
    rfl
  exact h.ends_part hj hask hsplit hbefore

/-- The first part in a value position. -/
lemma ends_firstPart {m : Node} {post : List Node} (hm : n.parts = m :: post)
    (hplain : R.plain m) : Ends R.toWorld R.value (operand rec e m) s := by
  have hsplit : n.parts = [] ++ m :: post := hm
  exact h.ends_operand hplain
    (h.ends_part hj hask hsplit rfl hs (R.refl s))

omit hs in
/-- The second one. -/
lemma ends_secondPart {l m : Node} {post : List Node} {v : Value} {s' : Store}
    (hm : n.parts = l :: m :: post)
    (hl : operand rec e l s = some (.ok v, s')) (hgood : R.good s')
    (hle : R.le s s') (hplain : R.plain m) :
    Ends R.toWorld R.value (operand rec e m) s' := by
  have hsplit : n.parts = [l] ++ m :: post := hm
  have hfirst : operands rec e [l] s = some (.ok [v], s') := bind_ok hl
  exact h.ends_operand hplain (h.ends_part hj hask hsplit hfirst hgood hle)

/-- Statements give what one of them gives. -/
lemma ends_statements {A : Store → Value → Prop}
    (hA : ∀ m ∈ n.statements, ∀ t v?, R.answer (.eval m e) t v? →
      Value.IfAny (A t) v?) {pre post : List Node}
    (hstatements : n.statements = pre ++ post) :
    Ends R.toWorld (fun s => Value.IfAny (A s)) (sequence rec e none pre)
      s := by
  refine ends_sequence hs (Value.ifAny_none _) nofun
    fun before m after v? s' hm hbefore hv hgood hle => ?_
  have hsplit : n.statements = before ++ m :: (after ++ post) := by
    rw [hstatements, hm, List.append_assoc]
    rfl
  have hmem : m ∈ n.statements := by
    rw [hsplit]
    exact List.mem_append_right _ List.mem_cons_self
  have htree := h.trees.tail n hj.2 m (Node.mem_tailParts_of_statements hmem)
  exact (hask _ _ (.statement hsplit hbefore hv) hgood hle
    ⟨h.frame_mono hle hj.1, htree⟩).mono fun t v? _ _ _ hv => hA m hmem t v? hv

omit hs hask in
lemma plain_entries {tok : Token} {ps : List (Node × Node)}
    (hn : n = .hash tok ps) : ∀ p ∈ ps, R.plain p.1 ∧ R.plain p.2 := by
  subst hn
  intro p hp
  have hmem : ∀ m, m = p.1 ∨ m = p.2 → R.plain m := fun m hm =>
    h.trees.valued _ hj.2 m
      (List.mem_flatMap.mpr ⟨p, hp, by simpa using hm⟩)
  exact ⟨hmem _ (Or.inl rfl), hmem _ (Or.inr rfl)⟩

/-- The first entries of a hash. -/
lemma ends_firstEntries {tok : Token} {pre post : List (Node × Node)}
    (hn : n = .hash tok (pre ++ post)) :
    Ends R.toWorld (fun s t => R.value s (.hash t))
      (entries rec e .empty pre) s := by
  have hplain := h.plain_entries hj hn
  have htree : ∀ p ∈ pre ++ post, R.tree p.1 ∧ R.tree p.2 := fun p hp =>
    ⟨h.trees.tree_of_plain _ (hplain p hp).1,
      h.trees.tree_of_plain _ (hplain p hp).2⟩
  subst hn
  refine h.ends_entries hs
    (fun p hp => hplain p (List.mem_append_left _ hp))
    (h.values s).emptyHash ?_ ?_
  · rintro before k v after u s' rfl hbefore hgood hle
    have hmem : (k, v) ∈ (before ++ (k, v) :: after) ++ post := by simp
    rw [List.append_assoc] at hask
    exact hask _ _ (.key hbefore) hgood hle
      ⟨h.frame_mono hle hj.1, (htree _ hmem).1⟩
  · rintro before k v after u key hash s' s'' rfl hbefore hk hkey hgood hle
    have hmem : (k, v) ∈ (before ++ (k, v) :: after) ++ post := by simp
    rw [List.append_assoc] at hask
    exact hask _ _ (.value hbefore hk hkey) hgood hle
      ⟨h.frame_mono hle hj.1, (htree _ hmem).2⟩

/-! ### Quotes and calls -/

omit hs in
/-- Where a quote comes to `unquote`, it puts a plain tree in its place. -/
lemma ruleKeeps_quote {t : Token} {callee m : Node}
    (hn : n = .call t callee [m])
    (hcallee : SpecialForm.ofCallee? callee = some .quote) :
    Ends.RuleKeeps R.toWorld (replaceUnquote rec e) R.tree
      (fun n c => R.plain n → R.plain c) m s := by
  subst hn
  intro k s' hcomes hk hgood hle
  rcases replaceUnquote_cases k with ⟨u, inner, arg, rfl, hinner, hrule⟩ | hrule
  · have harg : R.plain arg :=
      h.trees.valued _ hk arg (List.mem_cons_of_mem _ List.mem_cons_self)
    have hrec := hask _ _ (.unquote hcallee hcomes hinner) hgood hle
      ⟨h.frame_mono hle hj.1, h.trees.tree_of_plain arg harg⟩
    rw [hrule]
    refine hrec.bind fun v? s₁ _ hgood₁ _ hv => ?_
    split
    · next c hc =>
      obtain ⟨v, rfl, hnode⟩ := Option.bind_eq_some_iff.mp hc
      have hplain : R.plain c := h.syntaxOf s₁ v c (hv.2 harg v rfl) hnode
      exact Ends.pure hgood₁
        ⟨h.trees.tree_of_plain c hplain, fun _ => hplain⟩
    · exact Ends.throw hgood₁ _
  · rw [hrule]
    exact Ends.pure hgood ⟨hk, fun hplain => hplain⟩

/-- A call that is no special form: its callee, and then its arguments. -/
lemma ends_callee {t : Token} {callee : Node} {args : List Node}
    (hn : n = .call t callee args)
    (hcallee : SpecialForm.ofCallee? callee = none) :
    Ends R.toWorld R.value (operand rec e callee) s := by
  subst hn
  exact h.ends_firstPart hs hj hask (if_pos hcallee)
    (h.trees.valued _ hj.2 callee List.mem_cons_self)

omit hs in
lemma ends_arguments {t : Token} {callee : Node} {args : List Node} {f : Value}
    {s₁ : Store} (hn : n = .call t callee args)
    (hcallee : SpecialForm.ofCallee? callee = none)
    (hf : operand rec e callee s = some (.ok f, s₁)) (hgood₁ : R.good s₁)
    (hle₁ : R.le s s₁) :
    Ends R.toWorld (fun s vs => ∀ v ∈ vs, R.value s v)
      (operands rec e args) s₁ := by
  have hparts : n.parts = callee :: args := by
    subst hn
    exact if_pos hcallee
  have hplain : ∀ m ∈ args, R.plain m := by
    subst hn
    exact fun m hm => h.trees.valued _ hj.2 m (List.mem_cons_of_mem _ hm)
  refine h.ends_operands hgood₁ hplain
    fun before m after vs s' hm hbefore hgood hle => ?_
  have hsplit : n.parts = (callee :: before) ++ m :: after := by
    rw [hparts, hm]
    rfl
  have hpre : operands rec e (callee :: before) s =
      some (.ok (f :: vs), s') := by
    rw [operands, bind_ok hf, bind_ok hbefore]
    rfl
  exact h.ends_part hj hask hsplit hpre hgood (R.trans hle₁ hle)

lemma ends_call_node {t : Token} {callee : Node} {args : List Node}
    (hn : n = .call t callee args) :
    Ends R.toWorld (fun s => Value.IfAny (R.value s))
      (callWith rec e callee args) s := by
  rcases callWith_cases callee args with
    hcallee | ⟨m, hquote, rfl⟩ | ⟨f, hfault⟩
  · rw [callWith_plain rec e hcallee]
    refine (h.ends_callee hs hj hask hn hcallee).bind
      fun f s₁ hf hgood₁ hle₁ hfV => ?_
    refine (h.ends_arguments hj hask hn hcallee hf hgood₁ hle₁).bind
      fun vs s₂ hvs hgood₂ hle₂ hvsV => ?_
    subst hn
    exact hask _ _ (.call hcallee hf hvs) hgood₂ (R.trans hle₁ hle₂)
      ⟨h.value_mono hle₂ hfV, hvsV⟩
  · have hm : R.plain m := by
      subst hn
      exact h.trees.valued _ hj.2 m (by simp [Node.valueParts])
    rw [callWith_quote rec e hquote]
    exact (Ends.transformM h.trees.rebuilds (h.trees.tree_of_plain m hm) hs
      (h.ruleKeeps_quote hj hask hn hquote)).map fun s' c _ _ hc =>
        Value.ifAny_some (h.quote s' c (hc.2 hm))
  · rw [hfault]
    exact Ends.throw hs f

/-! ### One step -/

lemma ends_conditional {t : Token} {c a b : Node}
    (hn : n = .conditional t c a b) :
    Ends R.toWorld (R.answer (.eval n e)) (evalWith rec n e) s := by
  subst hn
  have hsplit : (Node.conditional t c a b).parts = [] ++ c :: [] := rfl
  have hc := h.ends_part hj hask hsplit rfl hs (R.refl s)
  refine hc.bind fun v? s₁ hcond hgood hle _ => ?_
  have htail : ∀ m ∈ [a, b], R.asked s₁ (.eval m e) := fun m hm =>
    ⟨h.frame_mono hle hj.1, h.trees.tail _ hj.2 m hm⟩
  have hbranch : ∀ m ∈ [a, b],
      Ends R.toWorld (R.answer (.eval m e)) (rec m e) s₁ →
      Ends R.toWorld (R.answer (.eval (.conditional t c a b) e)) (rec m e) s₁ :=
    fun m hm hend => hend.mono fun _ _ _ _ _ hv =>
      ⟨hv.1, fun hplain => hv.2 (h.trees.plainTail _ hplain nofun m hm)⟩
  by_cases hholds : Value.holds v? = true
  · rw [if_pos hholds]
    have ha : a ∈ [a, b] := by simp
    exact hbranch a ha (hask _ _ (.consequence hcond hholds) hgood hle
      (htail a ha))
  · rw [if_neg hholds]
    by_cases hmissing : b.isMissing = true
    · rw [if_pos hmissing]
      exact Ends.pure hgood
        (R.answer_of_value (Value.ifAny_some (h.values s₁).null))
    · rw [if_neg hmissing]
      have hb : b ∈ [a, b] := by simp
      exact hbranch b hb (hask _ _ (.alternative hcond (by simpa using hholds)
        (by simpa using hmissing)) hgood hle (htail b hb))

/-- The values of all parts, where each stands in a value position. -/
lemma ends_allParts (hparts : n.parts = n.valueParts) :
    Ends R.toWorld (fun s vs => ∀ v ∈ vs, R.value s v)
      (operands rec e n.valueParts) s := by
  have hall : n.parts = n.valueParts ++ [] := by rw [hparts, List.append_nil]
  exact h.ends_parts hs hj hask hall (h.trees.valued n hj.2)

/-- The statements of a block give it its answer. -/
lemma ends_block {t : Token} {ss : List Node} (hn : n = .block t ss) :
    Ends R.toWorld (R.answer (.eval n e)) (sequence rec e none ss) s := by
  have hstatements : n.statements = ss ++ [] := by
    rw [hn, List.append_nil]
    rfl
  have hkind : n.kind ≠ .program := by
    rw [hn]
    nofun
  refine (h.ends_statements hs hj hask
    (A := fun s v => R.Carried s v ∧ (R.plain n → R.value s v))
    (fun m hm t v? hv w hw => ⟨hv.1 w hw, fun hplain => hv.2 ?_ w hw⟩)
    hstatements).mono fun t v? _ _ _ hv =>
      ⟨hv.mono fun _ => And.left, fun hplain => hv.mono fun _ hv => hv.2 hplain⟩
  exact h.trees.plainTail n hplain hkind m (Node.mem_tailParts_of_statements hm)

/-- The step of a node is answered within the regime. -/
theorem ends_evalWith :
    Ends R.toWorld (R.answer (.eval n e)) (evalWith rec n e) s := by
  -- most forms come to a value, which is more than a step has to come to; only
  -- what can pass a mark on needs the rest
  have hvalue : ∀ {r : Run (Option Value)},
      Ends R.toWorld (fun s => Value.IfAny (R.value s)) r s →
      Ends R.toWorld (R.answer (.eval n e)) r s := fun hr =>
    hr.mono fun _ _ _ _ _ hv => R.answer_of_value hv
  have hsome : ∀ {v : Value}, R.value s v →
      Ends R.toWorld (R.answer (.eval n e)) (pure (some v)) s := fun hv =>
    hvalue (Ends.pure hs (Value.ifAny_some hv))
  have hplain := h.trees.valued n hj.2
  cases n with
  | missing => exact hvalue (Ends.pure hs (Value.ifAny_none _))
  | program ss =>
      have hstatements : (Node.program ss).statements = ss ++ [] :=
        (List.append_nil ss).symm
      exact hvalue ((h.ends_statements hs hj hask (A := R.Carried)
        (fun _ _ _ _ hv => hv.1) hstatements).bind
          fun v? s₁ _ hgood _ hv => h.ends_deliver hgood hv)
  | block t ss => exact h.ends_block hs hj hask rfl
  | exprStmt t m =>
      have hsplit : (Node.exprStmt t m).parts = [] ++ m :: [] := rfl
      exact (h.ends_part hj hask hsplit rfl hs (R.refl s)).mono
        fun _ _ _ _ _ hv => ⟨hv.1, fun hn => hv.2
          (h.trees.plainTail _ hn nofun m List.mem_cons_self)⟩
  | returnStmt t m =>
      -- the one place where marks come from
      refine (h.ends_firstPart hs hj hask rfl (hplain m
        List.mem_cons_self)).map fun s₁ v _ _ hv => ⟨?_, fun hn => ?_⟩
      · exact Value.ifAny_some (Or.inr ⟨v, rfl, hv⟩)
      · exact Value.ifAny_some (h.marked s₁ t m v hn hv)
  | letStmt t name m =>
      refine hvalue ((h.ends_firstPart hs hj hask rfl (hplain m
        List.mem_cons_self)).bind fun v s₁ _ hgood hle hv => ?_)
      exact (ends_change (h.bind s₁ e name.text v hgood
        (h.frame_mono hle hj.1) hv)).map fun _ _ _ _ _ => Value.ifAny_none _
  | intLit t k => exact hsome (h.literal s t k hj.2)
  | boolLit t b => exact hsome ((h.values s).boolean b)
  | strLit t => exact hsome ((h.values s).string t.text)
  | array t ns =>
      exact hvalue ((h.ends_allParts hs hj hask rfl).map
        fun s₁ vs _ _ hvs => Value.ifAny_some ((h.values s₁).array vs hvs))
  | hash t ps =>
      have hentries : Node.hash t ps = .hash t (ps ++ []) := by
        rw [List.append_nil]
      exact hvalue ((h.ends_firstEntries hs hj hask hentries).map
        fun s₁ table _ _ ht => Value.ifAny_some ht)
  | function t ps b =>
      exact hvalue ((h.function s e t ps b hs hj.1 hj.2).map
        fun _ _ _ _ hc => Value.ifAny_some hc)
  | macroFn t ps b =>
      exact hvalue ((h.macroFn s e t ps b hs hj.1 hj.2).map
        fun _ _ _ _ hc => Value.ifAny_some hc)
  | prefixOp t r =>
      exact hvalue ((h.ends_firstPart hs hj hask rfl (hplain r
        List.mem_cons_self)).bind fun v s₁ _ hgood _ _ =>
          ends_settle hgood fun w hw => (h.values s₁).prefixOp hw)
  | infixOp t l r =>
      refine hvalue ((h.ends_firstPart hs hj hask rfl (hplain l
        List.mem_cons_self)).bind fun v s₁ hl hgood hle _ => ?_)
      exact (h.ends_secondPart hj hask rfl hl hgood hle (hplain r
        (List.mem_cons_of_mem l List.mem_cons_self))).bind
          fun w s₂ _ hgood' _ _ => ends_settle hgood' fun x hx => (h.values s₂).infixOp hx
  | conditional t c a b => exact h.ends_conditional hs hj hask rfl
  | ident t => exact hvalue (h.ends_named hs hj.1 t.text)
  | index t l i =>
      refine hvalue ((h.ends_firstPart hs hj hask rfl (hplain l
        List.mem_cons_self)).bind fun v s₁ hl hgood hle hv => ?_)
      exact (h.ends_secondPart hj hask rfl hl hgood hle (hplain i
        (List.mem_cons_of_mem l List.mem_cons_self))).bind
          fun w s₂ _ hgood' hle' _ => ends_settle hgood' fun x hx =>
            (h.values s₂).index (h.value_mono hle' hv) hx
  | call t callee args => exact hvalue (h.ends_call_node hs hj hask rfl)

omit hj hask in
/-- A step is answered within the regime if whatever it comes to ask for is. -/
theorem ends_step {j : Job} (hj : R.asked s j)
    (hcall : ∀ f args, j = .apply f args → R.call f args)
    (hask : R.Answered rec j s) :
    Ends R.toWorld (R.answer j) (j.step rec) s := by
  cases j with
  | eval n e => exact h.ends_evalWith hs hj hask
  | apply f args => exact h.ends_apply hs hj (hcall f args rfl) hask

/-! ### What a step asks for -/

omit hs hask in
/-- Before a part that a step asks for there are only parts in value
positions. -/
lemma plain_before {m : Node} {pre post : List Node}
    (hm : n.parts = pre ++ m :: post) : ∀ k ∈ pre, R.plain k := by
  intro k hk
  have hmem : k ∈ n.parts := by
    rw [hm]
    exact List.mem_append_left _ hk
  rcases Node.mem_valueParts_of_parts hmem with hvalued | ⟨t, rfl⟩
  · exact h.trees.valued n hj.2 k hvalued
  · have hlength := congrArg List.length hm
    have hpos := List.length_pos_of_mem hk
    simp only [Node.parts, List.length_append, List.length_cons,
      List.length_nil] at hlength
    omega

/-- A part is asked for within the regime. -/
lemma asked_part {m : Node} {pre post : List Node} {vs : List Value}
    {s' : Store} (hm : n.parts = pre ++ m :: post)
    (hpre : operands rec e pre s = some (.ok vs, s')) :
    R.good s' ∧ R.le s s' ∧ R.asked s' (.eval m e) := by
  have hrun := h.ends_parts hs hj hask hm (h.plain_before hj hm)
  have hmem : m ∈ n.parts := by
    rw [hm]
    exact List.mem_append_right _ List.mem_cons_self
  exact ⟨hrun.good hpre, hrun.le hpre,
    h.frame_mono (hrun.le hpre) hj.1, h.tree_part hj hmem⟩

omit hj hask in
/-- A step within the regime asks for nothing but what is within the
regime. -/
theorem asked_of_asks {j i : Job} {s' : Store} (hj : R.asked s j)
    (hask : R.Answered rec j s) (hi : Asks rec j s i s') :
    R.good s' ∧ R.le s s' ∧ R.asked s' i := by
  -- what is asked for comes behind runs of other parts, and those end within
  -- the regime
  cases hi with
  | part hm hpre => exact h.asked_part hs hj hask hm hpre
  | @key tok e ps qs k v t _ _ hps =>
      have hrun := h.ends_firstEntries hs hj hask rfl
      have hplain := h.plain_entries hj rfl (k, v)
        (List.mem_append_right _ List.mem_cons_self)
      exact ⟨hrun.good hps, hrun.le hps, h.frame_mono (hrun.le hps) hj.1,
        h.trees.tree_of_plain k hplain.1⟩
  | @value tok e ps qs k v t key hash _ s₁ _ hps hk hkey =>
      have hrun := h.ends_firstEntries hs hj hask rfl
      have hplain := h.plain_entries hj rfl (k, v)
        (List.mem_append_right _ List.mem_cons_self)
      have hgood := hrun.good hps
      have hle := hrun.le hps
      have hkeyRun : Ends R.toWorld R.value (operand rec e k) s₁ :=
        h.ends_operand hplain.1 (hask _ _ (.key hps) hgood hle
          ⟨h.frame_mono hle hj.1, h.trees.tree_of_plain k hplain.1⟩)
      have hle' := R.trans hle (hkeyRun.le hk)
      exact ⟨hkeyRun.good hk, hle', h.frame_mono hle' hj.1,
        h.trees.tree_of_plain v hplain.2⟩
  | @consequence t c a b e v? _ _ hc hv =>
      have hsplit : (Node.conditional t c a b).parts = [] ++ c :: [] := rfl
      have hrun := h.ends_part hj hask hsplit rfl hs (R.refl s)
      exact ⟨hrun.good hc, hrun.le hc, h.frame_mono (hrun.le hc) hj.1,
        h.trees.tail _ hj.2 a List.mem_cons_self⟩
  | @alternative t c a b e v? _ _ hc hv hb =>
      have hsplit : (Node.conditional t c a b).parts = [] ++ c :: [] := rfl
      have hrun := h.ends_part hj hask hsplit rfl hs (R.refl s)
      exact ⟨hrun.good hc, hrun.le hc, h.frame_mono (hrun.le hc) hj.1,
        h.trees.tail _ hj.2 b (List.mem_cons_of_mem a List.mem_cons_self)⟩
  | @statement n m e pre post last _ _ hm hpre hlast =>
      have hrun := h.ends_statements hs hj hask
        (A := fun s v => R.Carried s v) (fun _ _ _ _ hv => hv.1) hm
      have hmem : m ∈ n.statements := by
        rw [hm]
        exact List.mem_append_right _ List.mem_cons_self
      exact ⟨hrun.good hpre, hrun.le hpre, h.frame_mono (hrun.le hpre) hj.1,
        h.trees.tail n hj.2 m (Node.mem_tailParts_of_statements hmem)⟩
  | @unquote t u callee inner m arg e _ _ hcallee hcomes hinner =>
      have hm : R.tree m := h.trees.tree_of_plain m
        (h.trees.valued _ hj.2 m (by simp [Node.valueParts]))
      obtain ⟨htree, hgood, hle⟩ := Ends.of_comes h.trees.rebuilds hcomes hm hs
        (h.ruleKeeps_quote hj hask rfl hcallee)
      exact ⟨hgood, hle, h.frame_mono hle hj.1, h.trees.tree_of_plain arg
        (h.trees.valued _ htree arg (by simp [Node.valueParts]))⟩
  | @call t callee args e f vs _ s₁ _ hcallee hf hvs =>
      have hcalleeRun := h.ends_callee hs hj hask rfl hcallee
      have hgood := hcalleeRun.good hf
      have hle := hcalleeRun.le hf
      have hrun := h.ends_arguments hj hask rfl hcallee hf hgood hle
      exact ⟨hrun.good hvs, R.trans hle (hrun.le hvs),
        h.value_mono (hrun.le hvs) (hcalleeRun.answer hf), hrun.answer hvs⟩
  | @body c args e _ _ hargs hframe =>
      have hrun := h.enter s c args hs (Or.inl hj.1) hj.2
      exact ⟨hrun.good hframe, hrun.le hframe, hrun.answer hframe,
        h.body s c (Or.inl hj.1)⟩

omit hj hask in
/-- What is asked for in a value position is a plain tree, and so is whatever
is asked for that does not stand where the value may be that of the node. -/
theorem plain_of_asks {m : Node} {d : ℕ} {s' : Store}
    (hj : R.asked s (.eval n e)) (hask : R.Answered rec (.eval n e) s)
    (hi : Asks rec (.eval n e) s (.eval m d) s')
    (hm : m ∈ n.valueParts ∨ m ∉ n.tailParts) : R.plain m := by
  rcases hm with hvalued | htail
  · exact h.trees.valued n hj.2 m hvalued
  -- otherwise it is no branch and no statement; what remains is a part that is
  -- no statement's expression, an entry or the argument of an `unquote`
  cases hi with
  | part hsplit hpre =>
      have hmem : m ∈ n.parts := by
        rw [hsplit]
        exact List.mem_append_right _ List.mem_cons_self
      rcases Node.mem_valueParts_of_parts hmem with hvalued | ⟨t, rfl⟩
      · exact h.trees.valued n hj.2 m hvalued
      · exact absurd List.mem_cons_self htail
  | key => exact (h.plain_entries hj rfl _ (List.mem_append_right _
      List.mem_cons_self)).1
  | value => exact (h.plain_entries hj rfl _ (List.mem_append_right _
      List.mem_cons_self)).2
  | consequence => exact absurd List.mem_cons_self htail
  | alternative =>
      exact absurd (List.mem_cons_of_mem _ List.mem_cons_self) htail
  | statement hsplit =>
      refine absurd (Node.mem_tailParts_of_statements ?_) htail
      rw [hsplit]
      exact List.mem_append_right _ List.mem_cons_self
  | @unquote t u callee inner k _ _ _ _ hcallee hcomes hinner =>
      have hk : R.tree k := h.trees.tree_of_plain k
        (h.trees.valued _ hj.2 k (by simp [Node.valueParts]))
      obtain ⟨htree, -, -⟩ := Ends.of_comes h.trees.rebuilds hcomes hk hs
        (h.ruleKeeps_quote hj hask rfl hcallee)
      exact h.trees.valued _ htree m (by simp [Node.valueParts])

end Regime.Lawful

end MonkeyLang

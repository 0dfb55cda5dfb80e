/-
Evaluation that only adds to the store.

* `Store.Grown`: a store has all frames of another one, as they were there;
* `Store.Scope s e`: the frame `e` is there, and the functions that the language
  comes with have their names in it;
* `Store.Inside s frame bs t e`: it is such a frame, and a call made it since the
  store `s`, inside the frame `frame`, with the bindings `bs`;
* `Node.Reckons e s V`: in the store `s`, however it has grown, the node comes to
  a value with `V` in the frame `e`, and the store grows; `Value.Takes` says the
  same of calls;
* `Reckons.intLit`, `Reckons.name`, `Reckons.infixOp` and their like: one rule
  for each kind of node;
* `Takes.builtin`, `Takes.function`: and for calls.
-/
import MonkeyLang.Proofs.Eval.HashLiterals
import MonkeyLang.Proofs.Eval.Regime
import MonkeyLang.Store.Nesting

namespace MonkeyLang

open List (Forall₂)

/-! ### Stores that grow -/

namespace Store

/-- A name has the same in stores whose frames are the same up to the one where
it is looked up. -/
lemma lookup_of_same {s t : Store} (hs : s.Nested) (ht : t.Nested) {e : ℕ}
    (hsame : ∀ d, d ≤ e → t.frames[d]? = s.frames[d]?) (name : String) :
    t.lookup e name = s.lookup e name := by
  induction e using Nat.strongRecOn with
  | ind e ih =>
    cases hf : s.frames[e]? with
    | none =>
      have hg : t.frames[e]? = none := (hsame e le_rfl).trans hf
      simp [lookup, chain, chainUpTo, hf, hg]
    | some f =>
      rw [lookup_eq hs hf, lookup_eq ht ((hsame e le_rfl).trans hf)]
      cases ho : f.outer with
      | none => rfl
      | some o =>
        have hlt := hs e f o hf ho
        rw [Option.bind_some, Option.bind_some,
          ih o hlt fun d hd => hsame d (hd.trans hlt.le)]

/-- All frames of the first store are in the second one, as they were. -/
structure Grown (s t : Store) : Prop where
  size_le : s.frames.size ≤ t.frames.size
  kept : ∀ e, e < s.frames.size → t.frames[e]? = s.frames[e]?
  nested : s.Nested → t.Nested

namespace Grown

variable {s t u : Store}

lemma refl (s : Store) : s.Grown s := ⟨Nat.le_refl _, fun _ _ => rfl, id⟩

lemma trans (h : s.Grown t) (h' : t.Grown u) : s.Grown u where
  size_le := h.size_le.trans h'.size_le
  kept e he := (h'.kept e (he.trans_le h.size_le)).trans (h.kept e he)
  nested := h'.nested ∘ h.nested

/-- The number of closures and what is printed do not count. -/
lemma congr (h : s.Grown t) (hu : u.frames = t.frames) : s.Grown u := by
  refine ⟨?_, fun e he => ?_, fun hs => ?_⟩
  · rw [hu]
    exact h.size_le
  · rw [hu]
    exact h.kept e he
  · intro e f o hf
    rw [hu] at hf
    exact h.nested hs e f o hf

lemma addFrame (bs : Bindings String Value) {o : ℕ} (ho : o < s.frames.size) :
    s.Grown (s.addFrame bs (some o)).2 where
  size_le := by
    show _ ≤ (s.frames.push _).size
    rw [Array.size_push]
    exact Nat.le_succ _
  kept e he := by
    show (s.frames.push _)[e]? = _
    rw [Array.getElem?_push, if_neg (Nat.ne_of_lt he)]
  nested hs := hs.addFrame bs (by rintro _ ⟨⟩; exact ho)

/-- A name may be bound in a frame that was added. -/
lemma bind (h : s.Grown t) {e : ℕ} (he : s.frames.size ≤ e) (name : String)
    (v : Value) : s.Grown (t.bind e name v) where
  size_le := by
    show _ ≤ (t.frames.modify e _).size
    rw [Array.size_modify]
    exact h.size_le
  kept d hd := by
    show (t.frames.modify e _)[d]? = _
    rw [Array.getElem?_modify, if_neg (Nat.ne_of_gt (hd.trans_le he))]
    exact h.kept d hd
  nested hs := (h.nested hs).bind e name v

/-- In the frames that there were all names have what they had. -/
lemma lookup_eq (h : s.Grown t) (hs : s.Nested) {e : ℕ}
    (he : e < s.frames.size) (name : String) :
    t.lookup e name = s.lookup e name :=
  lookup_of_same hs (h.nested hs) (fun d hd => h.kept d (hd.trans_lt he)) name

end Grown

/-- What a name has in a new frame. -/
lemma lookup_addFrame_eq {s : Store} (hs : s.Nested) {o : ℕ}
    (ho : o < s.frames.size) (bs : Bindings String Value) (name : String) :
    (s.addFrame bs (some o)).2.lookup s.frames.size name =
      (Bindings.get? name bs).or (s.lookup o name) := by
  have hgrown := Grown.addFrame bs ho
  have hframe : (s.addFrame bs (some o)).2.frames[s.frames.size]? =
      some ⟨bs, some o⟩ := Array.getElem?_push_size
  rw [lookup_eq (hgrown.nested hs) hframe]
  simp only [Option.bind_some]
  rw [hgrown.lookup_eq hs ho]

/-- What a name has in a frame once a name is bound there. -/
lemma lookup_bind_eq {s : Store} (hs : s.Nested) {e : ℕ}
    (he : e < s.frames.size) (name : String) (v : Value) (other : String) :
    (s.bind e name v).lookup e other =
      if name = other then some v else s.lookup e other := by
  obtain ⟨f, hf⟩ : ∃ f, s.frames[e]? = some f :=
    ⟨_, Array.getElem?_eq_getElem he⟩
  have hbound : (s.bind e name v).frames[e]? =
      some { f with bindings := f.bindings.set name v } := by
    show (s.frames.modify e _)[e]? = _
    rw [Array.getElem?_modify, if_pos rfl, hf]
    rfl
  rw [lookup_eq (hs.bind e name v) hbound, lookup_eq hs hf, Bindings.get?_set]
  split_ifs with hname
  · rfl
  · cases ho : f.outer with
    | none => rfl
    | some o =>
      have hlt := hs e f o hf ho
      -- outer links lead to lower positions, so no frame further out has
      -- changed
      have houter : (s.bind e name v).lookup o other = s.lookup o other := by
        refine lookup_of_same hs (hs.bind e name v) (fun d hd => ?_) other
        show (s.frames.modify e _)[d]? = _
        rw [Array.getElem?_modify, if_neg (by omega)]
      rw [Option.bind_some, Option.bind_some, houter]

/-- The frame is there, and no name of a function that the language comes with is
bound in it or around it. -/
structure Scope (s : Store) (e : ℕ) : Prop where
  nested : s.Nested
  lt : e < s.frames.size
  unbound : ∀ name b, Builtin.ofName? name = some b → s.lookup e name = none

namespace Scope

variable {s t : Store} {e : ℕ}

/-- A name that a function of the language has is none of the names of a frame
with names of its own. -/
lemma get?_builtin {bs : Bindings String Value}
    (hown : ∀ name ∈ Bindings.keys bs, Builtin.ofName? name = none) {name : String}
    {b : Builtin} (hb : Builtin.ofName? name = some b) :
    Bindings.get? name bs = none := by
  rw [Option.eq_none_iff_forall_ne_some]
  intro v hv
  have hmem : name ∈ Bindings.keys bs :=
    (Bindings.isSome_get? name bs).mp (Option.isSome_of_eq_some hv)
  cases (hown name hmem).symm.trans hb

/-- A frame in no other one. -/
lemma root (hs : s.Nested) {bs : Bindings String Value}
    (hf : s.frames[e]? = some ⟨bs, none⟩)
    (hown : ∀ name ∈ Bindings.keys bs, Builtin.ofName? name = none) :
    s.Scope e where
  nested := hs
  lt := (Array.getElem?_eq_some_iff.mp hf).1
  unbound name b hb := by rw [lookup_root hf rfl, get?_builtin hown hb]

lemma mono (h : s.Scope e) (hst : s.Grown t) : t.Scope e where
  nested := hst.nested h.nested
  lt := h.lt.trans_le hst.size_le
  unbound name b hb := (hst.lookup_eq h.nested h.lt name).trans (h.unbound name b hb)

/-- A frame where a name of its own is bound. -/
lemma bind (h : s.Scope e) {name : String} (hname : Builtin.ofName? name = none)
    (v : Value) : (s.bind e name v).Scope e where
  nested := h.nested.bind e name v
  lt := by
    show e < (s.frames.modify e _).size
    rw [Array.size_modify]
    exact h.lt
  unbound other b hb := by
    have hne : name ≠ other := by
      rintro rfl
      cases hname.symm.trans hb
    rw [lookup_bind_eq h.nested h.lt, if_neg hne, h.unbound other b hb]

end Scope

/-- The frame `e` was made since the store `s`, with some bindings, in a frame
there. -/
structure Inside (s : Store) (frame : ℕ) (bs : Bindings String Value) (t : Store)
    (e : ℕ) : Prop extends t.Scope e where
  grown : s.Grown t
  size_le : s.frames.size ≤ e
  lookup_eq : ∀ name,
    t.lookup e name = (Bindings.get? name bs).or (s.lookup frame name)

namespace Inside

variable {s t u : Store} {frame e : ℕ} {bs : Bindings String Value}

/-- Such is the frame of a call whose parameters have names of their own. -/
lemma enter (hs : s.Scope frame) (ht : s.Grown t)
    (hown : ∀ name ∈ Bindings.keys bs, Builtin.ofName? name = none) :
    s.Inside frame bs (t.addFrame bs (some frame)).2 t.frames.size := by
  have hframe := hs.mono ht
  have hgrown := Grown.addFrame bs hframe.lt
  have hlookup : ∀ name, (t.addFrame bs (some frame)).2.lookup t.frames.size name =
      (Bindings.get? name bs).or (s.lookup frame name) := by
    intro name
    rw [lookup_addFrame_eq hframe.nested hframe.lt,
      ht.lookup_eq hs.nested hs.lt]
  refine ⟨⟨hgrown.nested hframe.nested, ?_, fun name b hb => ?_⟩,
    ht.trans hgrown, ht.size_le, hlookup⟩
  · show _ < (t.frames.push _).size
    rw [Array.size_push]
    exact Nat.lt_succ_self _
  · rw [hlookup, hs.unbound name b hb, Scope.get?_builtin hown hb, Option.or_none]

lemma mono (h : s.Inside frame bs t e) (hu : t.Grown u) :
    s.Inside frame bs u e where
  toScope := h.toScope.mono hu
  grown := h.grown.trans hu
  size_le := h.size_le
  lookup_eq name := (hu.lookup_eq h.nested h.lt name).trans (h.lookup_eq name)

/-- A name may be bound in it. -/
lemma bind (h : s.Inside frame bs t e) {name : String}
    (hname : Builtin.ofName? name = none) (v : Value) :
    s.Inside frame (Bindings.set name v bs) (t.bind e name v) e where
  toScope := h.toScope.bind hname v
  grown := h.grown.bind h.size_le name v
  size_le := h.size_le
  lookup_eq other := by
    rw [lookup_bind_eq h.nested h.lt, Bindings.get?_set, h.lookup_eq]
    split_ifs
    · rfl
    · rfl

end Inside

end Store

/-! ### Evaluation within some bound -/

/-- A value that is neither an error nor on its way out of a function. -/
def Value.Proper (v : Value) : Prop := v.kind ≠ .error ∧ v.kind ≠ .returned

namespace Value.Proper

lemma null : Value.null.Proper := ⟨nofun, nofun⟩

lemma integer (n : ℤ) : (Value.integer n).Proper := ⟨nofun, nofun⟩

lemma boolean (b : Bool) : (Value.boolean b).Proper := ⟨nofun, nofun⟩

lemma array (vs : List Value) : (Value.array vs).Proper := ⟨nofun, nofun⟩

lemma function (c : Closure) : (Value.function c).Proper := ⟨nofun, nofun⟩

lemma builtin (b : Builtin) : (Value.builtin b).Proper := ⟨nofun, nofun⟩

end Value.Proper

lemma Run.settle_proper {v : Value} (hv : v.Proper) :
    Run.settle (.ok v) = pure (some v) := by
  cases v with
  | error f => exact absurd rfl hv.1
  | _ => rfl

namespace Node.EvaluatesTo

variable {n m : Node} {ns : List Node} {e : ℕ} {s s₁ s₂ : Store} {v w : Value}
  {t : Token}

/-- What one step of evaluation gives. -/
lemma of_step (depth : ℕ) (v? : Option Value)
    (h : evalWith (eval depth) n e s = some (.ok v?, s₁)) :
    n.EvaluatesTo e s (v?.getD .null) s₁ :=
  ⟨depth + 1, bind_ok h⟩

/-- The answer that the value is taken from, within every higher bound. -/
lemma answer (h : n.EvaluatesTo e s v s₁) : ∃ height v?, v?.getD .null = v ∧
    ∀ depth, height ≤ depth → eval depth n e s = some (.ok v?, s₁) := by
  obtain ⟨height, hrun⟩ := h
  obtain ⟨v?, s', hanswer, hvalue⟩ := bind_ok_inv hrun
  cases hvalue
  exact ⟨height, v?, rfl, fun depth hdepth => eval_mono hdepth n e s _ hanswer⟩

lemma exprStmt (h : n.EvaluatesTo e s v s₁) :
    (Node.exprStmt t n).EvaluatesTo e s v s₁ := by
  obtain ⟨depth, hrun⟩ := h
  exact ⟨depth + 1, hrun⟩

/-- A `let` binds the value in its frame. -/
lemma letStmt {name : Token} (h : n.EvaluatesTo e s v s₁) :
    (Node.letStmt t name n).EvaluatesTo e s .null (s₁.bind e name.text v) := by
  obtain ⟨depth, hrun⟩ := h
  exact of_step depth none (bind_ok hrun)

/-- A block of one statement. -/
lemma block_single (h : n.EvaluatesTo e s v s₁) (hv : v.Proper) :
    (Node.block t [n]).EvaluatesTo e s v s₁ := by
  obtain ⟨depth, v?, rfl, hanswer⟩ := h.answer
  refine of_step depth v? ?_
  show sequence (eval depth) e none [n] s = _
  rw [sequence, bind_ok (hanswer depth le_rfl)]
  rcases v? with _ | v
  · rfl
  · cases v with
    | returned v => exact absurd rfl hv.2
    | _ => rfl

/-- A block goes on behind a statement that does not return. -/
lemma block_cons (h : n.EvaluatesTo e s v s₁) (hv : v.Proper)
    (hrest : (Node.block t (m :: ns)).EvaluatesTo e s₁ w s₂) :
    (Node.block t (n :: m :: ns)).EvaluatesTo e s w s₂ := by
  obtain ⟨height, v?, rfl, hanswer⟩ := h.answer
  obtain ⟨height', w?, rfl, hothers⟩ := hrest.answer
  refine of_step (max height height') w? ?_
  have hlast : sequence (eval (max height height')) e v? (m :: ns) s₁ =
      some (.ok w?, s₂) := hothers (max height height' + 1) (by omega)
  show sequence (eval (max height height')) e none (n :: m :: ns) s = _
  rw [sequence, bind_ok (hanswer _ (le_max_left _ _))]
  rcases v? with _ | v
  · exact hlast
  · cases v with
    | returned v => exact absurd rfl hv.2
    | _ => exact hlast

/-- A program of one statement with a value. -/
lemma program_single (h : n.EvaluatesTo e s v s₁) (hv : v.Proper)
    (hnull : v ≠ .null) :
    ∃ height, eval height (.program [n]) e s = some (.ok (some v), s₁) := by
  obtain ⟨height, v?, hv?, hanswer⟩ :=
    (h.block_single (t := .made .lbrace "\x7b") hv).answer
  obtain rfl : v? = some v := by
    cases v? with
    | none => exact absurd hv?.symm hnull
    | some w => exact congrArg some hv?
  refine ⟨height + 1, ?_⟩
  have hstatements : sequence (eval height) e none [n] s = some (.ok (some v), s₁) :=
    hanswer (height + 1) (Nat.le_succ height)
  show (sequence (eval height) e none [n] >>= Run.deliver) s = _
  rw [bind_ok hstatements, Run.deliver]
  cases v with
  | error f => exact absurd rfl hv.1
  | returned v => exact absurd rfl hv.2
  | _ => rfl

end Node.EvaluatesTo

/-- Within some bound a call of a value with arguments gives a value, from one
store to another one. -/
def Value.AppliesTo (f : Value) (args : List Value) (s : Store) (v : Value)
    (s' : Store) : Prop :=
  ∃ depth v?, v?.getD .null = v ∧ apply depth f args s = some (.ok v?, s')

/-- It gives that value within every higher bound. -/
lemma Value.AppliesTo.height {f v : Value} {args : List Value} {s s' : Store}
    (h : f.AppliesTo args s v s') : ∃ height v?, v?.getD .null = v ∧
      ∀ depth, height ≤ depth → apply depth f args s = some (.ok v?, s') := by
  obtain ⟨height, v?, hv, hrun⟩ := h
  exact ⟨height, v?, hv, fun depth hdepth =>
    applyWith_refines (eval_mono hdepth) f args s _ hrun⟩

/-! ### Evaluation in a store that grows -/

/-- In a store, however it has grown, a node comes to a proper value with a
property in the frame `e`, and the store only grows. -/
def Node.Reckons (n : Node) (e : ℕ) (s : Store) (V : Value → Prop) : Prop :=
  ∀ s₁, s.Grown s₁ → ∃ v s₂,
    n.EvaluatesTo e s₁ v s₂ ∧ s₁.Grown s₂ ∧ v.Proper ∧ V v

/-- In a store, however it has grown, a call gives a proper value with a
property, and the store only grows. -/
def Value.Takes (f : Value) (args : List Value) (s : Store) (V : Value → Prop) :
    Prop :=
  ∀ s₁, s.Grown s₁ → ∃ v s₂,
    f.AppliesTo args s₁ v s₂ ∧ s₁.Grown s₂ ∧ v.Proper ∧ V v

namespace Node.Reckons

variable {n l r c a b callee : Node} {ns args : List Node} {e : ℕ} {s s₁ : Store}
  {v w f : Value} {t : Token} {V W : Value → Prop} {Vs : List (Value → Prop)}

lemma imp (h : n.Reckons e s V) (hV : ∀ v, V v → W v) : n.Reckons e s W := by
  intro s₁ hs
  obtain ⟨v, s₂, heval, hgrown, hproper, hv⟩ := h s₁ hs
  exact ⟨v, s₂, heval, hgrown, hproper, hV v hv⟩

/-! ### Literals and names -/

lemma intLit (n : ℤ) : (Node.intLit t n).Reckons e s (· = .integer n) :=
  fun s₁ _ => ⟨.integer n, s₁, .of_step 0 (some (.integer n)) rfl, .refl s₁,
    .integer n, rfl⟩

/-- A function literal makes a closure in its frame. -/
lemma function (ps : List Node) :
    (Node.function t ps b).Reckons e s fun v => ∃ id, v = .function ⟨id, ps, b, e⟩ :=
  fun s₁ _ => ⟨_, _, .of_step 0 (some _) rfl, (Store.Grown.refl s₁).congr rfl,
    .function _, s₁.closures, rfl⟩

/-- A name that is bound. -/
lemma name (hs : s.Scope e) (hname : s.lookup e t.text = some v)
    (hv : v.Proper) : (Node.ident t).Reckons e s (· = v) := by
  intro s₁ hgrown
  have hlookup : s₁.lookup e t.text = some v :=
    (hgrown.lookup_eq hs.nested hs.lt _).trans hname
  refine ⟨v, s₁, .of_step 0 (some v) ?_, .refl s₁, hv, rfl⟩
  show named e t.text s₁ = _
  rw [named_some hlookup, Run.settle_proper hv]
  rfl

/-- A name of a function that the language comes with. -/
lemma builtin {b : Builtin} (hs : s.Scope e) (hb : Builtin.ofName? t.text = some b) :
    (Node.ident t).Reckons e s (· = .builtin b) := by
  intro s₁ hgrown
  refine ⟨.builtin b, s₁, .of_step 0 (some (.builtin b)) ?_,
    .refl s₁, .builtin b, rfl⟩
  show named e t.text s₁ = _
  rw [named_none ((hs.mono hgrown).unbound _ _ hb), hb]
  rfl

/-- A name that is bound in the frame of a call. -/
lemma own {frame : ℕ} {bs : Bindings String Value}
    (h : s.Inside frame bs s₁ e) (hname : Bindings.get? t.text bs = some v)
    (hv : v.Proper) : (Node.ident t).Reckons e s₁ (· = v) :=
  name h.toScope (by rw [h.lookup_eq, hname, Option.some_or]) hv

/-- A name that is bound around it. -/
lemma around {frame : ℕ} {bs : Bindings String Value}
    (h : s.Inside frame bs s₁ e) (hnone : Bindings.get? t.text bs = none)
    (hname : s.lookup frame t.text = some v) (hv : v.Proper) :
    (Node.ident t).Reckons e s₁ (· = v) :=
  name h.toScope (by rw [h.lookup_eq, hnone, Option.none_or, hname]) hv

/-! ### Operators, conditionals and blocks -/

lemma infixOp (hl : l.Reckons e s (· = v)) (hr : r.Reckons e s (· = w))
    {x : Value} (hop : Value.infixOp t.text v w = .ok x) (hx : x.Proper) :
    (Node.infixOp t l r).Reckons e s (· = x) := by
  intro s₁ hs
  obtain ⟨v, s₂, hleft, hs₂, -, rfl⟩ := hl s₁ hs
  obtain ⟨w, s₃, hright, hs₃, -, rfl⟩ := hr s₂ (hs.trans hs₂)
  obtain ⟨height, hleft⟩ := hleft.height
  obtain ⟨height', hright⟩ := hright.height
  refine ⟨x, s₃, .of_step (max height height') (some x) ?_,
    hs₂.trans hs₃, hx, rfl⟩
  show (operand _ e l >>= fun v => operand _ e r >>= fun w =>
    Run.settle (Value.infixOp t.text v w)) s₁ = _
  rw [bind_ok (hleft _ (le_max_left _ _)), bind_ok (hright _ (le_max_right _ _)),
    hop, Run.settle_proper hx]
  rfl

lemma conditional {p : Bool} (hc : c.Reckons e s (· = .boolean p))
    (hb : b.isMissing = false) (htrue : p = true → a.Reckons e s V)
    (hfalse : p = false → b.Reckons e s V) :
    (Node.conditional t c a b).Reckons e s V := by
  intro s₁ hs
  obtain ⟨_, s₂, hcondition, hs₂, -, rfl⟩ := hc s₁ hs
  obtain ⟨height, v?, hv?, hcondition⟩ := hcondition.answer
  obtain rfl : v? = some (.boolean p) := by
    cases v? with
    | none => cases hv?
    | some v => exact congrArg some hv?
  -- the branch that is taken, whichever it is
  obtain ⟨branch, hbranch, hstep⟩ : ∃ branch, branch.Reckons e s V ∧
      ∀ depth, height ≤ depth → evalWith (eval depth) (.conditional t c a b) e s₁ =
        eval depth branch e s₂ := by
    have hrun : ∀ depth, height ≤ depth →
        evalWith (eval depth) (.conditional t c a b) e s₁ =
          (if Value.holds (some (.boolean p)) then eval depth a e
            else if b.isMissing then pure (some .null)
            else eval depth b e : Run (Option Value)) s₂ :=
      fun depth hdepth => bind_ok (hcondition depth hdepth)
    cases p with
    | true => exact ⟨a, htrue rfl, fun depth hdepth => hrun depth hdepth⟩
    | false =>
      refine ⟨b, hfalse rfl, fun depth hdepth => ?_⟩
      rw [hrun depth hdepth, hb]
      rfl
  obtain ⟨w, s₃, heval, hs₃, hw, hV⟩ := hbranch s₂ (hs.trans hs₂)
  obtain ⟨height', w?, rfl, hanswer⟩ := heval.answer
  refine ⟨_, s₃, .of_step (max height height') w? ?_, hs₂.trans hs₃, hw, hV⟩
  rw [hstep _ (le_max_left _ _), hanswer _ (le_max_right _ _)]

/-- A block of one expression. -/
lemma block {u : Token} (h : n.Reckons e s V) :
    (Node.block t [.exprStmt u n]).Reckons e s V := by
  intro s₁ hs
  obtain ⟨v, s₂, heval, hgrown, hproper, hv⟩ := h s₁ hs
  exact ⟨v, s₂, heval.exprStmt.block_single hproper, hgrown, hproper, hv⟩

/-! ### Lists and calls -/

/-- Several nodes come to values, one after the other. -/
lemma operands (h : Forall₂ (fun n V => n.Reckons e s V) ns Vs)
    (hs : s.Grown s₁) : ∃ vs s₂, Forall₂ (fun V v => v.Proper ∧ V v) Vs vs ∧
      s₁.Grown s₂ ∧ ∃ height, ∀ depth, height ≤ depth →
        MonkeyLang.operands (eval depth) e ns s₁ = some (.ok vs, s₂) := by
  induction h generalizing s₁ with
  | nil => exact ⟨[], s₁, .nil, .refl s₁, 0, fun _ _ => rfl⟩
  | cons hn _ ih =>
    obtain ⟨v, s₂, heval, hs₂, hproper, hv⟩ := hn s₁ hs
    obtain ⟨vs, s₃, hvs, hs₃, height', hrest⟩ := ih (hs.trans hs₂)
    obtain ⟨height, heval⟩ := heval.height
    refine ⟨v :: vs, s₃, .cons ⟨hproper, hv⟩ hvs, hs₂.trans hs₃,
      max height height', fun depth hdepth => ?_⟩
    rw [MonkeyLang.operands, bind_ok (heval depth (by omega)),
      bind_ok (hrest depth (by omega))]
    rfl

lemma array (h : Forall₂ (fun n V => n.Reckons e s V) ns Vs) :
    (Node.array t ns).Reckons e s fun v =>
      ∃ vs, v = .array vs ∧ Forall₂ (fun V v => v.Proper ∧ V v) Vs vs := by
  intro s₁ hs
  obtain ⟨vs, s₂, hvs, hs₂, height, hrun⟩ := operands h hs
  exact ⟨.array vs, s₂, .of_step height (some (.array vs))
    (bind_ok (hrun height le_rfl)), hs₂, .array vs, vs, rfl, hvs⟩

/-- A call of a value, by what it does with such arguments. -/
lemma call (hplain : SpecialForm.ofCallee? callee = none)
    (hcallee : callee.Reckons e s (· = f))
    (hargs : Forall₂ (fun n V => n.Reckons e s V) args Vs)
    (happly : ∀ vs, Forall₂ (fun V v => v.Proper ∧ V v) Vs vs → f.Takes vs s V) :
    (Node.call t callee args).Reckons e s V := by
  intro s₁ hs
  obtain ⟨f, s₂, hf, hs₂, -, rfl⟩ := hcallee s₁ hs
  obtain ⟨vs, s₃, hvs, hs₃, height', hargs⟩ := operands hargs (hs.trans hs₂)
  obtain ⟨v, s₄, hv, hs₄, hproper, hV⟩ :=
    happly vs hvs s₃ (hs.trans (hs₂.trans hs₃))
  obtain ⟨height, hf⟩ := hf.height
  obtain ⟨height'', v?, rfl, hanswer⟩ := hv.height
  refine ⟨_, s₄, .of_step (max height (max height' height'')) v? ?_,
    hs₂.trans (hs₃.trans hs₄), hproper, hV⟩
  show callWith _ e callee args s₁ = _
  rw [callWith_plain _ e hplain, bind_ok (hf _ (by omega)),
    bind_ok (hargs _ (by omega))]
  exact hanswer _ (by omega)

end Node.Reckons

namespace Value.Takes

variable {f v : Value} {args : List Value} {s s₁ : Store} {V : Value → Prop}

lemma mono (h : f.Takes args s V) (hs : s.Grown s₁) : f.Takes args s₁ V :=
  fun s₂ hs₂ => h s₂ (hs.trans hs₂)

/-- A function that the language comes with and that prints nothing. -/
lemma builtin {b : Builtin} (hresult : b.result args = .ok v) (hv : v.Proper)
    (hsilent : b.prints args = []) : (Value.builtin b).Takes args s (· = v) := by
  intro s₁ _
  refine ⟨v, s₁, ⟨0, some v, rfl, ?_⟩, .refl s₁, hv, rfl⟩
  have hprint : Run.change (fun s => (b.prints args).foldl
      (fun s text => s.print text) s) s₁ = some (.ok (), s₁) := by
    rw [hsilent]
    rfl
  show (Run.change _ >>= fun _ => Run.settle (b.result args)) s₁ = _
  rw [bind_ok hprint, hresult, Run.settle_proper hv]
  rfl

/-- A function gives what its body comes to in a new frame. -/
lemma function {c : Closure} (hlength : args.length = c.params.length)
    (hbody : ∀ s₁, s.Grown s₁ → ∃ v s₂, c.body.EvaluatesTo s₁.frames.size
      (s₁.addFrame (parameterBindings c.names args) (some c.frame)).2 v s₂ ∧
        s₁.Grown s₂ ∧ v.Proper ∧ V v) :
    (Value.function c).Takes args s V := by
  intro s₁ hs
  obtain ⟨v, s₂, heval, hs₂, hproper, hv⟩ := hbody s₁ hs
  obtain ⟨depth, v?, rfl, hanswer⟩ := heval.answer
  refine ⟨_, s₂, ⟨depth, v?, rfl, ?_⟩, hs₂, hproper, hv⟩
  have hframe : callFrame c args s₁ = some (.ok s₁.frames.size,
      (s₁.addFrame (parameterBindings c.names args) (some c.frame)).2) := rfl
  rw [apply, applyWith, if_pos hlength, bind_ok hframe,
    bind_ok (hanswer depth le_rfl)]
  rcases v? with _ | v
  · rfl
  · rw [Run.deliver]
    cases v with
    | error f => exact absurd rfl hproper.1
    | returned v => exact absurd rfl hproper.2
    | _ => rfl

/-- A function whose body only adds to the store. -/
lemma function_of_reckons {c : Closure} {bs : Bindings String Value}
    (hs : s.Scope c.frame) (hlength : args.length = c.params.length)
    (hbindings : parameterBindings c.names args = bs)
    (hown : ∀ name ∈ Bindings.keys bs, Builtin.ofName? name = none)
    (hbody : ∀ t e, s.Inside c.frame bs t e → c.body.Reckons e t V) :
    (Value.function c).Takes args s V := by
  refine function hlength fun s₁ hs₁ => ?_
  rw [hbindings]
  obtain ⟨v, s₂, heval, hs₂, hproper, hv⟩ :=
    hbody _ _ (.enter hs hs₁ hown) _ (.refl _)
  exact ⟨v, s₂, heval, (Store.Grown.addFrame bs (hs.mono hs₁).lt).trans hs₂,
    hproper, hv⟩

end Value.Takes

end MonkeyLang

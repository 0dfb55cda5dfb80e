/-
Parts of evaluation, side by side.

* `Value.Coupling C M Q E V`: relations `V` of values, one in each world, that
  later worlds keep, with closures and quotes related by `C`, `M` and `Q`; faults
  are related by `E`;
* `Run.Coupled S E V w r r'`: from the world `w` on, two runs lead to related
  stores, with related values or faults;
* `Coupling.settle`, `Coupling.deliver`, `Coupling.named`: results and names;
* `Coupling.operands`, `Coupling.sequence`, `Coupling.entries`: several parts,
  evaluated side by side;
* `Coupling.prefixOp`, `Coupling.infixOp`, `Coupling.index`,
  `Coupling.conditional`, `Coupling.unquoteWith`: what is made of their values.
-/
import MonkeyLang.Proofs.Eval.Parallel
import MonkeyLang.Proofs.Eval.Steps
import MonkeyLang.Proofs.Value.Congruence

namespace MonkeyLang

open List (Forall₂)

variable {W : Type} [Preorder W]

/-- Relations of values, one in each world, that later worlds keep.  They relate
values of the same shape, and their closures and quotes so that these are equal
to others alike; each fault is related to itself. -/
structure Value.Coupling (C M : W → Closure → Closure → Prop)
    (Q : Node → Node → Prop) (E : Fault → Fault → Prop)
    (V : W → Value → Value → Prop) : Prop where
  congruence : ∀ w, Congruence (C w) (M w) Q (V w)
  faithful : ∀ w, Faithful (C w) (M w) Q
  mono : ∀ {w w'}, w ≤ w' → ∀ {a b}, V w a b → V w' a b
  ofInt : ∀ n, Q (.ofInt n) (.ofInt n)
  ofBool : ∀ b, Q (.ofBool b) (.ofBool b)
  fault : ∀ f, E f f

/-- From the world `w` on, two runs lead from related stores to related stores,
with related values or faults, or neither has an answer. -/
def Run.Coupled (S : W → Store → Store → Prop) (E : Fault → Fault → Prop)
    (V : W → Value → Value → Prop) (w : W) (r r' : Run (Option Value)) : Prop :=
  ∀ w', w ≤ w' → Parallel S E (fun w => Option.Rel (V w)) w' r r'

variable {C M : W → Closure → Closure → Prop} {Q : Node → Node → Prop}
  {S : W → Store → Store → Prop} {E : Fault → Fault → Prop}
  {V : W → Value → Value → Prop} {w w' : W}

lemma Run.Coupled.here {r r' : Run (Option Value)} (h : Coupled S E V w r r') :
    Parallel S E (fun w => Option.Rel (V w)) w r r' := h w (le_refl w)

lemma Run.Coupled.mono (hw : w ≤ w') {r r' : Run (Option Value)}
    (h : Coupled S E V w r r') : Coupled S E V w' r r' :=
  fun w'' hw' => h w'' (hw.trans hw')

namespace Value.Coupling

variable (hV : Coupling C M Q E V) {e e' : ℕ}
  {rec rec' : Node → ℕ → Run (Option Value)} {n n' : Node} {ns ns' : List Node}

include hV

lemma null : V w .null .null := (hV.congruence w).of_shaped .null

/-! ### Results -/

lemma settle {r r' : Except Fault Value} (h : Outcome Eq (V w) r r') :
    Parallel S E (fun w => Option.Rel (V w)) w (Run.settle r)
      (Run.settle r') := by
  cases h with
  | error hfg =>
      cases hfg
      exact .throw (hV.fault _)
  | ok hab =>
      cases (hV.congruence w).shaped hab with
      | error f => exact .throw (hV.fault f)
      | _ => exact .pure (.some hab)

/-- A value without closures and quotes, on both sides. -/
lemma settle_same {r : Except Fault Value} (h : ∀ v, r = .ok v → V w v v) :
    Parallel S E (fun w => Option.Rel (V w)) w (Run.settle r)
      (Run.settle r) := by
  cases r with
  | error f => exact .throw (hV.fault f)
  | ok v => exact hV.settle (.ok (h v rfl))

lemma deliver {v? v'? : Option Value} (h : Option.Rel (V w) v? v'?) :
    Parallel S E (fun w => Option.Rel (V w)) w (Run.deliver v?)
      (Run.deliver v'?) := by
  have hunwrap := (hV.congruence w).unwrap h
  rw [Run.deliver, Run.deliver]
  generalize Value.unwrap v? = x, Value.unwrap v'? = y at hunwrap
  cases hunwrap with
  | none => exact .pure .none
  | some h => exact hV.settle (.ok h)

/-- Names with related values, or none. -/
lemma named {name name' : String}
    (hname : Builtin.ofName? name = Builtin.ofName? name')
    (hfault : E (.identifierNotFound name) (.identifierNotFound name'))
    (h : ∀ s t, S w s t →
      Option.Rel (V w) (s.lookup e name) (t.lookup e' name')) :
    Parallel S E (fun w => Option.Rel (V w)) w (MonkeyLang.named e name)
      (MonkeyLang.named e' name') := by
  refine Parallel.get fun s t hs => ?_
  have hlookup := h s t hs
  rw [hname]
  generalize s.lookup e name = x, t.lookup e' name' = y at hlookup
  cases hlookup with
  | some hv => exact hV.settle (.ok hv) s t hs
  | none =>
      cases Builtin.ofName? name' with
      | some b =>
          have hb := (hV.congruence w).of_shaped (.builtin b)
          exact Parallel.pure (.some hb) s t hs
      | none => exact Parallel.throw hfault s t hs

/-! ### Several parts -/

lemma operand (h : Run.Coupled S E V w (rec n e) (rec' n' e')) :
    Parallel S E V w (MonkeyLang.operand rec e n)
      (MonkeyLang.operand rec' e' n') :=
  h.here.map fun _ _ _ hv => rel_getD hv hV.null

lemma operands
    (h : Forall₂ (fun n n' => Run.Coupled S E V w (rec n e) (rec' n' e'))
      ns ns') :
    Parallel S E (fun w => Forall₂ (V w)) w (MonkeyLang.operands rec e ns)
      (MonkeyLang.operands rec' e' ns') := by
  suffices hlater : ∀ w', w ≤ w' → Parallel S E (fun w => Forall₂ (V w)) w'
      (MonkeyLang.operands rec e ns) (MonkeyLang.operands rec' e' ns') from
    hlater w (le_refl w)
  induction h with
  | nil => exact fun w' _ => .pure .nil
  | cons hn _ ih =>
      intro w' hw
      refine (hV.operand (hn.mono hw)).bind fun w₁ hw₁ v v' hv => ?_
      refine (ih w₁ (hw.trans hw₁)).bind fun w₂ hw₂ vs vs' hvs => .pure ?_
      exact .cons (hV.mono hw₂ hv) hvs

/-- The value of the last of some statements. -/
lemma sequence
    (h : Forall₂ (fun n n' => Run.Coupled S E V w (rec n e) (rec' n' e'))
      ns ns') {last last' : Option Value} (hlast : Option.Rel (V w) last last') :
    Parallel S E (fun w => Option.Rel (V w)) w
      (MonkeyLang.sequence rec e last ns)
      (MonkeyLang.sequence rec' e' last' ns') := by
  suffices hlater : ∀ w', w ≤ w' → ∀ last last', Option.Rel (V w') last last' →
      Parallel S E (fun w => Option.Rel (V w)) w'
        (MonkeyLang.sequence rec e last ns)
        (MonkeyLang.sequence rec' e' last' ns') from
    hlater w (le_refl w) last last' hlast
  clear hlast
  induction h with
  | nil => exact fun w' _ _ _ hlast => .pure hlast
  | cons hn _ ih =>
      intro w' hw last last' hlast
      refine (hn w' hw).bind fun w₁ hw₁ v? v'? hv => ?_
      have hnext := ih w₁ (hw.trans hw₁) v? v'? hv
      cases hv with
      | none => exact hnext
      | some hvw =>
          cases (hV.congruence w₁).shaped hvw with
          | returned => exact .pure (.some hvw)
          | _ => exact hnext

lemma entries {ps ps' : List (Node × Node)}
    (h : Forall₂ (fun p p' =>
      Run.Coupled S E V w (rec p.1 e) (rec' p'.1 e') ∧
        Run.Coupled S E V w (rec p.2 e) (rec' p'.2 e')) ps ps') {t t' : Table}
    (ht : Forall₂ (Table.Entries (V w)) t t') :
    Parallel S E (fun w => Forall₂ (Table.Entries (V w))) w
      (MonkeyLang.entries rec e t ps) (MonkeyLang.entries rec' e' t' ps') := by
  -- the tables that are filled are related by what was met on the way, so the
  -- induction is over all later relations
  suffices hlater : ∀ w', w ≤ w' → ∀ t t', Forall₂ (Table.Entries (V w')) t t' →
      Parallel S E (fun w => Forall₂ (Table.Entries (V w))) w'
        (MonkeyLang.entries rec e t ps) (MonkeyLang.entries rec' e' t' ps') from
    hlater w (le_refl w) t t' ht
  clear ht
  induction h with
  | nil => exact fun w' _ _ _ ht => .pure ht
  | cons hp _ ih =>
      intro w' hw t t' ht
      refine (hV.operand (hp.1.mono hw)).bind fun w₁ hw₁ k k' hk => ?_
      rw [(hV.congruence w₁).hashKey_eq hk]
      cases k'.hashKey with
      | error f => exact .throw (hV.fault f)
      | ok key =>
          have hw' := hw.trans hw₁
          refine (hV.operand (hp.2.mono hw')).bind fun w₂ hw₂ v v' hv => ?_
          refine ih w₂ (hw'.trans hw₂) _ _ (Table.forall₂_entries.mpr ?_)
          refine (Table.forall₂_entries.mp ?_).set key ⟨hV.mono hw₂ hk, hv⟩
          exact ht.imp fun _ _ h => h.mono fun _ _ h =>
            hV.mono (hw₁.trans hw₂) h

/-! ### What is made of their values -/

lemma prefixOp (op : String) (h : Run.Coupled S E V w (rec n e) (rec' n' e')) :
    Parallel S E (fun w => Option.Rel (V w)) w
      (MonkeyLang.operand rec e n >>= fun v => Run.settle (Value.prefixOp op v))
      (MonkeyLang.operand rec' e' n' >>= fun v =>
        Run.settle (Value.prefixOp op v)) := by
  refine (hV.operand h).bind fun w₁ _ v v' hv => ?_
  rw [(hV.congruence w₁).prefixOp_eq hv]
  exact hV.settle_same fun _ => (hV.congruence w₁).formed_refl.prefixOp

variable {l l' k k' : Node}

lemma infixOp (op : String) (hl : Run.Coupled S E V w (rec l e) (rec' l' e'))
    (hk : Run.Coupled S E V w (rec k e) (rec' k' e')) :
    Parallel S E (fun w => Option.Rel (V w)) w
      (MonkeyLang.operand rec e l >>= fun v => MonkeyLang.operand rec e k >>=
        fun u => Run.settle (Value.infixOp op v u))
      (MonkeyLang.operand rec' e' l' >>= fun v =>
        MonkeyLang.operand rec' e' k' >>= fun u =>
          Run.settle (Value.infixOp op v u)) := by
  refine (hV.operand hl).bind fun w₁ hw₁ v v' hv => ?_
  refine (hV.operand (hk.mono hw₁)).bind fun w₂ hw₂ u u' hu => ?_
  rw [(hV.congruence w₂).infixOp_eq (hV.faithful w₂) (hV.mono hw₂ hv) hu]
  exact hV.settle_same fun _ => (hV.congruence w₂).formed_refl.infixOp

lemma index (hl : Run.Coupled S E V w (rec l e) (rec' l' e'))
    (hk : Run.Coupled S E V w (rec k e) (rec' k' e')) :
    Parallel S E (fun w => Option.Rel (V w)) w
      (MonkeyLang.operand rec e l >>= fun v => MonkeyLang.operand rec e k >>=
        fun u => Run.settle (Value.index v u))
      (MonkeyLang.operand rec' e' l' >>= fun v =>
        MonkeyLang.operand rec' e' k' >>= fun u =>
          Run.settle (Value.index v u)) := by
  refine (hV.operand hl).bind fun w₁ hw₁ v v' hv => ?_
  refine (hV.operand (hk.mono hw₁)).bind fun w₂ hw₂ u u' hu => ?_
  exact hV.settle ((hV.congruence w₂).index (hV.mono hw₂ hv) hu)

/-- One of two branches, the same one on both sides. -/
lemma conditional (t t' : Token) {c c' a a' b b' : Node}
    (hmissing : b.isMissing = b'.isMissing)
    (hc : Run.Coupled S E V w (rec c e) (rec' c' e'))
    (ha : Run.Coupled S E V w (rec a e) (rec' a' e'))
    (hb : Run.Coupled S E V w (rec b e) (rec' b' e')) :
    Parallel S E (fun w => Option.Rel (V w)) w
      (evalWith rec (.conditional t c a b) e)
      (evalWith rec' (.conditional t' c' a' b') e') := by
  refine hc.here.bind fun w₁ hw₁ v? v'? hv => ?_
  rw [(hV.congruence w₁).holds_eq hv, hmissing]
  split
  · exact ha w₁ hw₁
  · split
    · exact .pure (.some hV.null)
    · exact hb w₁ hw₁

/-- The tree of the value of an argument of `unquote`. -/
lemma unquoteWith (h : Run.Coupled S E V w (rec n e) (rec' n' e')) :
    Parallel S E (fun _ => Q) w (MonkeyLang.unquoteWith rec e n)
      (MonkeyLang.unquoteWith rec' e' n') := by
  refine h.here.bind fun w₁ _ v? v'? hv => ?_
  have hkinds : v?.map Value.kind = v'?.map Value.kind := by
    cases hv with
    | none => rfl
    | some hv => exact congrArg some ((hV.congruence w₁).kind_eq hv)
  have htrees : Option.Rel Q (v? >>= Value.toNode?) (v'? >>= Value.toNode?) :=
    rel_bind hv fun _ _ => (hV.congruence w₁).toNode? hV.ofInt hV.ofBool
  rw [hkinds]
  generalize v? >>= Value.toNode? = x, v'? >>= Value.toNode? = y at htrees
  cases htrees with
  | some hm => exact .pure hm
  | none => exact .throw (hV.fault _)

end Value.Coupling

end MonkeyLang

/-
Regimes of evaluation.

* `Regime`: what is said of stores, of frames and values in a store, and of
  trees of two grades, where plain ones never give a returned value;
* `Regime.asked`, `Regime.answer`: what it says of a job and of its answer;
* `Regime.Lawful`: nothing that evaluation is made of leaves the regime;
* `Lawful.ends_operands`, `Lawful.ends_sequence`, `Lawful.ends_entries`: nor
  do several parts in a row, if none of them does.

That the regime is kept is said where a run comes to, not of all runs: what a
step asks for is known to be within the regime only from the store that the
run has then.
-/
import MonkeyLang.Proofs.Tree.Positions
import MonkeyLang.Proofs.Value.Closed

namespace MonkeyLang

/-! ### Regimes -/

/-- The property of the value that is there, if there is one. -/
def Value.IfAny (V : Value → Prop) (v? : Option Value) : Prop :=
  ∀ v, v? = some v → V v

/-- Where nothing is, everything has the property. -/
lemma Value.ifAny_none (V : Value → Prop) : IfAny V none := by
  rintro v ⟨⟩

/-- A value that is there has the property if it does. -/
lemma Value.ifAny_some {V : Value → Prop} {v : Value} (hv : V v) :
    IfAny V (some v) := by
  rintro w ⟨rfl⟩
  exact hv

lemma Value.IfAny.mono {V W : Value → Prop} {v? : Option Value}
    (h : IfAny V v?) (hVW : ∀ v, V v → W v) : IfAny W v? :=
  fun v hv => hVW v (h v hv)

/-- A change of the state that goes alike from its image, and ends in a good
state that may come after it. -/
structure World.Moves {σ : Type} (W : World σ) (f : σ → σ) (s : σ) :
    Prop where
  image : f (W.image s) = W.image (f s)
  good : W.good (f s)
  le : W.le s (f s)

/-- What is said of frames and values in a store, of trees, of plain trees and
of the calls that are made. -/
structure Regime extends World Store where
  frame : Store → ℕ → Prop
  value : Store → Value → Prop
  tree : Node → Prop
  plain : Node → Prop
  call : Value → List Value → Prop

namespace Regime

variable (R : Regime)

/-- A value of the regime, or one that is marked as returned. -/
def Carried (s : Store) (v : Value) : Prop :=
  R.value s v ∨ ∃ w, v = .returned w ∧ R.value s w

/-- The jobs that the regime covers in a store. -/
def asked (s : Store) : Job → Prop
  | .eval n e => R.frame s e ∧ R.tree n
  | .apply f args => R.value s f ∧ ∀ a ∈ args, R.value s a

/-- What the regime says of the answer to a job. -/
def answer : Job → Store → Option Value → Prop
  | .eval n _, s, v? =>
    Value.IfAny (R.Carried s) v? ∧ (R.plain n → Value.IfAny (R.value s) v?)
  | .apply .., s, v? => Value.IfAny (R.value s) v?

/-- What is within the regime answers a plain tree, and any other. -/
lemma answer_of_value {n : Node} {e : ℕ} {s : Store} {v? : Option Value}
    (hv : Value.IfAny (R.value s) v?) : R.answer (.eval n e) s v? :=
  ⟨hv.mono fun _ => Or.inl, fun _ => hv⟩

/-- Nothing that evaluation is made of leaves the regime. -/
structure Lawful : Prop where
  frame_mono : ∀ {s t e}, R.le s t → R.frame s e → R.frame t e
  value_mono : ∀ {s t v}, R.le s t → R.value s v → R.value t v
  values : ∀ s, Value.Formed (R.value s)
  trees : Node.Graded R.tree R.plain
  literal : ∀ s t n, R.tree (.intLit t n) → R.value s (.integer n)
  quote : ∀ s n, R.plain n → R.value s (.quote n)
  syntaxOf : ∀ s v n, R.value s v → v.toNode? = some n → R.plain n
  body : ∀ s c, R.value s (.function c) ∨ R.value s (.macroFn c) →
    R.tree c.body
  marked : ∀ s t n v, R.plain (.returnStmt t n) → R.value s v →
    R.value s (.returned v)
  unmarked : ∀ s v, R.value s (.returned v) → R.value s v
  result : ∀ s b args v, R.call (.builtin b) args →
    (∀ a ∈ args, R.value s a) → b.result args = .ok v → R.value s v
  lookup : ∀ s e name, R.good s → R.frame s e →
    (R.image s).lookup e name = s.lookup e name ∧
      ∀ v, s.lookup e name = some v → R.value s v
  function : ∀ s e t ps b, R.good s → R.frame s e →
    R.tree (.function t ps b) →
    Ends R.toWorld (fun s c => R.value s (.function c))
      (Run.make (Store.makeClosure ps b e)) s
  macroFn : ∀ s e t ps b, R.good s → R.frame s e →
    R.tree (.macroFn t ps b) →
    Ends R.toWorld (fun s c => R.value s (.macroFn c))
      (Run.make (Store.makeClosure ps b e)) s
  bind : ∀ s e name v, R.good s → R.frame s e → R.value s v →
    R.Moves (Store.bind e name v) s
  print : ∀ s text, R.good s → R.Moves (Store.print text) s
  enter : ∀ s c args, R.good s →
    R.value s (.function c) ∨ R.value s (.macroFn c) →
    (∀ a ∈ args, R.value s a) →
    Ends R.toWorld R.frame (callFrame c args) s

end Regime

/-! ### Names -/

section

variable {s : Store} {e : ℕ} {name : String}

/-- A name that is bound has that value. -/
lemma named_some {v : Value} (h : s.lookup e name = some v) :
    named e name s = Run.settle (.ok v) s := by
  have hget : (get : Run Store) s = some (.ok s, s) := rfl
  rw [named, bind_ok hget, h]

/-- Any other one may have a function that the language comes with. -/
lemma named_none (h : s.lookup e name = none) :
    named e name s =
      (match Builtin.ofName? name with
        | some b => pure (some (.builtin b))
        | none => throw (.identifierNotFound name) : Run (Option Value)) s := by
  have hget : (get : Run Store) s = some (.ok s, s) := rfl
  exact (bind_ok hget).trans (h ▸ rfl)

end

namespace Regime.Lawful

variable {R : Regime} (h : R.Lawful) {s : Store}

include h

/-! ### Results, names and calls of functions that the language comes with -/

omit h in
lemma ends_change {f : Store → Store} (hf : R.Moves f s) :
    Ends R.toWorld (fun _ _ => True) (Run.change f) s :=
  Ends.modifyGet (f := fun s => ((), f s)) (by rw [hf.image]) hf.good hf.le
    trivial

omit h in
lemma ends_settle (hs : R.good s) {r : Except Fault Value}
    (hr : ∀ v, r = .ok v → R.value s v) :
    Ends R.toWorld (fun s => Value.IfAny (R.value s)) (Run.settle r) s := by
  rcases Run.settle_cases r with ⟨v, hv, -, hsettle⟩ | ⟨f, hsettle⟩
  · rw [hsettle]
    exact Ends.pure hs (Value.ifAny_some (hr v hv))
  · rw [hsettle]
    exact Ends.throw hs f

omit h in
lemma ends_ofExcept {α : Type} (hs : R.good s) {A : α → Prop}
    {r : Except Fault α} (hr : ∀ a, r = .ok a → A a) :
    Ends R.toWorld (fun _ => A) (Run.ofExcept r) s := by
  cases r with
  | ok a => exact Ends.pure hs (hr a rfl)
  | error f => exact Ends.throw hs f

/-- What is delivered has lost its mark. -/
lemma ends_deliver (hs : R.good s) {v? : Option Value}
    (hv : Value.IfAny (R.Carried s) v?) :
    Ends R.toWorld (fun s => Value.IfAny (R.value s)) (Run.deliver v?) s := by
  have hsettle : ∀ v, R.value s v → Ends R.toWorld
      (fun s => Value.IfAny (R.value s)) (Run.settle (.ok v)) s := by
    refine fun v hvalue => ends_settle hs ?_
    rintro w ⟨rfl⟩
    exact hvalue
  rcases v? with _ | v
  · exact Ends.pure hs (Value.ifAny_none _)
  · rcases hv v rfl with hvalue | ⟨w, rfl, hw⟩
    · rcases Run.deliver_cases (some v) with ⟨hnone, -⟩ | ⟨w, hfrom, hdeliver⟩
      · cases hnone
      · rw [hdeliver]
        rcases hfrom with hplain | hmarked
        · exact hsettle w (Option.some.inj hplain ▸ hvalue)
        · exact hsettle w (h.unmarked s w (Option.some.inj hmarked ▸ hvalue))
    · exact hsettle w hw

/-- What a name is bound to, or the function that the language has for it. -/
lemma ends_named (hs : R.good s) {e : ℕ} (he : R.frame s e) (name : String) :
    Ends R.toWorld (fun s => Value.IfAny (R.value s)) (named e name) s := by
  obtain ⟨himage, hbound⟩ := h.lookup s e name hs he
  rcases hlookup : s.lookup e name with _ | v
  · rw [hlookup] at himage
    rcases hb : Builtin.ofName? name with _ | b
    · refine (Ends.throw hs (.identifierNotFound name)).congr ?_ ?_
      · show named e name s = _
        rw [named_none hlookup, hb]
      · rw [named_none himage, hb]
    · refine (Ends.pure hs (a := some (.builtin b)) ?_).congr ?_ ?_
      · exact Value.ifAny_some ((h.values s).builtin b)
      · rw [named_none hlookup, hb]
      · rw [named_none himage, hb]
  · rw [hlookup] at himage
    refine (ends_settle hs (r := .ok v) ?_).congr (named_some hlookup)
      (named_some himage)
    rintro w ⟨rfl⟩
    exact hbound v hlookup

lemma ends_prints (texts : List String) (hs : R.good s) :
    R.Moves (fun s => texts.foldl (fun s text => s.print text) s) s := by
  induction texts generalizing s with
  | nil => exact ⟨rfl, hs, R.refl s⟩
  | cons text texts ih =>
      have hfirst := h.print s text hs
      have hrest := ih hfirst.good
      refine ⟨?_, hrest.good, R.trans hfirst.le hrest.le⟩
      show texts.foldl _ ((R.image s).print text) = _
      rw [hfirst.image]
      exact hrest.image

lemma ends_call (hs : R.good s) {b : Builtin} {args : List Value}
    (hargs : ∀ a ∈ args, R.value s a) (hcall : R.call (.builtin b) args) :
    Ends R.toWorld (fun s => Value.IfAny (R.value s)) (b.call args) s := by
  have hprint := ends_change (h.ends_prints (b.prints args) hs)
  refine hprint.bind fun _ s₁ _ hgood hle _ => ends_settle hgood fun v hv => ?_
  exact h.result s₁ b args v hcall
    (fun a ha => h.value_mono hle (hargs a ha)) hv

/-! ### Parts -/

section

variable {rec : Node → ℕ → Run (Option Value)} {e : ℕ}

lemma ends_operand {n : Node} (hn : R.plain n)
    (hrec : Ends R.toWorld (R.answer (.eval n e)) (rec n e) s) :
    Ends R.toWorld R.value (operand rec e n) s := by
  refine hrec.map fun s' v? _ _ hv => ?_
  cases v? with
  | none => exact (h.values s').null
  | some v => exact hv.2 hn v rfl

omit h in
lemma operands_eq_mapM (rec : Node → ℕ → Run (Option Value)) (e : ℕ)
    (ns : List Node) : operands rec e ns = ns.mapM (operand rec e) := by
  induction ns with
  | nil => rfl
  | cons n ns ih => rw [operands, ih, List.mapM_cons]

/-- Several parts in value positions. -/
lemma ends_operands {ns : List Node} (hs : R.good s) (hns : ∀ n ∈ ns, R.plain n)
    (hrec : ∀ pre n post vs s', ns = pre ++ n :: post →
      operands rec e pre s = some (.ok vs, s') → R.good s' → R.le s s' →
      Ends R.toWorld (R.answer (.eval n e)) (rec n e) s') :
    Ends R.toWorld (fun s vs => ∀ v ∈ vs, R.value s v)
      (operands rec e ns) s := by
  rw [operands_eq_mapM]
  refine (Ends.mapM (B := fun s _ v => R.value s v)
    (fun hle hv => h.value_mono hle hv) hs ?_).mono ?_
  · intro pre n post vs s' hn hpre hgood hle
    rw [← operands_eq_mapM] at hpre
    have hplain : R.plain n := hns n (by rw [hn]; simp)
    exact h.ends_operand hplain (hrec pre n post vs s' hn hpre hgood hle)
  · exact fun s' vs _ _ _ hvs => forall_of_forall₂ hvs fun _ _ hv => hv

omit h in
/-- A sequence of statements gives what one of them gives. -/
lemma ends_sequence {A : Store → Value → Prop} {ss : List Node}
    {last : Option Value} (hs : R.good s) (hlast : Value.IfAny (A s) last)
    (hreturn : ∀ v, last ≠ some (.returned v))
    (hrec : ∀ pre n post v? s', ss = pre ++ n :: post →
      sequence rec e last pre s = some (.ok v?, s') →
      (∀ v, v? ≠ some (.returned v)) → R.good s' → R.le s s' →
      Ends R.toWorld (fun s => Value.IfAny (A s)) (rec n e) s') :
    Ends R.toWorld (fun s => Value.IfAny (A s)) (sequence rec e last ss) s := by
  induction ss generalizing last s with
  | nil => exact Ends.pure hs hlast
  | cons n ss ih =>
      refine (hrec [] n ss last s rfl rfl hreturn hs (R.refl s)).bind
        fun v? s₁ hn hgood hle hv => ?_
      split
      · exact Ends.pure hgood hv
      · next hv? =>
        refine ih hgood hv hv? fun pre m post w? s₂ hss hpre hw hgood' hle' =>
          hrec (n :: pre) m post w? s₂ (by rw [hss]; rfl) ?_ hw hgood'
            (R.trans hle hle')
        rw [sequence, bind_ok hn]
        split
        · exact absurd rfl (hv? _)
        · exact hpre

/-- The entries of a hash, with keys and values in value positions. -/
lemma ends_entries {ps : List (Node × Node)} {t : Table} (hs : R.good s)
    (hps : ∀ p ∈ ps, R.plain p.1 ∧ R.plain p.2) (ht : R.value s (.hash t))
    (hkey : ∀ pre k v post u s', ps = pre ++ (k, v) :: post →
      entries rec e t pre s = some (.ok u, s') → R.good s' → R.le s s' →
      Ends R.toWorld (R.answer (.eval k e)) (rec k e) s')
    (hvalue : ∀ pre k v post u key hash s' s'', ps = pre ++ (k, v) :: post →
      entries rec e t pre s = some (.ok u, s') →
      operand rec e k s' = some (.ok key, s'') → key.hashKey = .ok hash →
      R.good s'' → R.le s s'' →
      Ends R.toWorld (R.answer (.eval v e)) (rec v e) s'') :
    Ends R.toWorld (fun s t => R.value s (.hash t)) (entries rec e t ps) s := by
  induction ps generalizing t s with
  | nil => exact Ends.pure hs ht
  | cons p ps ih =>
      obtain ⟨k, v⟩ := p
      obtain ⟨hk, hv⟩ := hps (k, v) List.mem_cons_self
      rw [entries]
      refine (h.ends_operand hk
        (hkey [] k v ps t s rfl rfl hs (R.refl s))).bind
        fun key s₁ hkeyRun hgood₁ hle₁ hkeyV => ?_
      refine (ends_ofExcept hgood₁ fun a ha => ha).bind
        fun hash s₂ hhash hgood₂ hle₂ hok => ?_
      obtain ⟨-, rfl⟩ := Run.ofExcept_inv hhash
      refine (h.ends_operand hv (hvalue [] k v ps t key hash s s₁ rfl rfl
        hkeyRun hok hgood₁ hle₁)).bind
        fun value s₃ hvRun hgood₃ hle₃ hvalueV => ?_
      have hle := R.trans hle₁ hle₃
      have hset : R.value s₃ (.hash (t.set hash (key, value))) :=
        (h.values s₃).entry t key value hash (h.value_mono hle ht)
          (h.value_mono hle₃ hkeyV) hvalueV (Value.hashKey_eq_ok.mp hok)
      -- what is asked for behind the first entry is asked for behind a longer
      -- beginning of all the entries, so that the hypotheses carry over
      have hpre : ∀ pre, entries rec e t ((k, v) :: pre) s =
          entries rec e (t.set hash (key, value)) pre s₃ := by
        intro pre
        rw [entries, bind_ok hkeyRun, bind_ok hhash, bind_ok hvRun]
      refine ih hgood₃ (fun p hp => hps p (List.mem_cons_of_mem _ hp)) hset
        ?_ ?_
      · intro pre k' v' post u s' hps' hu hgood' hle'
        exact hkey ((k, v) :: pre) k' v' post u s' (by rw [hps']; rfl)
          ((hpre pre).trans hu) hgood' (R.trans hle hle')
      · intro pre k' v' post u key' hash' s' s'' hps' hu hk' hkey' hgood' hle'
        exact hvalue ((k, v) :: pre) k' v' post u key' hash' s' s''
          (by rw [hps']; rfl) ((hpre pre).trans hu) hk' hkey' hgood'
          (R.trans hle hle')

end

end Regime.Lawful

end MonkeyLang

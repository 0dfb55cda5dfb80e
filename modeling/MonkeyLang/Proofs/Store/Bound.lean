/-
Properties of all values that a store has.

* `Store.Bound V`: every value bound in any frame has the property;
* `Bound.lookup`: so has every value that is looked up;
* `Bound.bind`, `Bound.addFrame`: binding such a value and adding a frame of
  such values keep this;
* `stable_bound`: it is an invariant of evaluation; `stable_every`: so it is
  for a property at any depth that all values have but errors and some hashes.
-/
import MonkeyLang.Proofs.Eval.Stable

namespace MonkeyLang

namespace Store

/-- Every value bound in any frame has the property. -/
def Bound (V : Value → Prop) (s : Store) : Prop :=
  ∀ (e : ℕ) (f : Frame), s.frames[e]? = some f → ∀ b ∈ f.bindings, V b.2

/-- The frames of a chain are frames of the store. -/
lemma exists_of_mem_chainUpTo {s : Store} {f : Frame} :
    ∀ (n : ℕ) (e : Option ℕ), f ∈ s.chainUpTo n e →
      ∃ d : ℕ, s.frames[d]? = some f := by
  intro n
  induction n with
  | zero =>
      rintro e ⟨⟩
  | succ n ih =>
      intro e hf
      cases e with
      | none => cases hf
      | some e =>
          rw [chainUpTo] at hf
          split at hf
          · cases hf
          · next g hg =>
            rcases List.mem_cons.mp hf with rfl | hf
            · exact ⟨e, hg⟩
            · exact ih _ hf

namespace Bound

variable {V : Value → Prop} {s : Store}

lemma empty : Bound V Store.empty := by
  intro e f hf
  simp [Store.empty] at hf

/-- What is looked up is bound somewhere. -/
lemma lookup (h : s.Bound V) {e : ℕ} {name : String} {v : Value}
    (hv : s.lookup e name = some v) : V v := by
  obtain ⟨f, hf, hget⟩ := List.exists_of_findSome?_eq_some hv
  obtain ⟨d, hd⟩ := exists_of_mem_chainUpTo _ _ hf
  exact h d f hd _ (Bindings.mem_of_get? hget)

lemma bind (h : s.Bound V) (e : ℕ) (name : String) {v : Value} (hv : V v) :
    (s.bind e name v).Bound V := by
  intro d f hf b hb
  change (s.frames.modify e _)[d]? = some f at hf
  rw [Array.getElem?_modify] at hf
  split at hf
  · obtain ⟨g, hg, rfl⟩ := Option.map_eq_some_iff.mp hf
    rcases Bindings.mem_set hb with rfl | hb
    · exact hv
    · exact h d g hg b hb
  · exact h d f hf b hb

lemma addFrame (h : s.Bound V) {bs : Bindings String Value}
    (hbs : ∀ b ∈ bs, V b.2) (outer : Option ℕ) :
    (s.addFrame bs outer).2.Bound V := by
  intro d f hf b hb
  change (s.frames.push _)[d]? = some f at hf
  rw [Array.getElem?_push] at hf
  split at hf
  · cases hf
    exact hbs b hb
  · exact h d f hf b hb

end Bound

end Store

/-- What is put together step by step holds nothing but what was there and
what the steps bring. -/
lemma mem_foldl {α β : Type} (brings : α → β → Prop) {b : β}
    {put : List β → α → List β}
    (hput : ∀ bs a, b ∈ put bs a → brings a b ∨ b ∈ bs) (as : List α) :
    ∀ bs, b ∈ as.foldl put bs → (∃ a ∈ as, brings a b) ∨ b ∈ bs := by
  induction as with
  | nil => exact fun bs h => Or.inr h
  | cons a as ih =>
      intro bs h
      rcases ih _ h with ⟨c, hc, hb⟩ | h
      · exact Or.inl ⟨c, List.mem_cons_of_mem a hc, hb⟩
      · rcases hput bs a h with hb | h
        · exact Or.inl ⟨a, List.mem_cons_self, hb⟩
        · exact Or.inr h

/-- Parameters are bound to nothing but arguments. -/
lemma mem_parameterBindings {names : List String} {args : List Value}
    {b : String × Value} (hb : b ∈ parameterBindings names args) :
    b.2 ∈ args := by
  rcases mem_foldl (fun a b => b = a) (fun bs a h => Bindings.mem_set h) _ _ hb
    with ⟨a, ha, rfl⟩ | h
  · exact (List.of_mem_zip ha).2
  · cases h

/-- That all bound values have a closed property is an invariant of
evaluation, if integers, functions, macros and quotes have it. -/
lemma stable_bound {V : Value → Prop} (hV : Value.Closed V)
    (hinteger : ∀ n, V (.integer n)) (hfunction : ∀ c, V (.function c))
    (hmacros : ∀ c, V (.macroFn c)) (hquote : ∀ n, V (.quote n)) :
    Stable (fun _ => True) (Store.Bound V) (fun _ => True) V where
  values := hV
  nodes := Node.hereditary_true
  literal _ n _ := hinteger n
  quote n _ := hquote n
  syntaxOf _ _ _ _ := trivial
  function _ _ _ _ _ _ _ _ := hfunction _
  macroFn _ _ _ _ _ _ _ _ := hmacros _
  body _ _ := trivial
  close _ _ _ _ hs := hs
  lookup _ _ _ _ hs hv := hs.lookup hv
  bind _ e name _ hs _ hv := hs.bind e name hv
  print _ _ hs := hs
  enter _ _ _ hs _ hargs := ⟨trivial, hs.addFrame
    (fun _ hb => hargs _ (mem_parameterBindings hb)) _⟩

/-- Such a property is one at any depth that all values have but errors, and
hashes if their entries were put into them one by one. -/
lemma stable_every {P : Value → Prop}
    (hplain : ∀ v : Value, v.kind ≠ .error → v.kind ≠ .hash → P v)
    (hclosed : Value.Closed (Value.Every P)) :
    Stable (fun _ => True) (Store.Bound (Value.Every P)) (fun _ => True)
      (Value.Every P) := by
  have hempty : ∀ v : Value, v.kind ≠ .error → v.kind ≠ .hash →
      (∀ w, ¬ Value.Holds v w) → Value.Every P v := fun v herror hhash =>
    Value.every_of_empty (hplain v herror hhash)
  exact stable_bound hclosed (fun _ => hempty _ nofun nofun nofun)
    (fun _ => hempty _ nofun nofun nofun) (fun _ => hempty _ nofun nofun nofun)
    fun _ => hempty _ nofun nofun nofun

end MonkeyLang

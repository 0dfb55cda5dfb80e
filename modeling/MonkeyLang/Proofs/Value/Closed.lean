/-
Properties of values that evaluation cannot leave.

* `Value.Formed`: what is made of values with the property has it, and so has
  what they are made of; nothing is said of lengths and of returned values;
* `Formed.infixOp`, `Formed.index`, `Formed.result` and the others: so have
  the results of operators, of indexing and of the functions that the
  language comes with;
* `Value.Closed`: a formed property that lengths and returned values have;
* `Value.Holds`, `Value.Every`: a value in another one, and a property of a
  value and all that lies in it at any depth;
* `Value.formed_every`, `Value.closed_every`: such a property is formed, and
  closed.
-/
import MonkeyLang.Eval.Run
import MonkeyLang.Proofs.Bindings
import Mathlib.Logic.Relation

namespace MonkeyLang

open Relation (ReflTransGen)

namespace Value

/-! ### Formed and closed properties -/

/-- What is made of values with the property has it, and so has what they
are made of, lengths and returned values left aside. -/
structure Formed (V : Value → Prop) : Prop where
  null : V .null
  boolean : ∀ b, V (.boolean b)
  string : ∀ s, V (.string s)
  builtin : ∀ b, V (.builtin b)
  wrapped : ∀ n, V (.integer (wrap n))
  array : ∀ vs, (∀ v ∈ vs, V v) → V (.array vs)
  elements : ∀ vs, V (.array vs) → ∀ v ∈ vs, V v
  emptyHash : V (.hash Table.empty)
  entry : ∀ t k v h, V (.hash t) → V k → V v → k.hashKey? = some h →
    V (.hash (Bindings.set h (k, v) t))
  content : ∀ t, V (.hash t) → ∀ p ∈ t, V p.2.2

/-- What is made of values with the property has it, and so has what they
are made of. -/
structure Closed (V : Value → Prop) : Prop where
  null : V .null
  boolean : ∀ b, V (.boolean b)
  string : ∀ s, V (.string s)
  builtin : ∀ b, V (.builtin b)
  wrapped : ∀ n, V (.integer (wrap n))
  length : ∀ s : String, V (.string s) → V (.integer s.length)
  size : ∀ vs, V (.array vs) → V (.integer vs.length)
  array : ∀ vs, (∀ v ∈ vs, V v) → V (.array vs)
  elements : ∀ vs, V (.array vs) → ∀ v ∈ vs, V v
  emptyHash : V (.hash Table.empty)
  entry : ∀ t k v h, V (.hash t) → V k → V v → k.hashKey? = some h →
    V (.hash (Bindings.set h (k, v) t))
  content : ∀ t, V (.hash t) → ∀ p ∈ t, V p.2.2
  returned : ∀ v, V v → V (.returned v)
  unmarked : ∀ v, V (.returned v) → V v

/-- A closed property is formed. -/
lemma Closed.formed {V : Value → Prop} (hV : Closed V) : Formed V where
  null := hV.null
  boolean := hV.boolean
  string := hV.string
  builtin := hV.builtin
  wrapped := hV.wrapped
  array := hV.array
  elements := hV.elements
  emptyHash := hV.emptyHash
  entry := hV.entry
  content := hV.content

lemma closed_true : Closed fun _ => True := by
  constructor <;> intros <;> trivial

/-- What a function on arrays gives comes from an array. -/
lemma onArray_inv {b : Builtin} {f : List Value → Value} {v w : Value}
    (h : b.onArray f v = .ok w) : ∃ vs, v = .array vs ∧ f vs = w := by
  rw [Builtin.onArray.eq_def] at h
  split at h
  · next vs =>
    exact ⟨vs, rfl, Except.ok.inj h⟩
  · cases h

namespace Formed

variable {V : Value → Prop}

/-- What an operator before a value gives. -/
lemma prefixOp (hV : Formed V) {op : String} {v w : Value}
    (h : Value.prefixOp op v = .ok w) : V w := by
  rw [Value.prefixOp.eq_def] at h
  split at h
  · cases h
    exact hV.boolean _
  · split at h
    · cases h
      exact hV.wrapped _
    · cases h
  · cases h

lemma onIntegers (hV : Formed V) {op : String} {a b : Int} {w : Value}
    (h : Operator.onIntegers op a b = .ok w) : V w := by
  rw [Operator.onIntegers.eq_def] at h
  split at h
  case h_4 =>
    split at h
    · cases h
    · cases h
      exact hV.wrapped _
  case h_9 => cases h
  all_goals
    cases h
    first
    | exact hV.wrapped _
    | exact hV.boolean _

lemma onStrings (hV : Formed V) {op s t : String} {w : Value}
    (h : Operator.onStrings op s t = .ok w) : V w := by
  rw [Operator.onStrings.eq_def] at h
  split at h
  · cases h
    exact hV.string _
  · cases h

/-- What an operator between two values gives. -/
lemma infixOp (hV : Formed V) {op : String} {v w x : Value}
    (h : Value.infixOp op v w = .ok x) : V x := by
  rw [Value.infixOp.eq_def] at h
  split at h
  · exact hV.onIntegers h
  · exact hV.onStrings h
  · split at h
    · cases h
      exact hV.boolean _
    · cases h
      exact hV.boolean _
    · split at h <;> cases h

/-- What an array or a hash has at an index. -/
lemma index (hV : Formed V) {v i w : Value} (hv : V v)
    (h : Value.index v i = .ok w) : V w := by
  rw [Value.index.eq_def] at h
  split at h
  · next vs n =>
    cases h
    rw [member]
    split
    · rw [List.getD_eq_getElem?_getD]
      cases hget : vs[n.toNat]? with
      | none => exact hV.null
      | some x => exact hV.elements vs hv x (List.mem_of_getElem? hget)
    · exact hV.null
  · next t =>
    rw [Table.get?.eq_def] at h
    cases hkey : i.hashKey with
    | error f => rw [hkey] at h; cases h
    | ok k =>
        rw [hkey] at h
        cases h
        cases hget : Bindings.get? k t with
        | none => exact hV.null
        | some p =>
            exact hV.content t hv (k, p) (Bindings.mem_of_get? hget)
  · cases h

/-- What a function that the language comes with gives, if the length of its
argument has the property. -/
lemma result (hV : Formed V) {b : Builtin} {args : List Value} {w : Value}
    (hlength : ∀ s, args = [.string s] → V (.integer s.length))
    (hsize : ∀ vs, args = [.array vs] → V (.integer vs.length))
    (hargs : ∀ a ∈ args, V a) (h : b.result args = .ok w) : V w := by
  rw [Builtin.result.eq_def] at h
  -- case by case of the functions; all but `len` and `puts` give a member or an
  -- array of members
  split at h
  · next v =>
    rw [Builtin.length.eq_def] at h
    split at h
    · cases h
      exact hlength _ rfl
    · cases h
      exact hsize _ rfl
    · cases h
  · next v =>
    obtain ⟨vs, rfl, rfl⟩ := onArray_inv h
    have hv := hV.elements vs (hargs _ (by simp))
    cases vs with
    | nil => exact hV.null
    | cons u us => exact hv u (by simp)
  · next v =>
    obtain ⟨vs, rfl, rfl⟩ := onArray_inv h
    have hv := hV.elements vs (hargs _ (by simp))
    cases hlast : vs.getLast? with
    | none => exact hV.null
    | some u => exact hv u (List.mem_of_getLast? hlast)
  · next v =>
    obtain ⟨vs, rfl, rfl⟩ := onArray_inv h
    have hv := hV.elements vs (hargs _ (by simp))
    cases vs with
    | nil => exact hV.null
    | cons u us => exact hV.array us fun x hx => hv x (by simp [hx])
  · next v u =>
    obtain ⟨vs, rfl, rfl⟩ := onArray_inv h
    have hv := hV.elements vs (hargs _ (by simp))
    have hu : V u := hargs u (by simp)
    refine hV.array _ fun x hx => ?_
    rcases List.mem_append.mp hx with hx | hx
    · exact hv x hx
    · rw [List.mem_singleton.mp hx]
      exact hu
  · cases h
    exact hV.null
  · cases h

end Formed

/-! ### Values in values -/

/-- One value lies directly in another one. -/
inductive Holds : Value → Value → Prop where
  | element {vs : List Value} {v : Value} (hv : v ∈ vs) : Holds (.array vs) v
  | key {t : Table} {h : HashKey} {k v : Value} (hp : (h, k, v) ∈ t) :
      Holds (.hash t) k
  | value {t : Table} {h : HashKey} {k v : Value} (hp : (h, k, v) ∈ t) :
      Holds (.hash t) v
  | content {v : Value} : Holds (.returned v) v

/-- A property of a value and of all that lies in it, at any depth. -/
def Every (P : Value → Prop) (v : Value) : Prop :=
  ∀ w, ReflTransGen Holds v w → P w

lemma Every.mono {P Q : Value → Prop} {v : Value} (h : Every P v)
    (hPQ : ∀ v, P v → Q v) : Every Q v :=
  fun w hw => hPQ w (h w hw)

/-- A value and all in it have a property if it has it and so do the values
directly in it with all in them. -/
lemma every_iff {P : Value → Prop} {v : Value} :
    Every P v ↔ P v ∧ ∀ w, Holds v w → Every P w := by
  constructor
  · intro h
    exact ⟨h v .refl, fun w hw x hx => h x (.head hw hx)⟩
  · rintro ⟨hv, hall⟩ w hw
    rcases hw.cases_head with rfl | ⟨u, hu, hw⟩
    · exact hv
    · exact hall u hu w hw

/-- In a property of values with nothing in them there is nothing more than
the property. -/
lemma every_of_empty {P : Value → Prop} {v : Value} (hv : P v)
    (hempty : ∀ w, ¬ Holds v w) : Every P v :=
  every_iff.mpr ⟨hv, fun w hw => absurd hw (hempty w)⟩

/-- A property of what nothing lies in, of all arrays, and of hashes if their
entries were put into them one by one, is formed when taken at any depth. -/
theorem formed_every {P : Value → Prop}
    (hplain : ∀ v, v.kind ∈ [Kind.null, .boolean, .string, .builtin, .array] →
      P v)
    (hwrapped : ∀ n, P (.integer (wrap n)))
    (hempty : P (.hash Table.empty))
    (hentry : ∀ t k v h, P (.hash t) → P k → k.hashKey? = some h →
      P (.hash (Bindings.set h (k, v) t))) : Formed (Every P) where
  null := every_of_empty (hplain _ (by simp [kind])) nofun
  boolean _ := every_of_empty (hplain _ (by simp [kind])) nofun
  string _ := every_of_empty (hplain _ (by simp [kind])) nofun
  builtin _ := every_of_empty (hplain _ (by simp [kind])) nofun
  wrapped n := every_of_empty (hwrapped n) nofun
  array vs hvs := by
    refine every_iff.mpr ⟨hplain _ (by simp [kind]), ?_⟩
    rintro w ⟨hw⟩
    exact hvs w hw
  elements vs h v hv := (every_iff.mp h).2 v (.element hv)
  emptyHash := by
    refine every_of_empty hempty ?_
    rintro w (_ | hp | hp | _) <;> cases hp
  -- what lies in the new hash is the new key, the new value, or lay in it
  -- before
  entry t k v h ht hk hv hkey := by
    obtain ⟨htable, hinside⟩ := every_iff.mp ht
    refine every_iff.mpr
      ⟨hentry t k v h htable (every_iff.mp hk).1 hkey, ?_⟩
    rintro w (_ | hp | hp | _)
    · rcases Bindings.mem_set hp with hp | hp
      · cases hp
        exact hk
      · exact hinside w (.key hp)
    · rcases Bindings.mem_set hp with hp | hp
      · cases hp
        exact hv
      · exact hinside w (.value hp)
  content t ht p hp := (every_iff.mp ht).2 p.2.2 (.value hp)

/-- A property that all values have but errors, and hashes if their entries
were put into them one by one, is closed when taken at any depth. -/
theorem closed_every {P : Value → Prop}
    (hplain : ∀ v, v.kind ≠ .error → v.kind ≠ .hash → P v)
    (hempty : P (.hash Table.empty))
    (hentry : ∀ t k v h, P (.hash t) → k.hashKey? = some h →
      P (.hash (Bindings.set h (k, v) t))) : Closed (Every P) :=
  have hformed : Formed (Every P) := formed_every
    (fun v hv => hplain v (by rintro h; simp [h] at hv)
      (by rintro h; simp [h] at hv))
    (fun _ => hplain _ nofun nofun) hempty
    fun t k v h ht _ hk => hentry t k v h ht hk
  { hformed with
    length := fun _ _ => every_of_empty (hplain _ nofun nofun) nofun
    size := fun _ _ => every_of_empty (hplain _ nofun nofun) nofun
    returned := by
      intro v hv
      refine every_iff.mpr ⟨hplain _ nofun nofun, ?_⟩
      rintro w ⟨⟩
      exact hv
    unmarked := fun v h => (every_iff.mp h).2 v .content }

end Value

end MonkeyLang

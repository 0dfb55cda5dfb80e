/-
Hash literals and what is found in them.

* `Value.hashKey?_eq_iff`: keys are one if they are equal, or strings with one
  hash;
* `Node.EvaluatesTo`: within some bound a node has a value, from one store to
  another one; `PairsTo`: so have the keys and values of a literal, one after
  the other;
* `PairsTo.eval_hash`: the literal is the hash that these are put into one
  after the other;
* `PairsTo.index_hash`: a key finds the value of the last pair whose key is one
  with it, so that of the last pair with an equal key where no other string
  has its hash;
* `index_hash_shared`: two strings with one hash, of which one finds the value
  of the other.
-/
import MonkeyLang.Proofs.Eval.Refines
import MonkeyLang.Proofs.Value.Tables
import Mathlib.Data.List.Find

namespace MonkeyLang

open Table (Operation)

/-! ### Keys that are one -/

namespace Value

variable {k : Value} (hk : k.kind ∈ [Kind.integer, .boolean, .string])

include hk

lemma exists_hashKey? : ∃ h, k.hashKey? = some h :=
  Option.ne_none_iff_exists'.mp fun hnone => hashKey?_eq_none.mp hnone hk

/-- A key is one with those equal to it and, if it is a string, with the strings
that have its hash. -/
lemma hashKey?_eq_iff {l : Value} : l.hashKey? = k.hashKey? ↔
    l = k ∨ ∃ s t, l = .string s ∧ k = .string t ∧
      fnv1a (utf8Bytes s) = fnv1a (utf8Bytes t) := by
  obtain ⟨h, hkey⟩ := exists_hashKey? hk
  constructor
  · exact fun hl => eq_or_strings (hl.trans hkey) hkey
  · rintro (rfl | ⟨s, t, rfl, rfl, hst⟩)
    · rfl
    · rw [hashKey?, hashKey?, HashKey.ofString, HashKey.ofString, hst]

/-- What is equal to a key is that key. -/
lemma alike_key_iff {l : Value} : l.alike k = true ↔ l = k := by
  cases k with
  | integer n => cases l <;> simp [alike]
  | boolean b => cases l <;> simp [alike]
  | string s => cases l <;> simp [alike]
  | _ => simp [kind] at hk

end Value

/-! ### Evaluation of literals -/

/-- Within some bound a node has a value where one is needed, in the frame `e`
and from one store to another one. -/
def Node.EvaluatesTo (n : Node) (e : ℕ) (s : Store) (v : Value) (s' : Store) :
    Prop :=
  ∃ depth, operand (eval depth) e n s = some (.ok v, s')

/-- It has that value within every higher bound. -/
lemma Node.EvaluatesTo.height {n : Node} {e : ℕ} {s s' : Store} {v : Value}
    (h : n.EvaluatesTo e s v s') : ∃ height, ∀ depth, height ≤ depth →
      operand (eval depth) e n s = some (.ok v, s') := by
  obtain ⟨height, hrun⟩ := h
  refine ⟨height, fun depth hdepth => ?_⟩
  exact (eval_mono hdepth n e).bind_same _ s _ hrun

/-- The pairs of a hash literal come, one after the other, to keys and values
in the frame `e`, from one store to another one.  The keys are integers, truth
values or strings. -/
inductive PairsTo (e : ℕ) :
    List (Node × Node) → Store → List (Value × Value) → Store → Prop where
  | nil {s : Store} : PairsTo e [] s [] s
  | cons {k v : Node} {ps : List (Node × Node)} {key value : Value}
      {kvs : List (Value × Value)} {s s₁ s₂ s' : Store}
      (hkey : k.EvaluatesTo e s key s₁)
      (husable : key.kind ∈ [Value.Kind.integer, .boolean, .string])
      (hvalue : v.EvaluatesTo e s₁ value s₂) (hrest : PairsTo e ps s₂ kvs s') :
      PairsTo e ((k, v) :: ps) s ((key, value) :: kvs) s'

/-- The operations that put pairs of keys and values. -/
def puts (kvs : List (Value × Value)) : List Operation :=
  kvs.map fun p => .put p.1 p.2

namespace PairsTo

variable {e : ℕ} {ps : List (Node × Node)} {kvs : List (Value × Value)}
  {s s' : Store}

/-- The pairs are put one after the other. -/
lemma entries_puts (h : PairsTo e ps s kvs s') :
    ∃ height, ∀ depth, height ≤ depth → ∀ t,
      entries (eval depth) e t ps s = some
        (.ok ((puts kvs).foldl (fun t op => (op.perform t).2) t), s') := by
  induction h with
  | nil => exact ⟨0, fun _ _ _ => rfl⟩
  | @cons k v ps key value kvs s s₁ s₂ s' hkey husable hvalue _ ih =>
      obtain ⟨height, hkey⟩ := hkey.height
      obtain ⟨height', hvalue⟩ := hvalue.height
      obtain ⟨height'', hrest⟩ := ih
      obtain ⟨j, hj⟩ := Value.exists_hashKey? husable
      have hused : Run.ofExcept key.hashKey s₁ = some (.ok j, s₁) := by
        rw [Value.hashKey_eq_ok.mpr hj]
        rfl
      refine ⟨max height (max height' height''), fun depth hdepth t => ?_⟩
      rw [entries, bind_ok (hkey depth (by omega)), bind_ok hused,
        bind_ok (hvalue depth (by omega)), hrest depth (by omega), puts, puts,
        List.map_cons, List.foldl_cons, Operation.perform_entries,
        Operation.recorded?, hj]
      rfl

/-- A literal is the hash that its pairs are put into. -/
lemma eval_hash (h : PairsTo e ps s kvs s') (t : Token) :
    ∃ height, ∀ depth, height ≤ depth → eval depth (.hash t ps) e s =
      some (.ok (some (.hash (Table.after (puts kvs)))), s') := by
  obtain ⟨height, hentries⟩ := h.entries_puts
  refine ⟨height + 1, fun depth hdepth => ?_⟩
  obtain ⟨depth, rfl⟩ : ∃ d, depth = d + 1 := ⟨depth - 1, by omega⟩
  show (entries (eval depth) e .empty ps >>= fun u =>
    pure (some (Value.hash u))) s = _
  rw [bind_ok (hentries depth (by omega) .empty)]
  rfl

end PairsTo

/-- What was put last under a hash key is the last pair with such a key. -/
lemma last?_puts (h : HashKey) (kvs : List (Value × Value)) :
    Bindings.last? h (Table.recorded (puts kvs)) =
      kvs.reverse.find? fun p => p.1.hashKey? = some h := by
  have hfirst : ∀ l : List (Value × Value), Bindings.get? h
      (l.filterMap fun p => p.1.hashKey?.map fun j => (j, p)) =
      l.find? fun p => p.1.hashKey? = some h := by
    intro l
    induction l with
    | nil => rfl
    | cons p l ih =>
        rw [List.filterMap_cons, List.find?_cons]
        cases hp : p.1.hashKey? with
        | none => simpa using ih
        | some j => by_cases hj : j = h <;> simp [Bindings.get?, hj, ih]
  rw [Bindings.last?, Table.recorded, puts, List.filterMap_map,
    ← List.filterMap_reverse]
  exact hfirst kvs.reverse

/-! ### What a key finds -/

/-- **A key finds the last pair with its key.**  A hash literal whose pairs come
to keys and values is a hash, in which an integer, a truth value or a string
finds the value of the last pair whose key is one with it, and null if there is
none.  Keys are one if they are equal, or strings with one hash.  So where no
other string among the keys has its hash, a key finds the value of the last pair
whose key is equal to it. -/
theorem PairsTo.index_hash {e : ℕ} {ps : List (Node × Node)}
    {kvs : List (Value × Value)} {s s' : Store} (h : PairsTo e ps s kvs s')
    (t : Token) : ∃ u : Table,
      (∃ height, ∀ depth, height ≤ depth → eval depth (.hash t ps) e s =
        some (.ok (some (.hash u)), s')) ∧
      ∀ k : Value, k.kind ∈ [Value.Kind.integer, .boolean, .string] →
        Value.index (.hash u) k = .ok (((kvs.reverse.find? fun p =>
          p.1.hashKey? = k.hashKey?).map (·.2)).getD .null) ∧
        (∀ l : Value, l.hashKey? = k.hashKey? ↔
          l = k ∨ ∃ s t, l = .string s ∧ k = .string t ∧
            fnv1a (utf8Bytes s) = fnv1a (utf8Bytes t)) ∧
        ((∀ p ∈ kvs, p.1.hashKey? = k.hashKey? → p.1 = k) →
          Value.index (.hash u) k = .ok (((kvs.reverse.find? fun p =>
            p.1.alike k).map (·.2)).getD .null)) := by
  refine ⟨Table.after (puts kvs), h.eval_hash t, fun k hk => ?_⟩
  obtain ⟨j, hj⟩ := Value.exists_hashKey? hk
  have hfound : Value.index (.hash (Table.after (puts kvs))) k =
      .ok (((kvs.reverse.find? fun p => p.1.hashKey? = k.hashKey?).map
        (·.2)).getD .null) := by
    rw [Value.index, Table.get?_after _ hj, last?_puts, hj]
    rfl
  refine ⟨hfound, fun l => Value.hashKey?_eq_iff hk, fun halone => ?_⟩
  have hsame : ∀ p ∈ kvs.reverse,
      decide (p.1.hashKey? = k.hashKey?) = p.1.alike k := by
    intro p hp
    rw [Bool.eq_iff_iff, decide_eq_true_iff, Value.alike_key_iff hk]
    exact ⟨halone p (List.mem_reverse.mp hp), congrArg Value.hashKey?⟩
  rw [hfound, List.find?_congr hsame]

/-- Pairs of which the first and the last have the same key. -/
def pairsAgain : List (Node × Node) :=
  [(.ofInt 1, .ofInt 5), (.ofBool true, .ofInt 6), (.ofInt 1, .ofInt 7)]

/-- The last pair counts, and only the one of the same type. -/
theorem PairsTo.index_hash_again : ∃ u : Table,
    (∃ depth, eval depth (.hash (.made .lbrace "\x7b") pairsAgain) 0 .empty =
      some (.ok (some (.hash u)), .empty)) ∧
    Value.index (.hash u) (.integer 1) = .ok (.integer 7) ∧
    Value.index (.hash u) (.boolean true) = .ok (.integer 6) ∧
    Value.index (.hash u) (.boolean false) = .ok .null := by
  have hpairs : PairsTo 0 pairsAgain .empty [(.integer 1, .integer 5),
      (.boolean true, .integer 6), (.integer 1, .integer 7)] .empty :=
    .cons ⟨1, rfl⟩ (by decide) ⟨1, rfl⟩ (.cons ⟨1, rfl⟩ (by decide) ⟨1, rfl⟩
      (.cons ⟨1, rfl⟩ (by decide) ⟨1, rfl⟩ .nil))
  obtain ⟨u, ⟨height, heval⟩, hfound⟩ :=
    hpairs.index_hash (.made .lbrace "\x7b")
  exact ⟨u, ⟨height, heval height le_rfl⟩, (hfound _ (by decide)).1,
    (hfound _ (by decide)).1, (hfound _ (by decide)).1⟩

/-- Two strings with one hash. -/
def oneHash : String × String :=
  ("8yn0iYCKYHlIj4-BwPqk", "GReLUrM4wMqfg9yzV3KQ")

/-- Pairs that have both as keys. -/
def pairsShared : List (Node × Node) :=
  [(.strLit (.made .string oneHash.1), .ofInt 1),
    (.strLit (.made .string oneHash.2), .ofInt 2)]

/-- The keys and values that these come to. -/
def valuesShared : List (Value × Value) :=
  [(.string oneHash.1, .integer 1), (.string oneHash.2, .integer 2)]

/-- The first of two strings with one hash finds the value of the second, where
the last pair whose key is equal to it has another one. -/
theorem index_hash_shared :
    PairsTo 0 pairsShared .empty valuesShared .empty ∧
    oneHash.1 ≠ oneHash.2 ∧
    (∃ u : Table, eval 2 (.hash (.made .lbrace "\x7b") pairsShared) 0 .empty =
        some (.ok (some (.hash u)), .empty) ∧
      Value.index (.hash u) (.string oneHash.1) = .ok (.integer 2)) ∧
    (valuesShared.reverse.find? fun p =>
      p.1.alike (.string oneHash.1)).map (·.2) = some (.integer 1) :=
  ⟨.cons ⟨1, rfl⟩ (by decide) ⟨1, rfl⟩
      (.cons ⟨1, rfl⟩ (by decide) ⟨1, rfl⟩ .nil),
    by decide, ⟨_, rfl, rfl⟩, rfl⟩

end MonkeyLang

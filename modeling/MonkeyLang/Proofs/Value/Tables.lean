/-
Hashes that are asked one thing after the other.

* `Value.eq_or_strings`: values with one hash key are equal, or strings with
  one hash;
* `Table.Operation`: to put a value under a key, or to get what a key has;
  `Operation.perform` gives the answer and the entries afterwards;
* `Table.after`, `Table.recorded`: the entries after a history of operations,
  and what was put in it under some hash key;
* `Table.listing`: entries in the order in which their hash keys came first,
  each with the key and the value that came last;
* `Table.after_eq_listing`: those are the entries after every history.
-/
import MonkeyLang.Proofs.Bindings
import MonkeyLang.Value.Table
import MonkeyLang.Value.Text

namespace MonkeyLang

/-! ### Keys -/

namespace Value

/-- Values with one hash key are equal, or strings with one hash. -/
lemma eq_or_strings {k l : Value} {h : HashKey} (hk : k.hashKey? = some h)
    (hl : l.hashKey? = some h) : k = l ∨ ∃ s t, k = .string s ∧ l = .string t ∧
      fnv1a (utf8Bytes s) = fnv1a (utf8Bytes t) := by
  cases k with
  | integer n =>
      cases hk
      cases l <;> cases hl
      exact Or.inl rfl
  | boolean b =>
      cases hk
      cases l <;> cases hl
      exact Or.inl rfl
  | string s =>
      cases l with
      | string t =>
          have hkey : HashKey.ofString s = .ofString t :=
            Option.some.inj (hk.trans hl.symm)
          exact Or.inr ⟨s, t, rfl, rfl, HashKey.string.inj hkey⟩
      | integer n => cases hl; cases hk
      | boolean b => cases hl; cases hk
      | _ => cases hl
  | _ => cases hk

/-- Only integers, truth values and strings have a hash key. -/
lemma hashKey?_eq_none {k : Value} :
    k.hashKey? = none ↔ k.kind ∉ [Kind.integer, .boolean, .string] := by
  cases k <;> simp [hashKey?, kind]

end Value

namespace Table

/-! ### Histories -/

/-- What a hash is asked: to put a value under a key, or for the value that a
key has. -/
inductive Operation where
  | put (key value : Value)
  | get (key : Value)

namespace Operation

/-- The answer, which is none behind a put and a fault if the key has no hash
key, and the entries afterwards. -/
def perform : Operation → Table → Except Fault (Option Value) × Table
  | put key value, t =>
    match t.put key value with
    | .ok u => (.ok none, u)
    | .error f => (.error f, t)
  | get key, t => (t.get? key, t)

/-- What an operation puts, under its hash key. -/
def recorded? : Operation → Option (HashKey × Value × Value)
  | put key value => key.hashKey?.map fun h => (h, key, value)
  | get _ => none

/-- An operation puts its entry, if it has one, and leaves the others. -/
lemma perform_entries (op : Operation) (t : Table) :
    (op.perform t).2 =
      (op.recorded?.map fun p => Bindings.set p.1 p.2 t).getD t := by
  cases op with
  | get key => rfl
  | put key value =>
      cases hkey : key.hashKey? with
      | none =>
          rw [perform, Table.put, Value.hashKey_eq_error.mpr ⟨hkey, rfl⟩,
            recorded?, hkey]
          rfl
      | some h =>
          rw [perform, Table.put, Value.hashKey_eq_ok.mpr hkey, recorded?, hkey]
          rfl

/-- The key that an operation is about. -/
def key : Operation → Value
  | put key _ | get key => key

/-- An operation fails exactly if its key cannot be one. -/
lemma perform_eq_error {op : Operation} {t : Table} {f : Fault} :
    (op.perform t).1 = .error f ↔
      op.key.hashKey? = none ∧ f = .unusableKey op.key.kind := by
  rw [← Value.hashKey_eq_error]
  cases op with
  | put key value =>
      rw [perform, Table.put]
      cases hkey : key.hashKey <;> simp [Operation.key, hkey, bind, Except.bind,
        pure, Except.pure]
  | get key =>
      rw [perform, Table.get?]
      cases hkey : key.hashKey <;> simp [Operation.key, hkey, bind, Except.bind,
        pure, Except.pure]

/-- An operation with such a key has no entry. -/
lemma recorded?_eq_none {op : Operation} (h : op.key.hashKey? = none) :
    op.recorded? = none := by
  cases op with
  | put key value =>
      rw [recorded?, show key.hashKey? = none from h]
      rfl
  | get key => rfl

end Operation

/-- The entries after operations on the hash without entries. -/
def after (ops : List Operation) : Table :=
  ops.foldl (fun t op => (op.perform t).2) empty

/-- What operations put, each under its hash key. -/
def recorded (ops : List Operation) : List (HashKey × Value × Value) :=
  ops.filterMap Operation.recorded?

/-- Entries are put one after the other. -/
lemma after_eq (ops : List Operation) :
    after ops = (recorded ops).foldl (fun t p => Bindings.set p.1 p.2 t) [] := by
  have hfrom : ∀ t : Table, ops.foldl (fun t op => (op.perform t).2) t =
      (recorded ops).foldl (fun t p => Bindings.set p.1 p.2 t) t := by
    induction ops with
    | nil => exact fun _ => rfl
    | cons op ops ih =>
        intro t
        rw [List.foldl_cons, ih, op.perform_entries, recorded, recorded]
        cases hop : op.recorded? with
        | none => rw [List.filterMap_cons_none hop]; rfl
        | some p => rw [List.filterMap_cons_some hop]; rfl
  exact hfrom []

/-! ### Listings -/

/-- Entries in the order in which their hash keys came first, each with the key
and the value that came last. -/
def listing (es : List (HashKey × Value × Value)) : Table :=
  (Bindings.keys es).eraseDups.filterMap fun h =>
    (Bindings.last? h es).map fun p => (h, p)

/-- Entries put one after the other are listed so. -/
lemma foldl_set_eq_listing (es : List (HashKey × Value × Value)) :
    es.foldl (fun t p => Bindings.set p.1 p.2 t) [] = listing es := by
  have hnodup : ∀ t : Table, (Bindings.keys t).Nodup → (Bindings.keys
      (es.foldl (fun t p => Bindings.set p.1 p.2 t) t)).Nodup := by
    induction es with
    | nil => exact fun _ => id
    | cons e es ih => exact fun t ht => ih _ (Bindings.nodup_keys_set ht)
  rw [Bindings.eq_filterMap_keys (hnodup [] List.nodup_nil),
    Bindings.keys_foldl_set, listing]
  refine List.filterMap_congr fun h _ => ?_
  rw [Bindings.get?_foldl_set_last, Bindings.get?, Option.or_none]

/-- What a key has after operations is the value that was put last under its
hash key. -/
lemma get?_after (ops : List Operation) {k : Value} {h : HashKey}
    (hk : k.hashKey? = some h) :
    (after ops).get? k =
      .ok ((Bindings.last? h (recorded ops)).map (·.2)) := by
  rw [get?, Value.hashKey_eq_ok.mpr hk, after_eq]
  show Except.ok _ = _
  rw [Bindings.get?_foldl_set_last, Bindings.get?, Option.or_none]

/-- **Hashes keep the order of their keys.**  After every history of operations
on the hash without entries, its entries are listed and shown in the order in
which their hash keys were first put, each with the key and the value that were
put last.  A key with a hash key has the value that was put under it last, if
any; an operation fails exactly if its key has none, and changes nothing then.
Integers, truth values and strings have one, and only strings share theirs with
another key, which is a string too. -/
theorem after_eq_listing :
    (∀ ops, after ops = listing (recorded ops) ∧
      (Value.hash (after ops)).text = "\x7b" ++ String.intercalate ", "
        ((listing (recorded ops)).map Value.entryText) ++ "\x7d" ∧
      ∀ k h, k.hashKey? = some h → (Operation.get k).perform (after ops) =
        (.ok ((Bindings.last? h (recorded ops)).map (·.2)), after ops)) ∧
    (∀ (op : Operation) (t : Table) (f : Fault),
      ((op.perform t).1 = .error f ↔
        op.key.hashKey? = none ∧ f = .unusableKey op.key.kind) ∧
      ((op.perform t).1 = .error f → (op.perform t).2 = t)) ∧
    (∀ k : Value, k.hashKey? = none ↔
      k.kind ∉ [Value.Kind.integer, .boolean, .string]) ∧
    ∀ (k l : Value) (h : HashKey), k.hashKey? = some h → l.hashKey? = some h →
      k.kind = l.kind ∧ (k.kind ≠ .string → k = l) := by
  have hlisting : ∀ ops, after ops = listing (recorded ops) := fun ops =>
    (after_eq ops).trans (foldl_set_eq_listing _)
  refine ⟨fun ops => ⟨hlisting ops, ?_, fun k h hk => ?_⟩,
    fun op t f => ⟨Operation.perform_eq_error, fun hf => ?_⟩,
    fun k => Value.hashKey?_eq_none, fun k l h hk hl => ?_⟩
  · rw [Value.text, Value.entryTexts_eq_map, hlisting]
  · rw [Operation.perform, get?_after ops hk]
  · rw [op.perform_entries,
      Operation.recorded?_eq_none (Operation.perform_eq_error.mp hf).1]
    rfl
  · rcases Value.eq_or_strings hk hl with rfl | ⟨s, t, rfl, rfl, -⟩
    · exact ⟨rfl, fun _ => rfl⟩
    · exact ⟨rfl, fun hstring => absurd rfl hstring⟩

/-- A key that is put twice, and an array that cannot be one. -/
def overwritten : List Operation :=
  [.put (.string "b") (.integer 2), .put (.array []) .null,
    .put (.integer 1) (.boolean true), .put (.string "b") (.integer 3)]

/-- The first place and the last value count. -/
theorem after_eq_listing_overwritten :
    (Value.hash (after overwritten)).text = "\x7bb: 3, 1: true\x7d" ∧
    (Operation.get (.string "b")).perform (after overwritten) =
      (.ok (some (.integer 3)), after overwritten) ∧
    ((Operation.put (.array []) .null).perform (after overwritten)).2 =
      after overwritten := by
  obtain ⟨hafter, hfails, -, -⟩ := after_eq_listing
  obtain ⟨-, htext, hget⟩ := hafter overwritten
  refine ⟨htext.trans (by decide), ?_, ?_⟩
  · exact hget (.string "b") (.ofString "b") rfl
  · exact (hfails _ _ _).2 ((hfails _ _ _).1.mpr ⟨rfl, rfl⟩)

end Table

end MonkeyLang

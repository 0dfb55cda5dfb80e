/-
Equality of values is equality of what they mean.

* `Value.Meaning`, `Value.meaning`: a value without what equality takes no
  account of: the order of entries, places in trees, and of functions and
  macros all but which one it is;
* `Value.DistinctKeys`: no hash in a value lists a hash key twice, at any
  depth; `eval_distinctKeys`: evaluation gives only such values;
* `alike_hash_iff`: hashes are equal if they have equal entries under every
  hash key;
* `alike_iff_meaning`: such values are equal exactly if they mean the same;
* `index_meaning`: what values of one meaning have at an index means the same;
* `alike_equivalence`: equality is an equivalence, which `==` and `!=` tell, and
  equal values have equal values at every index.
-/
import MonkeyLang.Proofs.Related
import MonkeyLang.Proofs.Store.Bound
import Mathlib.Data.List.Perm.Subperm

namespace MonkeyLang

open List (Forall₂)

namespace Value

/-! ### Meanings -/

/-- What a value means: a hash is a map from hash keys to keys and values, a
quote is its tree without places, an error its wording, a function or a macro
its number. -/
inductive Meaning where
  | integer (n : Int)
  | boolean (b : Bool)
  | null
  | string (s : String)
  | array (elements : List Meaning)
  | hash (entries : HashKey → Option (Meaning × Meaning))
  | returned (value : Meaning)
  | error (wording : String)
  | function (id : ℕ)
  | builtin (b : Builtin)
  | quote (tree : Node)
  | macroFn (id : ℕ)

mutual

/-- What a value means. -/
def meaning : Value → Meaning
  | integer n => .integer n
  | boolean b => .boolean b
  | null => .null
  | string s => .string s
  | array vs => .array (meaningList vs)
  | hash es => .hash (meaningEntries es)
  | returned v => .returned (meaning v)
  | error f => .error f.message
  | function c => .function c.id
  | builtin b => .builtin b
  | quote n => .quote n.bare
  | macroFn c => .macroFn c.id

/-- What several values mean. -/
def meaningList : List Value → List Meaning
  | [] => []
  | v :: vs => meaning v :: meaningList vs

/-- What the entries of a hash mean. -/
def meaningEntries :
    List (HashKey × Value × Value) → HashKey → Option (Meaning × Meaning)
  | [], _ => none
  | (h, k, v) :: es, j =>
    if h = j then some (meaning k, meaning v) else meaningEntries es j

end

lemma meaningList_eq_map (vs : List Value) :
    meaningList vs = vs.map meaning := by
  induction vs with
  | nil => rfl
  | cons v vs ih => rw [meaningList, ih, List.map_cons]

/-- Under a hash key is the meaning of what the hash has there. -/
lemma meaningEntries_eq (t : Table) (h : HashKey) :
    meaningEntries t h =
      (Bindings.get? h t).map fun p => (p.1.meaning, p.2.meaning) := by
  induction t with
  | nil => rfl
  | cons p t ih =>
      obtain ⟨j, k, v⟩ := p
      rw [meaningEntries, ih, Bindings.get?]
      split <;> rfl

/-- The type of the values with a meaning. -/
def Meaning.kind : Meaning → Kind
  | integer _ => .integer
  | boolean _ => .boolean
  | null => .null
  | string _ => .string
  | array _ => .array
  | hash _ => .hash
  | returned _ => .returned
  | error _ => .error
  | function _ => .function
  | builtin _ => .builtin
  | quote _ => .quote
  | macroFn _ => .macroFn

lemma kind_meaning (v : Value) : v.meaning.kind = v.kind := by
  cases v <;> rfl

/-! ### Hashes with distinct keys -/

/-- No hash in the value lists a hash key twice, at any depth. -/
def DistinctKeys (v : Value) : Prop :=
  v.Every fun w => ∀ t, w = .hash t → (Bindings.keys t).Nodup

namespace DistinctKeys

lemma element {vs : List Value} (h : DistinctKeys (.array vs)) {v : Value}
    (hv : v ∈ vs) : v.DistinctKeys :=
  (every_iff.mp h).2 v (.element hv)

lemma nodup {t : Table} (h : DistinctKeys (.hash t)) :
    (Bindings.keys t).Nodup :=
  (every_iff.mp h).1 t rfl

lemma entry {t : Table} (h : DistinctKeys (.hash t)) {j : HashKey}
    {p : Value × Value} (hp : (j, p) ∈ t) :
    p.1.DistinctKeys ∧ p.2.DistinctKeys :=
  ⟨(every_iff.mp h).2 p.1 (.key hp), (every_iff.mp h).2 p.2 (.value hp)⟩

lemma content {v : Value} (h : DistinctKeys (.returned v)) : v.DistinctKeys :=
  (every_iff.mp h).2 v .content

end DistinctKeys

/-- To have such hashes only is a closed property. -/
lemma closed_distinctKeys : Closed DistinctKeys := by
  refine closed_every (fun v _ hhash t ht => ?_) (fun t ht => ?_)
    fun t k v h hnodup _ u hu => ?_
  · exact absurd (congrArg kind ht) hhash
  · cases ht
    exact List.nodup_nil
  · cases hu
    exact Bindings.nodup_keys_set (hnodup t rfl)

end Value

/-- That all values have such hashes only is an invariant of evaluation. -/
lemma stable_distinctKeys : Stable (fun _ => True)
    (Store.Bound Value.DistinctKeys) (fun _ => True) Value.DistinctKeys :=
  stable_every (fun _ _ hhash _ ht => absurd (congrArg Value.kind ht) hhash)
    Value.closed_distinctKeys

/-- Where only such values are bound, evaluation gives such a value and binds
only such values. -/
theorem eval_distinctKeys {depth e : ℕ} {n : Node} {s s' : Store} {v : Value}
    (hs : s.Bound Value.DistinctKeys)
    (hrun : eval depth n e s = some (.ok (some v), s')) :
    v.DistinctKeys ∧ s'.Bound Value.DistinctKeys := by
  obtain ⟨hs', hvalue⟩ := stable_distinctKeys.keeps_eval depth trivial trivial
    s _ s' hs hrun
  exact ⟨hvalue _ rfl v rfl, hs'⟩

namespace Value

/-! ### Equality by meaning -/

/-- Keys are equal and so are values. -/
def AlikeEntry (p q : Value × Value) : Prop :=
  p.1.alike q.1 = true ∧ p.2.alike q.2 = true

/-- Each entry has an equal one under its hash key. -/
lemma alikeEntries_iff {t u : Table} : alikeEntries t u = true ↔
    ∀ p ∈ t, ∃ q, Bindings.get? p.1 u = some q ∧ AlikeEntry p.2 q := by
  induction t with
  | nil => simp [alikeEntries]
  | cons p t ih =>
      obtain ⟨h, k, v⟩ := p
      rw [alikeEntries, Bool.and_eq_true, ih, List.forall_mem_cons]
      refine and_congr_left fun _ => ?_
      cases Bindings.get? h u <;> simp [AlikeEntry]

/-- Hashes with distinct hash keys are equal if they have equal entries under
every hash key, whatever their order. -/
lemma alike_hash_iff {t u : Table} (ht : (Bindings.keys t).Nodup)
    (hu : (Bindings.keys u).Nodup) : (hash t).alike (hash u) = true ↔
      ∀ h, Option.Rel AlikeEntry (Bindings.get? h t) (Bindings.get? h u) := by
  rw [alike, Bool.and_eq_true, decide_eq_true_iff, alikeEntries_iff]
  constructor
  · rintro ⟨hlength, hentries⟩ h
    -- as many keys, all of which are listed there: they are the same
    have hkeys : Bindings.keys t ⊆ Bindings.keys u := by
      intro j hj
      obtain ⟨p, hp, rfl⟩ := List.mem_map.mp hj
      obtain ⟨q, hq, -⟩ := hentries p hp
      exact (Bindings.isSome_get? p.1 u).mp (by rw [hq]; rfl)
    have hperm : (Bindings.keys t).Perm (Bindings.keys u) :=
      (List.subperm_of_subset ht hkeys).perm_of_length_le
        (by simp [Bindings.keys, hlength])
    cases hget : Bindings.get? h t with
    | some p =>
        obtain ⟨q, hq, hpq⟩ := hentries (h, p) (Bindings.mem_of_get? hget)
        rw [show Bindings.get? h u = some q from hq]
        exact .some hpq
    | none =>
        have hnone : Bindings.get? h u = none := by
          rw [← Option.not_isSome_iff_eq_none, Bindings.isSome_get?,
            ← hperm.mem_iff, ← Bindings.isSome_get?, hget]
          exact Bool.false_ne_true
        rw [hnone]
        exact .none
  · intro hrel
    have hmem : ∀ h, h ∈ Bindings.keys t ↔ h ∈ Bindings.keys u := by
      intro h
      rw [← Bindings.isSome_get?, ← Bindings.isSome_get?, rel_isSome (hrel h)]
    refine ⟨?_, fun p hp => ?_⟩
    · have hperm := (List.perm_ext_iff_of_nodup ht hu).mpr hmem
      simpa [Bindings.keys] using hperm.length_eq
    · have hh := hrel p.1
      rw [(Bindings.get?_eq_some_iff ht).mpr hp] at hh
      cases hget : Bindings.get? p.1 u with
      | none => rw [hget] at hh; cases hh
      | some q =>
          rw [hget] at hh
          cases hh with
          | some hpq => exact ⟨q, rfl, hpq⟩

/-- Lists are equal member by member. -/
lemma alikeList_iff_meaning {vs ws : List Value}
    (h : ∀ v ∈ vs, ∀ w ∈ ws, v.alike w = true ↔ v.meaning = w.meaning) :
    alikeList vs ws = true ↔ meaningList vs = meaningList ws := by
  induction vs generalizing ws with
  | nil => cases ws <;> simp [alikeList, meaningList]
  | cons v vs ih =>
      cases ws with
      | nil => simp [alikeList, meaningList]
      | cons w ws =>
          have hrest := @ih ws fun v' hv' w' hw' =>
            h v' (List.mem_cons_of_mem v hv') w' (List.mem_cons_of_mem w hw')
          rw [alikeList, Bool.and_eq_true, hrest,
            h v List.mem_cons_self w List.mem_cons_self, meaningList,
            meaningList, List.cons.injEq]

/-- Values with distinct hash keys are equal exactly if they mean the same. -/
theorem alike_iff_meaning {v w : Value} (hv : v.DistinctKeys)
    (hw : w.DistinctKeys) : v.alike w = true ↔ v.meaning = w.meaning := by
  -- by induction over the first value; equality of hashes looks keys up, so
  -- that it asks for distinct ones
  induction v using induct generalizing w with
  | array vs ih =>
      cases w with
      | array ws =>
          rw [alike, meaning, meaning, Meaning.array.injEq]
          exact alikeList_iff_meaning fun v hmem w hmem' =>
            ih v hmem (hv.element hmem) (hw.element hmem')
      | _ => simp [alike, meaning]
  | hash t ih =>
      cases w with
      | hash u =>
          rw [alike_hash_iff hv.nodup hw.nodup, meaning, meaning,
            Meaning.hash.injEq, funext_iff]
          refine forall_congr' fun h => ?_
          rw [meaningEntries_eq, meaningEntries_eq]
          cases hp : Bindings.get? h t with
          | none => cases hq : Bindings.get? h u <;> simp
          | some p =>
              cases hq : Bindings.get? h u with
              | none => simp
              | some q =>
                  have hp := Bindings.mem_of_get? hp
                  have hq := Bindings.mem_of_get? hq
                  have hkeys := (ih _ hp).1 (hv.entry hp).1 (hw.entry hq).1
                  have hvalues := (ih _ hp).2 (hv.entry hp).2 (hw.entry hq).2
                  simp [AlikeEntry, hkeys, hvalues]
      | _ => simp [alike, meaning]
  | returned v ih =>
      cases w with
      | returned w =>
          rw [alike, meaning, meaning, Meaning.returned.injEq]
          exact ih hv.content hw.content
      | _ => simp [alike, meaning]
  | quote n =>
      cases w with
      | quote m =>
          rw [alike, meaning, meaning, Meaning.quote.injEq, Node.alike_iff]
      | _ => simp [alike, meaning]
  | _ => cases w <;> simp [alike, meaning]

/-! ### Equal values under operators -/

/-- Only arrays and hashes have something at an index. -/
lemma index_eq_noIndex {v : Value} (hv : v.kind ∉ [Kind.array, .hash])
    (k : Value) : v.index k = .error (.noIndex v.kind) := by
  cases v with
  | array vs => exact absurd (by simp [kind]) hv
  | hash t => exact absurd (by simp [kind]) hv
  | _ => rfl

/-- Members at the same place of arrays of one meaning. -/
lemma member_meaning {vs ws : List Value}
    (h : vs.map meaning = ws.map meaning) (i : Int) :
    (member vs i).meaning = (member ws i).meaning := by
  rw [member, member]
  split
  · rw [List.getD_eq_getElem?_getD, List.getD_eq_getElem?_getD]
    exact rel_getD (rel_getElem? (forall₂_map_eq.mpr h) _) rfl
  · rfl

/-- What hashes of one meaning have under a hash key, null if nothing. -/
lemma value_meaning {t u : Table} {j : HashKey}
    (h : meaningEntries t j = meaningEntries u j) :
    (((Bindings.get? j t).map (·.2)).getD null).meaning =
      (((Bindings.get? j u).map (·.2)).getD null).meaning := by
  rw [meaningEntries_eq, meaningEntries_eq] at h
  cases hp : Bindings.get? j t with
  | none =>
      cases hq : Bindings.get? j u with
      | none => rfl
      | some q => simp [hp, hq] at h
  | some p =>
      cases hq : Bindings.get? j u with
      | none => simp [hp, hq] at h
      | some q =>
          simp only [hp, hq, Option.map_some, Option.some.injEq,
            Prod.mk.injEq] at h
          exact h.2

/-- What values of one meaning have at an index means the same, or they have
nothing there for the same cause. -/
lemma index_meaning {v w : Value} (h : v.meaning = w.meaning) (k : Value) :
    Outcome (· = ·) (fun a b => a.meaning = b.meaning) (v.index k)
      (w.index k) := by
  have hkind : v.kind = w.kind := by
    rw [← kind_meaning, h, kind_meaning]
  by_cases hindexed : v.kind ∈ [Kind.array, .hash]
  · cases v with
    | array vs =>
        cases w with
        | array ws =>
            rw [meaning, meaning, Meaning.array.injEq, meaningList_eq_map,
              meaningList_eq_map] at h
            cases k with
            | integer i => exact .ok (member_meaning h i)
            | _ => exact .error rfl
        | _ => cases hkind
    | hash t =>
        cases w with
        | hash u =>
            rw [meaning, meaning, Meaning.hash.injEq] at h
            rw [index, index, Table.get?, Table.get?]
            cases hkey : k.hashKey with
            | error f => exact .error rfl
            | ok j =>
                exact .ok (value_meaning (congrFun h j))
        | _ => cases hkind
    | _ => simp [kind] at hindexed
  · rw [index_eq_noIndex hindexed, index_eq_noIndex (hkind ▸ hindexed), hkind]
    exact .error rfl

/-- What equal values have at an index is equal, or they have nothing there for
the same cause. -/
lemma index_alike {v w : Value} (hv : v.DistinctKeys) (hw : w.DistinctKeys)
    (h : v.alike w = true) (k : Value) :
    Outcome (· = ·) (fun a b => a.alike b = true) (v.index k) (w.index k) := by
  have hformed := closed_distinctKeys.formed
  have hsame := index_meaning ((alike_iff_meaning hv hw).mp h) k
  cases hvk : v.index k with
  | error f =>
      cases hwk : w.index k with
      | error g =>
          rw [hvk, hwk] at hsame
          cases hsame with
          | error hfg => exact .error hfg
      | ok b => rw [hvk, hwk] at hsame; cases hsame
  | ok a =>
      cases hwk : w.index k with
      | error g => rw [hvk, hwk] at hsame; cases hsame
      | ok b =>
          rw [hvk, hwk] at hsame
          cases hsame with
          | ok hab => exact .ok ((alike_iff_meaning (hformed.index hv hvk)
              (hformed.index hw hwk)).mpr hab)

/-- Unless both are strings, `==` tells whether two values are equal, and `!=`
whether they are not. -/
lemma infixOp_alike {v w : Value}
    (h : ¬ (v.kind = .string ∧ w.kind = .string)) :
    infixOp "==" v w = .ok (.boolean (v.alike w)) ∧
    infixOp "!=" v w = .ok (.boolean (!v.alike w)) := by
  cases v with
  | integer a =>
      cases w with
      | integer b => exact ⟨rfl, congrArg (Except.ok ∘ boolean) decide_not⟩
      | _ => exact ⟨rfl, rfl⟩
  | string s =>
      cases w with
      | string t => exact absurd ⟨rfl, rfl⟩ h
      | _ => exact ⟨rfl, rfl⟩
  | _ => cases w <;> exact ⟨rfl, rfl⟩

/-- **Equality is an equivalence and a congruence.**  Values whose hashes have
distinct hash keys, as evaluation makes them, are equal exactly if they mean the
same, so equality is reflexive, symmetric and transitive.  Unless both are
strings, `==` tells whether two values are equal, and `!=` the opposite.  What
equal values have at an index is equal, or they have nothing there for the same
cause. -/
theorem alike_equivalence :
    (∀ v w : {v : Value // v.DistinctKeys},
      v.1.alike w.1 = true ↔ v.1.meaning = w.1.meaning) ∧
    (Equivalence fun v w : {v : Value // v.DistinctKeys} =>
      v.1.alike w.1 = true) ∧
    (∀ v w : Value, ¬ (v.kind = .string ∧ w.kind = .string) →
      infixOp "==" v w = .ok (.boolean (v.alike w)) ∧
      infixOp "!=" v w = .ok (.boolean (!v.alike w))) ∧
    ∀ (v w : {v : Value // v.DistinctKeys}) (k : Value),
      v.1.alike w.1 = true → Outcome (· = ·) (fun a b => a.alike b = true)
        (v.1.index k) (w.1.index k) := by
  have hmeaning : ∀ v w : {v : Value // v.DistinctKeys},
      v.1.alike w.1 = true ↔ v.1.meaning = w.1.meaning := fun v w =>
    alike_iff_meaning v.2 w.2
  refine ⟨hmeaning, ⟨fun v => ?_, fun {v w} h => ?_, fun {u v w} h h' => ?_⟩,
    fun v w => infixOp_alike, fun v w k h => index_alike v.2 w.2 h k⟩
  · exact (hmeaning v v).mpr rfl
  · exact (hmeaning w v).mpr ((hmeaning v w).mp h).symm
  · have hsame := ((hmeaning u v).mp h).trans ((hmeaning v w).mp h')
    exact (hmeaning u w).mpr hsame

/-- Hashes of two entries, in both orders. -/
def bothOrders : Value × Value :=
  let one := (HashKey.integer 1, integer 1, array [boolean true])
  let yes := (HashKey.boolean true, boolean true, null)
  (hash [one, yes], hash [yes, one])

/-- The order of entries does not count. -/
theorem alike_equivalence_bothOrders :
    bothOrders.1.alike bothOrders.2 = true ∧
    infixOp "!=" bothOrders.1 bothOrders.2 = .ok (.boolean false) ∧
    bothOrders.2.alike bothOrders.1 = true ∧
    Outcome (· = ·) (fun a b => a.alike b = true)
      (bothOrders.1.index (integer 1)) (bothOrders.2.index (integer 1)) := by
  have hV := closed_distinctKeys
  have hone := hV.array [boolean true]
    (List.forall_mem_singleton.mpr (hV.boolean true))
  have hkey := hV.wrapped 1
  have hdistinct : bothOrders.1.DistinctKeys ∧ bothOrders.2.DistinctKeys :=
    ⟨hV.entry _ _ _ (.boolean true) (hV.entry _ _ _ (.integer 1) hV.emptyHash
      hkey hone rfl) (hV.boolean true) hV.null rfl,
    hV.entry _ _ _ (.integer 1) (hV.entry _ _ _ (.boolean true) hV.emptyHash
      (hV.boolean true) hV.null rfl) hkey hone rfl⟩
  obtain ⟨-, hequal, hops, hindex⟩ := alike_equivalence
  have halike : bothOrders.1.alike bothOrders.2 = true := rfl
  have hnot := (hops bothOrders.1 bothOrders.2 nofun).2
  rw [halike] at hnot
  exact ⟨halike, hnot,
    @Equivalence.symm _ _ hequal ⟨_, hdistinct.1⟩ ⟨_, hdistinct.2⟩ halike,
    hindex ⟨_, hdistinct.1⟩ ⟨_, hdistinct.2⟩ (integer 1) halike⟩

end Value

end MonkeyLang

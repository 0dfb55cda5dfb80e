/-
Values that are the same but for closures and quotes.

* `Value.Shaped C M Q R`: values of the same shape, in which values are related
  by `R`, functions by `C`, macros by `M` and quotes by `Q`;
* `Value.Congruence C M Q R`: `R` relates just such values;
* `Congruence.of_le`: it relates more if `C`, `M` and `Q` do;
* `Congruence.alike_eq`: such values are equal to such values alike, if so are
  functions, macros and quotes (`Value.Faithful`);
* `Congruence.infixOp_eq`, `Congruence.index`, `Congruence.builtin_result`: what
  is made of such values is such a value, or the same fault.
-/
import MonkeyLang.Eval.Quote
import MonkeyLang.Proofs.Related
import MonkeyLang.Proofs.Value.Closed

namespace MonkeyLang

open List (Forall₂)

/-! ### Entries of hashes -/

/-- Entries of hashes under the same hash key with related keys and values. -/
inductive Table.Entries (R : Value → Value → Prop) :
    HashKey × Value × Value → HashKey × Value × Value → Prop where
  | mk {h : HashKey} {k k' v v' : Value} (hk : R k k') (hv : R v v') :
      Entries R (h, k, v) (h, k', v')

namespace Table

/-- Entries of hashes are bindings of hash keys. -/
lemma forall₂_entries {R : Value → Value → Prop} {t u : Table} :
    Forall₂ (Entries R) t u ↔
      Bindings.Related (fun p q => R p.1 q.1 ∧ R p.2 q.2) t u := by
  have hentry : Entries R =
      fun p q => p.1 = q.1 ∧ R p.2.1 q.2.1 ∧ R p.2.2 q.2.2 := by
    funext ⟨h, k, v⟩ ⟨h', k', v'⟩
    refine propext ⟨?_, ?_⟩
    · rintro ⟨hk, hv⟩
      exact ⟨rfl, hk, hv⟩
    · rintro ⟨rfl, hk, hv⟩
      exact .mk hk hv
  rw [hentry]
  rfl

lemma Entries.mono {R Q : Value → Value → Prop} (h : ∀ v w, R v w → Q v w)
    {p q : HashKey × Value × Value} (hpq : Entries R p q) : Entries Q p q := by
  cases hpq with
  | mk hk hv => exact .mk (h _ _ hk) (h _ _ hv)

end Table

/-! ### Shapes -/

namespace Value

section

variable (C M : Closure → Closure → Prop) (Q : Node → Node → Prop)
  (R : Value → Value → Prop)

/-- Values of the same shape, with related values, closures and quotes. -/
inductive Shaped : Value → Value → Prop where
  | integer (n : Int) : Shaped (.integer n) (.integer n)
  | boolean (b : Bool) : Shaped (.boolean b) (.boolean b)
  | null : Shaped .null .null
  | string (s : String) : Shaped (.string s) (.string s)
  | array {vs ws : List Value} (h : Forall₂ R vs ws) :
      Shaped (.array vs) (.array ws)
  | hash {t u : Table} (h : Forall₂ (Table.Entries R) t u) :
      Shaped (.hash t) (.hash u)
  | returned {v w : Value} (h : R v w) : Shaped (.returned v) (.returned w)
  | error (f : Fault) : Shaped (.error f) (.error f)
  | function {c d : Closure} (h : C c d) : Shaped (.function c) (.function d)
  | builtin (b : Builtin) : Shaped (.builtin b) (.builtin b)
  | quote {m n : Node} (h : Q m n) : Shaped (.quote m) (.quote n)
  | macroFn {c d : Closure} (h : M c d) : Shaped (.macroFn c) (.macroFn d)

/-- The relation holds between values of the same shape, and between no
others. -/
structure Congruence : Prop where
  shaped : ∀ {v w}, R v w → Shaped C M Q R v w
  of_shaped : ∀ {v w}, Shaped C M Q R v w → R v w

/-- Closures that are the same, and quotes that are alike, are so on both
sides. -/
structure Faithful : Prop where
  function : ∀ {c d c' d'}, C c d → C c' d' → (c.id = c'.id ↔ d.id = d'.id)
  macroFn : ∀ {c d c' d'}, M c d → M c' d' → (c.id = c'.id ↔ d.id = d'.id)
  quote : ∀ {m n m' n'}, Q m n → Q m' n' → m.alike m' = n.alike n'

end

namespace Congruence

variable {C C' M M' : Closure → Closure → Prop} {Q Q' : Node → Node → Prop}
  {R R' : Value → Value → Prop} (hR : Congruence C M Q R) {v v' w w' : Value}

include hR

/-- Where more closures and quotes are related, more values are. -/
theorem of_le (hR' : Congruence C' M' Q' R') (hC : ∀ c d, C c d → C' c d)
    (hM : ∀ c d, M c d → M' c d) (hQ : ∀ m n, Q m n → Q' m n) (hvw : R v w) :
    R' v w := by
  induction v using induct generalizing w with
  | array vs ih =>
      cases hR.shaped hvw with
      | array h =>
          exact hR'.of_shaped (.array ((forall₂_mem h).imp
            fun v _ ⟨hv, h⟩ => ih v hv h))
  | hash t ih =>
      cases hR.shaped hvw with
      | hash h =>
          refine hR'.of_shaped (.hash ((forall₂_mem h).imp ?_))
          rintro _ _ ⟨hp, ⟨hk, hv⟩⟩
          exact .mk ((ih _ hp).1 hk) ((ih _ hp).2 hv)
  | returned v ih =>
      cases hR.shaped hvw with
      | returned h => exact hR'.of_shaped (.returned (ih h))
  | function c =>
      cases hR.shaped hvw with
      | function h => exact hR'.of_shaped (.function (hC _ _ h))
  | quote m =>
      cases hR.shaped hvw with
      | quote h => exact hR'.of_shaped (.quote (hQ _ _ h))
  | macroFn c =>
      cases hR.shaped hvw with
      | macroFn h => exact hR'.of_shaped (.macroFn (hM _ _ h))
  | _ =>
      cases hR.shaped hvw
      exact hR'.of_shaped (by constructor)

/-! ### What does not tell closures and quotes -/

lemma kind_eq (h : R v w) : v.kind = w.kind := by
  cases hR.shaped h <;> rfl

lemma isTruthy_eq (h : R v w) : v.isTruthy = w.isTruthy := by
  cases hR.shaped h <;> rfl

lemma hashKey_eq (h : R v w) : v.hashKey = w.hashKey := by
  cases hR.shaped h <;> rfl

/-- Whether a condition holds. -/
lemma holds_eq {v? w? : Option Value} (h : Option.Rel R v? w?) :
    holds v? = holds w? := by
  cases h with
  | none => rfl
  | some h => exact hR.isTruthy_eq h

/-- Without their marks such answers are such answers. -/
lemma unwrap {v? w? : Option Value} (h : Option.Rel R v? w?) :
    Option.Rel R (Value.unwrap v?) (Value.unwrap w?) := by
  cases h with
  | none => exact .none
  | some hvw =>
      cases hR.shaped hvw with
      | returned h => exact .some h
      | _ => exact .some hvw

/-- The trees of such values are those of quotes, or literals. -/
lemma toNode? (hint : ∀ n, Q (.ofInt n) (.ofInt n))
    (hbool : ∀ b, Q (.ofBool b) (.ofBool b)) (hvw : R v w) :
    Option.Rel Q v.toNode? w.toNode? := by
  cases hR.shaped hvw with
  | integer n => exact .some (hint n)
  | boolean b => exact .some (hbool b)
  | quote h => exact .some h
  | _ => exact .none

/-! ### Equality -/

omit hR in
lemma alikeList_eq {vs vs' ws ws' : List Value}
    (hvs : Forall₂ (fun v v' => ∀ {w w'}, R w w' → v.alike w = v'.alike w')
      vs vs') (hws : Forall₂ R ws ws') :
    alikeList vs ws = alikeList vs' ws' := by
  induction hvs generalizing ws ws' with
  | nil => cases hws <;> rfl
  | cons hv _ ih =>
      cases hws with
      | nil => rfl
      | cons hw hws => rw [alikeList, alikeList, hv hw, ih hws]

omit hR in
lemma alikeEntries_eq {t t' u u' : Table}
    (ht : Forall₂ (Table.Entries fun v v' => ∀ {w w'}, R w w' →
      v.alike w = v'.alike w') t t')
    (hu : Forall₂ (Table.Entries R) u u') :
    alikeEntries t u = alikeEntries t' u' := by
  induction ht with
  | nil => rfl
  | cons hp _ ih =>
      obtain @⟨h, k, k', v, v', hk, hv⟩ := hp
      have hget := (Table.forall₂_entries.mp hu).get? h
      rw [alikeEntries, alikeEntries, ih]
      generalize Bindings.get? h u = x, Bindings.get? h u' = y at hget
      cases hget with
      | none => rfl
      | some hxy => simp only [hk hxy.1, hv hxy.2]

/-- **Equality.**  Such values are equal to such values alike. -/
theorem alike_eq (hfaithful : Faithful C M Q) (hv : R v v') (hw : R w w') :
    v.alike w = v'.alike w' := by
  -- by induction over the first value; two values of different shapes are
  -- unequal on both sides
  induction v using induct generalizing v' w w' with
  | array vs ih =>
      cases hR.shaped hv with
      | array hvs =>
          cases hR.shaped hw with
          | array hws =>
              refine alikeList_eq ((forall₂_mem hvs).imp ?_) hws
              rintro v _ ⟨hmem, hv⟩ w w' hw
              exact ih v hmem hv hw
          | _ => rfl
  | hash t ih =>
      cases hR.shaped hv with
      | hash ht =>
          cases hR.shaped hw with
          | hash hu =>
              rw [alike, alike, ht.length_eq, hu.length_eq,
                alikeEntries_eq ((forall₂_mem ht).imp ?_) hu]
              rintro _ _ ⟨hp, ⟨hk, hv⟩⟩
              exact .mk (fun hw => (ih _ hp).1 hk hw)
                fun hw => (ih _ hp).2 hv hw
          | _ => rfl
  | returned v ih =>
      cases hR.shaped hv with
      | returned hv' =>
          cases hR.shaped hw with
          | returned hw' =>
              rw [alike, alike]
              exact ih hv' hw'
          | _ => rfl
  | function c =>
      cases hR.shaped hv with
      | function hc =>
          cases hR.shaped hw with
          | function hd => simp only [alike, hfaithful.function hc hd]
          | _ => rfl
  | macroFn c =>
      cases hR.shaped hv with
      | macroFn hc =>
          cases hR.shaped hw with
          | macroFn hd => simp only [alike, hfaithful.macroFn hc hd]
          | _ => rfl
  | quote m =>
      cases hR.shaped hv with
      | quote hm =>
          cases hR.shaped hw with
          | quote hn => exact hfaithful.quote hm hn
          | _ => rfl
  | _ =>
      cases hR.shaped hv
      cases hR.shaped hw <;> rfl

/-! ### Operators -/

/-- Values without closures and quotes are related to themselves. -/
lemma formed_refl : Formed fun v => R v v where
  null := hR.of_shaped .null
  boolean b := hR.of_shaped (.boolean b)
  string s := hR.of_shaped (.string s)
  builtin b := hR.of_shaped (.builtin b)
  wrapped n := hR.of_shaped (.integer (wrap n))
  array vs hvs := hR.of_shaped (.array (List.forall₂_same.mpr hvs))
  elements vs hvs := by
    cases hR.shaped hvs with
    | array h => exact List.forall₂_same.mp h
  emptyHash := hR.of_shaped (.hash .nil)
  entry t k v h ht hk hv _ := by
    cases hR.shaped ht with
    | hash hentries =>
        exact hR.of_shaped (.hash (Table.forall₂_entries.mpr
          ((Table.forall₂_entries.mp hentries).set h ⟨hk, hv⟩)))
  content t ht p hp := by
    cases hR.shaped ht with
    | hash hentries =>
        cases List.forall₂_same.mp hentries p hp with
        | mk _ hv => exact hv

/-- An operator before a value gives the same, and nothing with closures or
quotes. -/
lemma prefixOp_eq (h : R v w) (op : String) :
    prefixOp op v = prefixOp op w := by
  cases hR.shaped h <;> rfl

/-- So does an operator between two values. -/
lemma infixOp_eq (hfaithful : Faithful C M Q) (hv : R v v') (hw : R w w')
    (op : String) : infixOp op v w = infixOp op v' w' := by
  have halike := hR.alike_eq hfaithful hv hw
  cases hR.shaped hv <;> cases hR.shaped hw <;>
    first
    | rfl
    | simp only [infixOp, kind, halike]

/-! ### Indexing and functions of the language -/

/-- Members of arrays and of hashes at an index, or the same fault. -/
lemma index (hv : R v v') (hw : R w w') :
    Outcome Eq R (Value.index v w) (Value.index v' w') := by
  have hnull : R .null .null := hR.of_shaped .null
  cases hR.shaped hv with
  | array hvs =>
      cases hR.shaped hw with
      | integer n =>
          refine .ok ?_
          rw [member, member]
          split
          · rw [List.getD_eq_getElem?_getD, List.getD_eq_getElem?_getD]
            exact rel_getD (rel_getElem? hvs _) hnull
          · exact hnull
      | _ => exact .error rfl
  | hash ht =>
      rw [Value.index, Value.index, Table.get?, Table.get?, hR.hashKey_eq hw]
      cases w'.hashKey with
      | error f => exact .error rfl
      | ok h =>
          have hget := (Table.forall₂_entries.mp ht).get? h
          exact .ok (rel_getD (rel_map hget fun _ _ h => h.2) hnull)
  | _ => exact .error rfl

/-- Functions on arrays. -/
lemma onArray (hv : R v w) (b : Builtin) {f g : List Value → Value}
    (hfg : ∀ vs ws, Forall₂ R vs ws → R (f vs) (g ws)) :
    Outcome Eq R (b.onArray f v) (b.onArray g w) := by
  cases hR.shaped hv with
  | array h => exact .ok (hfg _ _ h)
  | _ => exact .error rfl

lemma length (hv : R v w) :
    Outcome Eq R (Builtin.length v) (Builtin.length w) := by
  cases hR.shaped hv with
  | string s => exact .ok (hR.of_shaped (.integer _))
  | array h =>
      rw [Builtin.length, Builtin.length, h.length_eq]
      exact .ok (hR.of_shaped (.integer _))
  | _ => exact .error rfl

/-- **Functions of the language** give such values, or the same fault. -/
theorem builtin_result (b : Builtin) {args args' : List Value}
    (h : Forall₂ R args args') :
    Outcome Eq R (b.result args) (b.result args') := by
  have hnull : R .null .null := hR.of_shaped .null
  -- by the number of arguments, which the functions check first, and which is
  -- the same on both sides
  cases h with
  | nil =>
      cases b with
      | puts => exact .ok hnull
      | _ => exact .error rfl
  | cons hv h =>
      cases h with
      | nil =>
          cases b with
          | len => exact hR.length hv
          | first =>
              refine hR.onArray hv .first fun vs ws h => ?_
              rw [List.head?_eq_getElem?, List.head?_eq_getElem?]
              exact rel_getD (rel_getElem? h 0) hnull
          | last =>
              refine hR.onArray hv .last fun vs ws h => ?_
              rw [List.getLast?_eq_getElem?, List.getLast?_eq_getElem?,
                h.length_eq]
              exact rel_getD (rel_getElem? h _) hnull
          | rest =>
              refine hR.onArray hv .rest fun vs ws h => ?_
              cases h with
              | nil => exact hnull
              | cons _ h => exact hR.of_shaped (.array h)
          | push => exact .error rfl
          | puts => exact .ok hnull
      | cons hw h =>
          cases h with
          | nil =>
              cases b with
              | push =>
                  refine hR.onArray hv .push fun vs ws h => ?_
                  exact hR.of_shaped (.array (List.rel_append h (.cons hw .nil)))
              | puts => exact .ok hnull
              | _ => exact .error rfl
          | cons _ h =>
              cases b with
              | puts => exact .ok hnull
              | _ => exact .error (by simp [h.length_eq])

end Congruence

end Value

end MonkeyLang

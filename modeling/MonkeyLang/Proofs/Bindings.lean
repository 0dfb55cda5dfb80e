/-
What lies in bindings.

* `mem_of_get?`: what a key is bound to lies in the bindings;
* `mem_set`: binding a key adds nothing but that key with its value;
* `keys_prefix_set`: binding a key moves no other one and drops none;
* `set_of_notMem`: a key that is not bound is added at the end;
* `foldl_set_zip`: so are several distinct ones, in their order;
* `get?_mapKeys`, `set_mapKeys`: under other keys a key is bound and looked up
  as before; `get?_map`: so it is where only the values are mapped;
* `get?_append_or`, `get?_setNew_or`: what a key is bound to in appended
  bindings, and where only new keys are bound; what is bound stays so;
* `get?_filter_ne`: where a key is dropped, it is not bound and all others are
  as before;
* `keys_foldl_set`, `get?_foldl_set_last`: after binding several keys, one
  after the other, they are listed as they came first, and each is bound to
  what it was bound to last, `Bindings.last?`;
* `get?_of_perm`, `get?_foldl_set`: where no key is listed twice, the order of
  bindings does not count, nor that in which they are bound;
  `eq_filterMap_keys`: such bindings are their keys with what each is bound to.
-/
import MonkeyLang.Bindings
import Mathlib.Data.List.Induction
import Mathlib.Data.List.Nodup
import Mathlib.Logic.Function.Basic
import Mathlib.Tactic.Common

namespace MonkeyLang.Bindings

variable {κ α : Type} [DecidableEq κ]

/-- What a key is bound to lies in the bindings. -/
lemma mem_of_get? {k : κ} {a : α} {bs : Bindings κ α}
    (h : get? k bs = some a) : (k, a) ∈ bs := by
  induction bs with
  | nil => cases h
  | cons b bs ih =>
      obtain ⟨j, b⟩ := b
      rw [get?] at h
      split at h
      · next hj =>
        rw [hj, Option.some.inj h]
        exact List.mem_cons_self
      · exact List.mem_cons_of_mem _ (ih h)

/-- Binding a key adds nothing but that key with its value. -/
lemma mem_set {k : κ} {a : α} {bs : Bindings κ α} {p : κ × α}
    (h : p ∈ set k a bs) : p = (k, a) ∨ p ∈ bs := by
  induction bs with
  | nil => exact Or.inl (List.mem_singleton.mp h)
  | cons b bs ih =>
      obtain ⟨j, b⟩ := b
      rw [set] at h
      split at h
      · rcases List.mem_cons.mp h with rfl | h
        · exact Or.inl rfl
        · exact Or.inr (List.mem_cons_of_mem _ h)
      · rcases List.mem_cons.mp h with rfl | h
        · exact Or.inr List.mem_cons_self
        · exact (ih h).imp_right (List.mem_cons_of_mem _)

/-- Binding a key moves no key and drops none. -/
lemma keys_prefix_set (k : κ) (a : α) (bs : Bindings κ α) :
    keys bs <+: keys (set k a bs) := by
  rw [keys_set]
  split
  · exact List.prefix_refl _
  · exact List.prefix_append _ _

/-- A key that is not bound is added at the end. -/
lemma set_of_notMem {k : κ} {bs : Bindings κ α} (h : k ∉ keys bs) (a : α) :
    set k a bs = bs ++ [(k, a)] := by
  induction bs with
  | nil => rfl
  | cons b bs ih =>
      obtain ⟨j, b⟩ := b
      obtain ⟨hj, hbs⟩ : k ≠ j ∧ k ∉ keys bs :=
        List.ne_and_not_mem_of_not_mem_cons h
      rw [set, if_neg (Ne.symm hj), ih hbs, List.cons_append]

/-- Distinct keys that are not bound are added at the end, in their order. -/
lemma foldl_set_zip {ks : List κ} {as : List α} {bs : Bindings κ α}
    (hks : ks.Nodup) (hfresh : ∀ k ∈ ks, k ∉ keys bs) :
    (ks.zip as).foldl (fun bs p => bs.set p.1 p.2) bs = bs ++ ks.zip as := by
  induction ks generalizing as bs with
  | nil => simp
  | cons k ks ih =>
      cases as with
      | nil => simp
      | cons a as =>
          obtain ⟨hk, hks⟩ := List.nodup_cons.mp hks
          obtain ⟨hnew, hfresh⟩ := List.forall_mem_cons.mp hfresh
          have hrest : ∀ j ∈ ks, j ∉ keys (bs ++ [(k, a)]) := by
            intro j hj hmem
            rw [keys, List.map_append] at hmem
            rcases List.mem_append.mp hmem with hmem | hmem
            · exact hfresh j hj hmem
            · rw [List.mem_singleton.mp hmem] at hj
              exact hk hj
          rw [List.zip_cons_cons, List.foldl_cons, set_of_notMem hnew,
            ih hks hrest, List.append_assoc, List.singleton_append]

/-! ### Bindings under other keys -/

section

variable {κ' β : Type} [DecidableEq κ'] {g : κ → κ'}
  (hg : Function.Injective g) (f : α → β)

include hg

/-- What a new key is bound to. -/
lemma get?_mapKeys (k : κ) (bs : Bindings κ α) :
    get? (g k) (bs.map fun p => (g p.1, f p.2)) = (get? k bs).map f := by
  induction bs with
  | nil => rfl
  | cons b bs ih =>
      simp only [List.map_cons, get?, hg.eq_iff, ih]
      split <;> rfl

/-- Binding a key and binding the new one. -/
lemma set_mapKeys (k : κ) (a : α) (bs : Bindings κ α) :
    (set k a bs).map (fun p => (g p.1, f p.2)) =
      set (g k) (f a) (bs.map fun p => (g p.1, f p.2)) := by
  induction bs with
  | nil => rfl
  | cons b bs ih =>
      simp only [List.map_cons, set, hg.eq_iff]
      split
      · rfl
      · rw [List.map_cons, ih]

/-- Binding several keys, one after the other. -/
lemma foldl_set_zip_mapKeys (ks : List κ) (as : List α) (bs : Bindings κ α) :
    ((ks.zip as).foldl (fun bs p => set p.1 p.2 bs) bs).map
        (fun p => (g p.1, f p.2)) =
      ((ks.map g).zip (as.map f)).foldl (fun bs p => set p.1 p.2 bs)
        (bs.map fun p => (g p.1, f p.2)) := by
  induction ks generalizing as bs with
  | nil => rfl
  | cons k ks ih =>
      cases as with
      | nil => rfl
      | cons a as =>
          simp only [List.map_cons, List.zip_cons_cons, List.foldl_cons]
          rw [ih, set_mapKeys hg]

end

/-- Where the values are mapped, so is what a key is bound to. -/
lemma get?_map {β : Type} (f : α → β) (k : κ) (bs : Bindings κ α) :
    get? k (bs.map fun p => (p.1, f p.2)) = (get? k bs).map f :=
  get?_mapKeys Function.injective_id f k bs

/-! ### Appended bindings -/

/-- A key that is not bound may be bound in the bindings that are appended. -/
lemma get?_append_or (k : κ) (bs cs : Bindings κ α) :
    get? k (bs ++ cs) = (get? k bs).or (get? k cs) := by
  induction bs with
  | nil => rfl
  | cons b bs ih =>
      obtain ⟨j, b⟩ := b
      rw [List.cons_append, get?, get?]
      split
      · rfl
      · exact ih

/-- Where only new keys are bound, a key is bound to what it was bound to
first. -/
lemma get?_setNew_or (k l : κ) (a : α) (bs : Bindings κ α) :
    get? l (setNew k a bs) =
      (get? l bs).or (if k = l then some a else none) := by
  unfold setNew
  split
  · next hk =>
    obtain ⟨b, hb⟩ := Option.isSome_iff_exists.mp hk
    split
    · next hkl => rw [← hkl, hb, Option.some_or]
    · rw [Option.or_none]
  · rw [get?_append_or]
    rfl

/-- Binding only new keys changes nothing that is bound. -/
lemma get?_setNew {l : κ} {b : α} {bs : Bindings κ α} (h : get? l bs = some b)
    (k : κ) (a : α) : get? l (setNew k a bs) = some b := by
  rw [get?_setNew_or, h, Option.some_or]

/-- Nothing but that key with its value is added. -/
lemma mem_setNew {k : κ} {a : α} {bs : Bindings κ α} {p : κ × α}
    (h : p ∈ setNew k a bs) : p ∈ bs ∨ p = (k, a) := by
  unfold setNew at h
  split at h
  · exact Or.inl h
  · exact (List.mem_append.mp h).imp_right List.mem_singleton.mp

/-- No key is listed twice. -/
lemma nodup_keys_setNew {bs : Bindings κ α} (h : (keys bs).Nodup) (k : κ)
    (a : α) : (keys (setNew k a bs)).Nodup := by
  unfold setNew
  split
  · exact h
  · next hk =>
    rw [isSome_get?] at hk
    rw [keys, List.map_append]
    exact h.append (List.nodup_singleton k)
      (List.disjoint_singleton.mpr hk)

/-! ### Dropped keys -/

/-- Where a key is dropped, it is not bound and all others are as before. -/
lemma get?_filter_ne (k l : κ) (bs : Bindings κ α) :
    get? l (bs.filter (·.1 != k)) =
      if k = l then none else get? l bs := by
  induction bs with
  | nil => simp [get?]
  | cons b bs ih =>
      obtain ⟨j, b⟩ := b
      rw [List.filter_cons, get?]
      by_cases hj : j = k
      · rw [if_neg (by simpa using hj), ih, hj]
        by_cases hl : k = l <;> simp [hl]
      · rw [if_pos (by simpa using hj), get?, ih]
        by_cases hl : k = l
        · simp [← hl, hj]
        · simp [hl]

/-! ### Keys bound one after the other -/

/-- What a key was bound to last, where several keys are bound one after the
other. -/
def last? (k : κ) (bs : Bindings κ α) : Option α := get? k bs.reverse

/-- Where several keys are bound one after the other, they are listed in the
order in which they came first. -/
lemma keys_foldl_set (bs : Bindings κ α) :
    keys (bs.foldl (fun cs p => cs.set p.1 p.2) []) = (keys bs).eraseDups := by
  induction bs using List.reverseRecOn with
  | nil => rfl
  | append_singleton bs b ih =>
      have hkeys : keys (bs ++ [b]) = keys bs ++ [b.1] := List.map_append
      rw [List.foldl_append, List.foldl_cons, List.foldl_nil, keys_set, ih,
        hkeys, List.eraseDups_append]
      by_cases hmem : b.1 ∈ keys bs
      · rw [if_pos (List.mem_eraseDups.mpr hmem)]
        simp [hmem, List.removeAll]
      · rw [if_neg (mt List.mem_eraseDups.mp hmem)]
        simp [hmem, List.removeAll, List.eraseDups_cons]

/-- There each key is bound to what it was bound to last. -/
lemma get?_foldl_set_last (k : κ) (bs cs : Bindings κ α) :
    get? k (bs.foldl (fun cs p => cs.set p.1 p.2) cs) =
      (last? k bs).or (get? k cs) := by
  induction bs generalizing cs with
  | nil => rfl
  | cons b bs ih =>
      obtain ⟨j, b⟩ := b
      rw [List.foldl_cons, ih, get?_set, last?, last?, List.reverse_cons,
        get?_append_or, get?, get?]
      cases get? k bs.reverse with
      | some a => simp
      | none => by_cases hj : j = k <;> simp [hj]

/-! ### Distinct keys -/

/-- Where no key is listed twice, a key is bound to what lies there with it. -/
lemma get?_eq_some_iff {k : κ} {a : α} {bs : Bindings κ α}
    (h : (keys bs).Nodup) : get? k bs = some a ↔ (k, a) ∈ bs := by
  refine ⟨mem_of_get?, fun hmem => ?_⟩
  have hkey : k ∈ keys bs := List.mem_map_of_mem hmem
  obtain ⟨b, hb⟩ := Option.isSome_iff_exists.mp ((isSome_get? k bs).mpr hkey)
  have hsame : ((k, b) : κ × α) = (k, a) :=
    List.inj_on_of_nodup_map h (mem_of_get? hb) hmem rfl
  rw [hb, (Prod.mk.inj hsame).2]

/-- There the order does not count. -/
lemma get?_of_perm {bs cs : Bindings κ α} (h : bs.Perm cs)
    (hbs : (keys bs).Nodup) (k : κ) : get? k bs = get? k cs := by
  have hcs : (keys cs).Nodup := (h.map Prod.fst).nodup_iff.mp hbs
  refine Option.ext fun a => ?_
  rw [get?_eq_some_iff hbs, get?_eq_some_iff hcs, h.mem_iff]

/-- Several distinct keys are bound one after the other. -/
lemma get?_foldl_set {bs : Bindings κ α} (h : (keys bs).Nodup) (k : κ)
    (cs : Bindings κ α) :
    get? k (bs.foldl (fun cs p => cs.set p.1 p.2) cs) =
      (get? k bs).or (get? k cs) := by
  rw [get?_foldl_set_last, last?, get?_of_perm bs.reverse_perm.symm h]

/-- They are their keys, each with what it is bound to. -/
lemma eq_filterMap_keys {bs : Bindings κ α} (h : (keys bs).Nodup) :
    bs = (keys bs).filterMap fun k => (get? k bs).map (k, ·) := by
  have hself : ∀ p ∈ bs, (get? p.1 bs).map (p.1, ·) = some p := by
    intro p hp
    rw [(get?_eq_some_iff h).mpr hp, Option.map_some]
  rw [keys, List.filterMap_map]
  exact List.filterMap_some.symm.trans
    (List.filterMap_congr fun p hp => (hself p hp).symm)

end MonkeyLang.Bindings

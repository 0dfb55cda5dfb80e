/-
Related answers, lists and bindings.

* `rel_bind`, `rel_map`, `rel_getD`: related answers, or none, are worked on
  alike; `rel_getElem?`: so are the members of related lists;
* `Outcome E A`: related answers, or related faults;
* `forall₂_mem`, `forall₂_map_eq`: members of related lists, and members that
  are alike under a map; `exists_perm_of_map`: so they are in another order;
* `Bindings.Related R`: two bindings of the same keys in the same order, to
  related things;
* `Related.get?`, `Related.set`, `Related.foldl_set_zip`: what a key is bound
  to, and binding keys.
-/
import MonkeyLang.Bindings
import Mathlib.Data.List.Forall2
import Mathlib.Data.List.Perm.Basic
import Mathlib.Data.Nat.Notation

namespace MonkeyLang

open List (Forall₂)

section

variable {α β γ δ : Type} {R : α → β → Prop} {Q : γ → δ → Prop}

/-- Related answers, or none, are followed by related answers, or none. -/
lemma rel_bind {x : Option α} {y : Option β} {f : α → Option γ}
    {g : β → Option δ} (h : Option.Rel R x y)
    (hfg : ∀ a b, R a b → Option.Rel Q (f a) (g b)) :
    Option.Rel Q (x.bind f) (y.bind g) := by
  cases h with
  | none => exact .none
  | some h => exact hfg _ _ h

lemma rel_map {x : Option α} {y : Option β} {f : α → γ} {g : β → δ}
    (h : Option.Rel R x y) (hfg : ∀ a b, R a b → Q (f a) (g b)) :
    Option.Rel Q (x.map f) (y.map g) := by
  cases h with
  | none => exact .none
  | some h => exact .some (hfg _ _ h)

lemma rel_imp {R' : α → β → Prop} {x : Option α} {y : Option β}
    (h : Option.Rel R x y) (hR : ∀ a b, R a b → R' a b) :
    Option.Rel R' x y := by
  cases h with
  | none => exact .none
  | some h => exact .some (hR _ _ h)

lemma rel_getD {x : Option α} {y : Option β} {a : α} {b : β}
    (h : Option.Rel R x y) (hab : R a b) : R (x.getD a) (y.getD b) := by
  cases h with
  | none => exact hab
  | some h => exact h

lemma rel_isSome {x : Option α} {y : Option β} (h : Option.Rel R x y) :
    x.isSome = y.isSome := by
  cases h <;> rfl

/-- Members at the same place. -/
lemma rel_getElem? {as : List α} {bs : List β} (h : Forall₂ R as bs) (n : ℕ) :
    Option.Rel R as[n]? bs[n]? := by
  induction h generalizing n with
  | nil => exact .none
  | cons hab _ ih =>
      cases n with
      | zero => exact .some hab
      | succ n => exact ih n

/-- Members on the left are members. -/
lemma forall₂_mem {as : List α} {bs : List β} (h : Forall₂ R as bs) :
    Forall₂ (fun a b => a ∈ as ∧ R a b) as bs :=
  (List.forall₂_and_left as bs).mpr ⟨fun _ ha => ha, h⟩

/-- Members with equal images are the members of lists with equal images. -/
lemma forall₂_map_eq {f : α → γ} {g : β → γ} {as : List α} {bs : List β} :
    Forall₂ (fun a b => f a = g b) as bs ↔ as.map f = bs.map g := by
  rw [← List.forall₂_map_right_iff (R := fun a c => f a = c),
    ← List.forall₂_map_left_iff (R := fun c d => c = d),
    List.forall₂_eq_eq_eq]

/-- Lists with the same images in another order have members with equal images,
once those of the second one are put in order. -/
lemma exists_perm_of_map {f : α → γ} {g : β → γ} {as : List α} {bs : List β}
    (h : (as.map f).Perm (bs.map g)) :
    ∃ cs : List β, cs.Perm bs ∧ as.map f = cs.map g := by
  have himages : Forall₂ (fun k b => k = g b) (bs.map g) bs :=
    List.forall₂_map_left_iff.mpr (List.forall₂_same.mpr fun _ _ => rfl)
  obtain ⟨cs, hcs, hperm⟩ := List.perm_comp_forall₂ h himages
  exact ⟨cs, hperm, forall₂_map_eq.mp (List.forall₂_map_left_iff.mp hcs)⟩

end

/-- Related answers, or related faults. -/
inductive Outcome {ε ε' α β : Type} (E : ε → ε' → Prop) (A : α → β → Prop) :
    Except ε α → Except ε' β → Prop where
  | ok {a : α} {b : β} (h : A a b) : Outcome E A (.ok a) (.ok b)
  | error {f : ε} {g : ε'} (h : E f g) : Outcome E A (.error f) (.error g)

/-! ### Bindings -/

namespace Bindings

variable {κ α β : Type} [DecidableEq κ] {R : α → β → Prop}
  {bs : Bindings κ α} {cs : Bindings κ β}

/-- The same keys are bound in the same order, to related things. -/
def Related (R : α → β → Prop) (bs : Bindings κ α) (cs : Bindings κ β) : Prop :=
  Forall₂ (fun b c => b.1 = c.1 ∧ R b.2 c.2) bs cs

namespace Related

/-- A key is bound to related things, or to nothing. -/
lemma get? (h : Related R bs cs) (k : κ) :
    Option.Rel R (bs.get? k) (cs.get? k) := by
  induction h with
  | nil => exact .none
  | @cons b c bs cs hbc _ ih =>
      obtain ⟨j, a⟩ := b
      obtain ⟨j', a'⟩ := c
      obtain ⟨rfl, hab⟩ := hbc
      rw [Bindings.get?, Bindings.get?]
      split
      · exact .some hab
      · exact ih

/-- Binding a key to related things. -/
lemma set (h : Related R bs cs) (k : κ) {a : α} {b : β} (hab : R a b) :
    Related R (bs.set k a) (cs.set k b) := by
  induction h with
  | nil => exact .cons ⟨rfl, hab⟩ .nil
  | @cons p q bs cs hpq hrest ih =>
      obtain ⟨j, x⟩ := p
      obtain ⟨j', y⟩ := q
      obtain ⟨rfl, hxy⟩ := hpq
      rw [Bindings.set, Bindings.set]
      split
      · exact .cons ⟨rfl, hab⟩ hrest
      · exact .cons ⟨rfl, hxy⟩ ih

/-- Binding several keys, one after the other. -/
lemma foldl_set_zip (h : Related R bs cs) (ks : List κ) {as : List α}
    {as' : List β} (has : Forall₂ R as as') :
    Related R ((ks.zip as).foldl (fun bs p => bs.set p.1 p.2) bs)
      ((ks.zip as').foldl (fun cs p => cs.set p.1 p.2) cs) := by
  induction ks generalizing as as' bs cs with
  | nil => exact h
  | cons k ks ih =>
      cases has with
      | nil => exact h
      | cons hab has => exact ih (h.set k hab) has

end Related

end Bindings

end MonkeyLang

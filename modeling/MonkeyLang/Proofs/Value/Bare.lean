/-
Values without the places in their trees.

* `Value.bare`: a value with the places in its quotes forgotten;
* `Value.ClosureFree`: a value in which no function and no macro lies;
* `Renamed.bare_eq`: such values that are the same but for names and places are
  equal without places;
* `Renamed.eq_of_plain`: plain data that is the same but for names and places
  is equal.
-/
import MonkeyLang.Proofs.Value.Relabel
import MonkeyLang.Proofs.Value.Renamed

namespace MonkeyLang.Value

open List (Forall₂)

mutual

/-- The value with the places in its quotes forgotten. -/
def bare : Value → Value
  | array vs => array (bareList vs)
  | hash es => hash (bareEntries es)
  | returned v => returned (bare v)
  | quote n => quote n.bare
  | v => v

/-- The same for several values. -/
def bareList : List Value → List Value
  | [] => []
  | v :: vs => bare v :: bareList vs

/-- The same for the entries of a hash. -/
def bareEntries :
    List (HashKey × Value × Value) → List (HashKey × Value × Value)
  | [] => []
  | (h, k, v) :: es => (h, bare k, bare v) :: bareEntries es

end

lemma bareList_eq_map (vs : List Value) : bareList vs = vs.map bare := by
  induction vs with
  | nil => rfl
  | cons v vs ih => rw [bareList, ih, List.map_cons]

lemma bareEntries_eq_map (es : List (HashKey × Value × Value)) :
    bareEntries es = es.map fun p => (p.1, p.2.1.bare, p.2.2.bare) := by
  induction es with
  | nil => rfl
  | cons p es ih => rw [bareEntries, ih, List.map_cons]

/-- No function and no macro lies in the value. -/
def ClosureFree (v : Value) : Prop :=
  v.Every fun w => w.kind ∉ [Kind.function, .macroFn]

namespace Renamed

variable {ρ : Renaming} {v w : Value}

/-- The members of arrays and the entries of hashes have what is known of all
values that lie in them. -/
lemma forall₂_of_every {P : Value → Prop} {R : Value → Value → Prop}
    {vs ws : List Value} (hvs : (Value.array vs).Every P)
    (h : Forall₂ (fun v w => ∃ _ : Renamed ρ v w, v.Every P → R v w) vs ws) :
    Forall₂ R vs ws :=
  ((List.forall₂_and_left vs ws).mpr
    ⟨fun v hv => (every_iff.mp hvs).2 v (.element hv), h⟩).imp
      fun _ _ ⟨hv, _, hR⟩ => hR hv

lemma entries_of_every {P : Value → Prop} {R : Value → Value → Prop}
    {t u : Table} (ht : (Value.hash t).Every P)
    (h : Forall₂ (Table.Entries fun v w =>
      ∃ _ : Renamed ρ v w, v.Every P → R v w) t u) :
    Forall₂ (Table.Entries R) t u := by
  have hin : ∀ p ∈ t, p.2.1.Every P ∧ p.2.2.Every P := fun p hp =>
    ⟨(every_iff.mp ht).2 _ (.key hp), (every_iff.mp ht).2 _ (.value hp)⟩
  refine ((List.forall₂_and_left t u).mpr ⟨hin, h⟩).imp ?_
  rintro _ _ ⟨hp, ⟨⟨_, hk⟩, ⟨_, hv⟩⟩⟩
  exact .mk (hk hp.1) (hv hp.2)

/-- **Without functions.**  Values without functions and macros that are the
same but for names and places are equal without places. -/
theorem bare_eq (h : Renamed ρ v w) (hv : v.ClosureFree) :
    v.bare = w.bare := by
  induction h using induct with
  | array _ ih =>
      rw [bare, bare, bareList_eq_map, bareList_eq_map,
        forall₂_map_eq.mp (forall₂_of_every hv ih)]
  | hash _ ih =>
      have hentries := (entries_of_every hv ih).imp fun p q hpq =>
        show (p.1, p.2.1.bare, p.2.2.bare) = (q.1, q.2.1.bare, q.2.2.bare) by
          obtain ⟨hk, hv⟩ := hpq
          rw [hk, hv]
      rw [bare, bare, bareEntries_eq_map, bareEntries_eq_map,
        forall₂_map_eq.mp hentries]
  | returned _ ih => rw [bare, bare, ih ((every_iff.mp hv).2 _ .content)]
  | function _ => exact absurd (every_iff.mp hv).1 (by simp [kind])
  | macroFn _ => exact absurd (every_iff.mp hv).1 (by simp [kind])
  | quote h => rw [bare, bare, h]
  | _ => rfl

/-- **Plain data** that is the same but for names and places is equal. -/
theorem eq_of_plain (h : Renamed ρ v w) (hv : v.Plain) : v = w := by
  induction h using induct with
  | array _ ih =>
      have hmembers := forall₂_of_every (R := Eq) hv ih
      rw [List.forall₂_eq_eq_eq] at hmembers
      rw [hmembers]
  | hash _ ih =>
      have hentries := (entries_of_every hv ih).imp fun p q hpq =>
        show p = q by
          obtain ⟨rfl, rfl⟩ := hpq
          rfl
      rw [List.forall₂_eq_eq_eq] at hentries
      rw [hentries]
  | returned _ ih => rw [ih ((every_iff.mp hv).2 _ .content)]
  | function _ => exact absurd (every_iff.mp hv).1 (by simp [kind])
  | macroFn _ => exact absurd (every_iff.mp hv).1 (by simp [kind])
  | quote _ => exact absurd (every_iff.mp hv).1 (by simp [kind])
  | _ => rfl

end Renamed

end MonkeyLang.Value

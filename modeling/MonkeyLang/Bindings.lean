/-
Bindings: finite maps that list their keys in the order in which they were
first bound.

* `Bindings.get?`: what a key is bound to;
* `Bindings.set`: binds a key; a key that is bound already keeps its place;
* `Bindings.setNew`: binds a key unless it is bound already;
* `get?_set`: a key is bound to what it was bound to last;
* `keys_set`: only a new key is added, at the end.
-/

namespace MonkeyLang

/-- A map from keys to what they are bound to, as a list in the order of
first binding. -/
abbrev Bindings (κ α : Type) := List (κ × α)

namespace Bindings

variable {κ α : Type} [DecidableEq κ]

/-- What a key is bound to. -/
def get? (k : κ) : Bindings κ α → Option α
  | [] => none
  | (j, a) :: bs => if j = k then some a else get? k bs

/-- Binds a key.  A key that is bound already keeps its place. -/
def set (k : κ) (a : α) : Bindings κ α → Bindings κ α
  | [] => [(k, a)]
  | (j, b) :: bs => if j = k then (k, a) :: bs else (j, b) :: set k a bs

/-- Binds a key unless it is bound already. -/
def setNew (k : κ) (a : α) (bs : Bindings κ α) : Bindings κ α :=
  if (get? k bs).isSome then bs else bs ++ [(k, a)]

/-- The keys in the order of first binding. -/
def keys (bs : Bindings κ α) : List κ := bs.map (·.1)

/-! ### What binding does -/

/-- A key is bound to what it was bound to last; all others stay. -/
theorem get?_set (k l : κ) (a : α) (bs : Bindings κ α) :
    get? l (set k a bs) = if k = l then some a else get? l bs := by
  induction bs with
  | nil => simp [set, get?]
  | cons b bs ih =>
    obtain ⟨j, b⟩ := b
    by_cases hj : j = k <;> by_cases hl : k = l <;> simp_all [set, get?]

/-- A key is bound exactly when it is listed. -/
theorem isSome_get? (k : κ) (bs : Bindings κ α) :
    (get? k bs).isSome = true ↔ k ∈ keys bs := by
  induction bs with
  | nil => simp [get?, keys]
  | cons b bs ih =>
    obtain ⟨j, b⟩ := b
    by_cases hj : j = k
    · simp [get?, keys, hj]
    · simpa [get?, keys, hj, Ne.symm hj] using ih

/-- Binding adds a new key at the end and lists an old one where it was. -/
theorem keys_set (k : κ) (a : α) (bs : Bindings κ α) :
    keys (set k a bs) = if k ∈ keys bs then keys bs else keys bs ++ [k] := by
  induction bs with
  | nil => simp [set, keys]
  | cons b bs ih =>
    obtain ⟨j, b⟩ := b
    by_cases hj : j = k
    · simp [set, keys, hj]
    · have hk : k ∈ keys ((j, b) :: bs) ↔ k ∈ keys bs := by
        simp [keys, Ne.symm hj]
      have hset : keys (set k a ((j, b) :: bs)) = j :: keys (set k a bs) := by
        simp [set, keys, hj]
      rw [hset, ih]
      by_cases hmem : k ∈ keys bs <;> simp only [hk, hmem, if_true, if_false] <;>
        rfl

/-- No key is listed twice. -/
theorem nodup_keys_set {k : κ} {a : α} {bs : Bindings κ α}
    (h : (keys bs).Nodup) : (keys (set k a bs)).Nodup := by
  rw [keys_set]
  split
  · exact h
  · next hk =>
    rw [List.nodup_append]
    refine ⟨h, by simp, fun l hl l' hl' => ?_⟩
    simp only [List.mem_singleton] at hl'
    rintro rfl
    exact hk (hl' ▸ hl)

end Bindings

end MonkeyLang

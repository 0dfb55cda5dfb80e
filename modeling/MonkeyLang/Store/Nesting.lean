/-
How the frames of a store lie in each other.

* `Store.Nested`: every frame lies in one that was made before it;
* `nested_empty`, `Nested.addFrame`, `Nested.bind`: a store starts so and
  stays so;
* `chain_eq`: a chain is its first frame and the chain of the one around
  it;
* `lookup_eq`: a name is looked up in its frame, then in the one around it;
  `lookup_root`: or in its frame alone.
-/
import MonkeyLang.Store

namespace MonkeyLang.Store

/-- Every frame lies in one that was made before it. -/
def Nested (s : Store) : Prop :=
  ∀ (e : Nat) (f : Frame) (o : Nat),
    s.frames[e]? = some f → f.outer = some o → o < e

/-! ### Stores stay nested -/

/-- Nothing lies in anything at the start. -/
theorem nested_empty : Nested empty := by
  intro e f o hf _
  simp [empty] at hf

/-- A new frame may lie in any frame there is. -/
theorem Nested.addFrame {s : Store} (h : s.Nested)
    (bindings : Bindings String Value) {outer : Option Nat}
    (houter : ∀ o, outer = some o → o < s.frames.size) :
    (s.addFrame bindings outer).2.Nested := by
  intro e f o hf ho
  simp only [Store.addFrame, Array.getElem?_push] at hf
  split at hf
  · next he =>
    cases hf
    exact he ▸ houter o ho
  · exact h e f o hf ho

/-- Binding a name moves no frame. -/
theorem Nested.bind {s : Store} (h : s.Nested) (e : Nat) (name : String)
    (v : Value) : (s.bind e name v).Nested := by
  intro d f o hf ho
  simp only [Store.bind, Array.getElem?_modify] at hf
  split at hf
  · obtain ⟨g, hg, rfl⟩ := Option.map_eq_some_iff.1 hf
    exact h d g o hg ho
  · exact h d f o hf ho

/-! ### Chains -/

/-- Beyond the last frame there is nothing. -/
theorem chainUpTo_none (s : Store) (n : Nat) : s.chainUpTo n none = [] := by
  cases n <;> rfl

/-- There is room for a whole chain once there is room for as many frames
as were made up to its first. -/
theorem chainUpTo_eq_chain {s : Store} (h : s.Nested) {n e : Nat}
    (he : e < n) : s.chainUpTo n (some e) = s.chain e := by
  induction e using Nat.strongRecOn generalizing n with
  | ind e ih =>
    obtain ⟨n, rfl⟩ : ∃ k, n = k + 1 := ⟨n - 1, by omega⟩
    simp only [chain, chainUpTo]
    cases hf : s.frames[e]? with
    | none => rfl
    | some f =>
      simp only [List.cons.injEq, true_and]
      cases ho : f.outer with
      | none => rw [chainUpTo_none, chainUpTo_none]
      | some o =>
        have hlt : o < e := h e f o hf ho
        rw [ih o hlt (by omega), ih o hlt hlt]

/-- A chain is its first frame and the chain of the frame around that. -/
theorem chain_eq {s : Store} (h : s.Nested) {e : Nat} {f : Frame}
    (hf : s.frames[e]? = some f) :
    s.chain e = f :: (f.outer.map s.chain).getD [] := by
  rw [chain, chainUpTo, hf]
  cases ho : f.outer with
  | none => simp [ho, chainUpTo_none]
  | some o => simp [ho, chainUpTo_eq_chain h (h e f o hf ho)]

/-- A name that its frame does not have is looked up in the frame around
it. -/
theorem lookup_eq {s : Store} (h : s.Nested) {e : Nat} {f : Frame}
    (hf : s.frames[e]? = some f) (name : String) :
    s.lookup e name =
      (Bindings.get? name f.bindings).or (f.outer.bind (s.lookup · name)) := by
  rw [lookup, chain_eq h hf, List.findSome?_cons]
  cases Bindings.get? name f.bindings with
  | some v => rfl
  | none => cases f.outer <;> rfl

/-- A name has what its frame has if there is no frame around that. -/
theorem lookup_root {s : Store} {e : Nat} {f : Frame}
    (hf : s.frames[e]? = some f) (houter : f.outer = none) (name : String) :
    s.lookup e name = Bindings.get? name f.bindings := by
  rw [lookup, chain, chainUpTo, hf, List.findSome?_cons, houter, chainUpTo_none,
    List.findSome?_nil]
  cases Bindings.get? name f.bindings <;> rfl

end MonkeyLang.Store

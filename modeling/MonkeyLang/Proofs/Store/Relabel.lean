/-
Stores with other names.

* `Store.relabel π`: a store with `π` applied to all names that its frames bind
  and to the identifiers in all values that they bind;
* `Store.Relabelled π p q s t`: `t` has the frames of `s`, relabelled, and
  behind `p` and `q` both have printed the same values, but for names;
* `Relabelled.lookup`, `Relabelled.bind`, `Relabelled.enter`,
  `Relabelled.print`: looking up and binding a name, the frame of a call and
  printing values on both sides.
-/
import MonkeyLang.Eval.Basic
import MonkeyLang.Proofs.Store.Bound
import MonkeyLang.Proofs.Value.Relabel
import MonkeyLang.Value.Text

namespace MonkeyLang

/-- A map that goes with two changes of a member. -/
lemma map_modify {α β : Type} {g : α → β} {f : α → α} {f' : β → β}
    (hf : ∀ a, g (f a) = f' (g a)) (as : Array α) (i : ℕ) :
    (as.modify i f).map g = (as.map g).modify i f' := by
  refine Array.ext_getElem? fun j => ?_
  rw [Array.getElem?_map, Array.getElem?_modify, Array.getElem?_modify,
    Array.getElem?_map]
  split
  · simp [Option.map_map, Function.comp_def, hf]
  · rfl

variable (π : Equiv.Perm String)

/-- The bindings of the parameters of a relabelled function. -/
lemma parameterBindings_relabel {c : Closure} (hc : c.Named)
    (args : List Value) :
    parameterBindings (c.relabel π).names (args.map (Value.relabel π)) =
      (parameterBindings c.names args).map
        fun p => (π p.1, p.2.relabel π) := by
  rw [hc.names_relabel]
  exact (Bindings.foldl_set_zip_mapKeys π.injective _ _ _ []).symm

/-! ### Stores -/

/-- The frame with other names for what it binds and in what it binds. -/
def Frame.relabel (f : Frame) : Frame :=
  { f with bindings := f.bindings.map fun p => (π p.1, p.2.relabel π) }

namespace Store

/-- The store with other names in all its frames; what is printed is
printed. -/
def relabel (s : Store) : Store :=
  { s with frames := s.frames.map (Frame.relabel π) }

/-- One store has the frames of another one, relabelled.  Behind `p` and `q`
both have printed the same values, relabelled on one side. -/
structure Relabelled (p q : Array String) (s t : Store) : Prop where
  frames : t.frames = s.frames.map (Frame.relabel π)
  closures : t.closures = s.closures
  named : s.Bound Value.Named
  printed : ∃ handed : List Value,
    s.printed = p ++ (handed.map Value.text).toArray ∧
    t.printed = q ++ (handed.map fun v => (v.relabel π).text).toArray

/-- Frames of relabelled values. -/
lemma Bound.relabel {s : Store} (h : s.Bound Value.Named) :
    (s.relabel π).Bound Value.Named := by
  intro e f hf b hb
  change (s.frames.map _)[e]? = some f at hf
  rw [Array.getElem?_map] at hf
  obtain ⟨g, hg, rfl⟩ := Option.map_eq_some_iff.mp hf
  obtain ⟨c, hc, rfl⟩ := List.mem_map.mp hb
  exact (h e g hg c hc).relabel π

namespace Relabelled

variable {π} {p q : Array String} {s t : Store}

/-- The first store is the other one, relabelled with the inverse
permutation. -/
lemma symm (h : s.Relabelled π p q t) : t.Relabelled π.symm q p s where
  frames := by
    have hframe : ∀ f : Frame, (f.relabel π).relabel π.symm = f := by
      intro f
      have hbindings : (f.bindings.map fun b => (π b.1, b.2.relabel π)).map
          (fun b => (π.symm b.1, b.2.relabel π.symm)) = f.bindings := by
        rw [List.map_map]
        refine (List.map_congr_left fun b _ => ?_).trans (List.map_id _)
        exact Prod.ext (π.symm_apply_apply b.1)
          (Value.relabel_relabel_symm π b.2)
      simp only [Frame.relabel, hbindings]
    have hid : Frame.relabel π.symm ∘ Frame.relabel π = id := funext hframe
    rw [h.frames, Array.map_map, hid, Array.map_id]
  closures := h.closures.symm
  named := by
    have hbound := h.named.relabel π
    intro e f hf
    exact hbound e f (by rw [← hf, h.frames]; rfl)
  printed := by
    obtain ⟨handed, hs, ht⟩ := h.printed
    refine ⟨handed.map (Value.relabel π), ?_, ?_⟩
    · rw [ht, List.map_map]
      rfl
    · simp only [hs, List.map_map, Function.comp_def,
        Value.relabel_relabel_symm]

/-! ### Names -/

lemma chainUpTo (h : s.Relabelled π p q t) (n : ℕ) (e : Option ℕ) :
    t.chainUpTo n e = (s.chainUpTo n e).map (Frame.relabel π) := by
  induction n generalizing e with
  | zero => rfl
  | succ n ih =>
      cases e with
      | none => rfl
      | some e =>
          rw [Store.chainUpTo, Store.chainUpTo, h.frames, Array.getElem?_map]
          cases s.frames[e]? with
          | none => rfl
          | some f => exact congrArg _ (ih f.outer)

/-- **Lookup.**  The new name has the value of the old one, relabelled. -/
theorem lookup (h : s.Relabelled π p q t) (e : ℕ) (name : String) :
    t.lookup e (π name) = (s.lookup e name).map (Value.relabel π) := by
  have hget : ∀ f : Frame, Bindings.get? (π name) (f.relabel π).bindings =
      (Bindings.get? name f.bindings).map (Value.relabel π) := fun f =>
    Bindings.get?_mapKeys π.injective _ name f.bindings
  rw [Store.lookup, Store.lookup, chain, chain, h.chainUpTo,
    List.findSome?_map, List.map_findSome?]
  exact congrArg (List.findSome? · _) (funext hget)

/-- Binding the old name and binding the new one. -/
lemma bind (h : s.Relabelled π p q t) (e : ℕ) (name : String) {v : Value}
    (hv : v.Named) :
    (s.bind e name v).Relabelled π p q (t.bind e (π name) (v.relabel π)) where
  frames := by
    simp only [Store.bind, h.frames]
    refine (map_modify (fun f => ?_) s.frames e).symm
    simp only [Frame.relabel, Bindings.set_mapKeys π.injective]
  closures := h.closures
  named := h.named.bind e name hv
  printed := h.printed

/-! ### Frames, closures and lines -/

/-- The number of the next frame is the same. -/
lemma size_eq (h : s.Relabelled π p q t) : t.frames.size = s.frames.size := by
  rw [h.frames, Array.size_map]

/-- The frame of a call. -/
lemma enter (h : s.Relabelled π p q t) {c : Closure} (hc : c.Named)
    {args : List Value} (hargs : ∀ a ∈ args, a.Named) :
    (s.addFrame (parameterBindings c.names args) (some c.frame)).2.Relabelled
      π p q (t.addFrame (parameterBindings (c.relabel π).names
        (args.map (Value.relabel π))) (some (c.relabel π).frame)).2 where
  frames := by
    show t.frames.push _ = (s.frames.push _).map _
    rw [Array.map_push, h.frames, parameterBindings_relabel π hc]
    rfl
  closures := h.closures
  named := h.named.addFrame
    (fun _ hb => hargs _ (mem_parameterBindings hb)) _
  printed := h.printed

lemma close (h : s.Relabelled π p q t) (ps : List Node) (b : Node) (e : ℕ) :
    (s.makeClosure ps b e).2.Relabelled π p q
      (t.makeClosure (ps.map (Node.relabel π)) (b.relabel π) e).2 where
  frames := h.frames
  closures := congrArg (· + 1) h.closures
  named := h.named
  printed := h.printed

/-- The closures that are made. -/
lemma makeClosure_eq (h : s.Relabelled π p q t) (ps : List Node) (b : Node)
    (e : ℕ) : (t.makeClosure (ps.map (Node.relabel π)) (b.relabel π) e).1 =
      (s.makeClosure ps b e).1.relabel π := by
  simp only [makeClosure, Closure.relabel, h.closures]

/-- A value, and the relabelled one, printed as a line. -/
lemma print (h : s.Relabelled π p q t) (v : Value) :
    (s.print v.text).Relabelled π p q (t.print (v.relabel π).text) where
  frames := h.frames
  closures := h.closures
  named := h.named
  printed := by
    obtain ⟨handed, hs, ht⟩ := h.printed
    refine ⟨handed ++ [v], ?_, ?_⟩
    · show s.printed.push v.text = _
      rw [hs, List.map_append]
      simp
    · show t.printed.push (v.relabel π).text = _
      rw [ht, List.map_append]
      simp

end Relabelled

end Store

end MonkeyLang

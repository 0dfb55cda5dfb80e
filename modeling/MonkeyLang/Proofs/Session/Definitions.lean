/-
What definitions of macros change.

* `Node.definition?`: the last definition of a name;
* `Frame.Defines`, `Store.Defines`: of the frames there were only that of the
  macros is another one, in which each name that is defined has the macro of its
  last definition;
* `Session.defines_defined`, `Session.defines_prepared`: so it is when
  definitions are bound one after the other, and when those of an input are.
-/
import MonkeyLang.Proofs.Session.Phases

namespace MonkeyLang

/-- The parameters and the body of the last macro that is defined with this
name. -/
def Node.definition? (name : String) :
    List (String × List Node × Node) → Option (List Node × Node)
  | [] => none
  | d :: ds => (definition? name ds).or (if d.1 = name then some d.2 else none)

/-- In the second frame each name that is defined has the macro of its last
definition, which lies in the frame `macros`, and every other name has what
it has in the first one. -/
structure Frame.Defines (macros : ℕ) (ds : List (String × List Node × Node))
    (f g : Frame) : Prop where
  outer : g.outer = f.outer
  defined : ∀ name params body,
    Node.definition? name ds = some (params, body) →
      ∃ id, Bindings.get? name g.bindings =
        some (.macroFn ⟨id, params, body, macros⟩)
  kept : ∀ name, Node.definition? name ds = none →
    Bindings.get? name g.bindings = Bindings.get? name f.bindings

/-- Of the frames of the first store the second one has all: the frame of the
macros with definitions bound, every other one as it was. -/
structure Store.Defines (macros : ℕ) (ds : List (String × List Node × Node))
    (s t : Store) : Prop where
  size_le : s.frames.size ≤ t.frames.size
  others : ∀ d, d < s.frames.size → d ≠ macros → t.frames[d]? = s.frames[d]?
  own : ∀ f, s.frames[macros]? = some f →
    ∃ g, t.frames[macros]? = some g ∧ f.Defines macros ds g

section

variable {macros : ℕ} {ds : List (String × List Node × Node)}

/-- A definition before others is bound first. -/
lemma Frame.Defines.cons {f g : Frame} (d : String × List Node × Node)
    (id : ℕ) (h : Frame.Defines macros ds
      ⟨f.bindings.set d.1 (.macroFn ⟨id, d.2.1, d.2.2, macros⟩), f.outer⟩ g) :
    f.Defines macros (d :: ds) g := by
  refine ⟨h.outer, fun name params body hdef => ?_, fun name hdef => ?_⟩
  · rw [Node.definition?] at hdef
    rcases hlast : Node.definition? name ds with _ | last
    · rw [hlast, Option.none_or] at hdef
      split at hdef
      · next hname =>
        have hd : d.2 = (params, body) := Option.some.inj hdef
        refine ⟨id, ?_⟩
        rw [h.kept name hlast, Bindings.get?_set, if_pos hname, hd]
      · cases hdef
    · rw [hlast, Option.some_or] at hdef
      exact h.defined name params body (hlast.trans hdef)
  · rw [Node.definition?, Option.or_eq_none_iff] at hdef
    obtain ⟨hlast, hname⟩ := hdef
    rw [h.kept name hlast, Bindings.get?_set, if_neg]
    intro hd
    rw [if_pos hd] at hname
    cases hname

/-- What comes after the definitions may add frames. -/
lemma Store.Defines.mono {s t u : Store} (h : s.Defines macros ds t)
    (hmacros : macros < s.frames.size) (hle : s.frames.size ≤ u.frames.size)
    (hsame : ∀ d, d < s.frames.size → u.frames[d]? = t.frames[d]?) :
    s.Defines macros ds u where
  size_le := hle
  others d hd hne := (hsame d hd).trans (h.others d hd hne)
  own f hf := by
    obtain ⟨g, hg, hdefines⟩ := h.own f hf
    exact ⟨g, (hsame macros hmacros).trans hg, hdefines⟩

end

namespace Session

/-- Definitions are bound among the macros, and nothing else is. -/
lemma defines_defined (ds : List (String × List Node × Node)) (s : Session) :
    (s.defined ds).store.frames.size = s.store.frames.size ∧
      s.store.Defines s.macros ds (s.defined ds).store := by
  induction ds generalizing s with
  | nil =>
      exact ⟨rfl, Nat.le_refl _, fun _ _ _ => rfl,
        fun f hf => ⟨f, hf, rfl, nofun, fun _ _ => rfl⟩⟩
  | cons d ds ih =>
      obtain ⟨hsize, hdefines⟩ := ih (s.defineMacro d.1 d.2.1 d.2.2)
      have hfirst : ∀ e : ℕ,
          (s.defineMacro d.1 d.2.1 d.2.2).store.frames[e]? =
            if s.macros = e then (s.store.frames[e]?).map fun f =>
              ⟨f.bindings.set d.1 (.macroFn
                ⟨s.store.closures, d.2.1, d.2.2, s.macros⟩), f.outer⟩
            else s.store.frames[e]? := fun e => Array.getElem?_modify
      have hsame : (s.defineMacro d.1 d.2.1 d.2.2).store.frames.size =
          s.store.frames.size := Array.size_modify
      refine ⟨hsize.trans hsame, hsame ▸ hdefines.size_le,
        fun e he hne => ?_, fun f hf => ?_⟩
      · have hrest := hdefines.others e (hsame.symm ▸ he) hne
        rw [hfirst, if_neg (Ne.symm hne)] at hrest
        exact hrest
      · obtain ⟨g, hg, hframe⟩ := hdefines.own _
          ((hfirst s.macros).trans (by rw [if_pos rfl, hf]; rfl))
        exact ⟨g, hg, hframe.cons d s.store.closures⟩

/-- So it is with the definitions of an input. -/
lemma defines_prepared (source : String) (n : Node) (s : Session) :
    (s.prepared source n).store.frames.size = s.store.frames.size ∧
      s.store.Defines s.macros n.definitions
        (s.prepared source n).store := by
  have hdefined := defines_defined n.definitions (s.heard source)
  rw [heard_store, heard_macros] at hdefined
  exact hdefined

end Session

end MonkeyLang

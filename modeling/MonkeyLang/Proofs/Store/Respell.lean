/-
Stores of two runs that differ in the names of identifiers.

* `Frame.Respelled π r σ`: frames that bind related values, one under the names
  that `σ` gives for those of the other one;
* `Store.Respelled π quiet r s t`: so it is with every frame and every
  permutation that `r` reads it with; if the runs are quiet, they have printed
  the same;
* `Respelled.lookup`: a name and the one that a reading gives for it have
  related values;
* `Respelled.bind`, `Respelled.enter`, `Respelled.close`, `Respelled.print`:
  binding a name that all readings keep, the frame of a call, a closure and a
  line on both sides.
-/
import MonkeyLang.Eval.Basic
import MonkeyLang.Proofs.Value.Respell
import MonkeyLang.Store.Nesting
import Mathlib.Data.Set.Insert
import Mathlib.Logic.Function.Basic

namespace MonkeyLang

open List (Forall₂)

/-! ### More frames -/

namespace Reading

/-- A reading of one frame more, with one permutation. -/
def add (r : Reading) (n : ℕ) (σ : Equiv.Perm String) : Reading :=
  ⟨Function.update r.frame n {σ}⟩

variable {r : Reading} {n : ℕ} {σ : Equiv.Perm String}

lemma frame_add_self (r : Reading) (n : ℕ) (σ : Equiv.Perm String) :
    (r.add n σ).frame n = {σ} := Function.update_self ..

lemma frame_add_of_ne {e : ℕ} (he : e ≠ n) :
    (r.add n σ).frame e = r.frame e := Function.update_of_ne he ..

lemma le_add (hn : r.frame n = ∅) : r ≤ r.add n σ := by
  intro e he
  refine frame_add_of_ne ?_
  rintro rfl
  rw [hn] at he
  exact Set.not_nonempty_empty he

end Reading

/-! ### Frames -/

variable {π σ : Equiv.Perm String} {r r' : Reading} {quiet : Bool}

/-- The same frame with other names and related values; it lies in one that may
be read with the same permutation. -/
structure Frame.Respelled (π : Equiv.Perm String) (r : Reading)
    (σ : Equiv.Perm String) (f g : Frame) : Prop where
  bindings : Bindings.Related (Value.Respelled π r)
    (f.bindings.map fun b => (σ b.1, b.2)) g.bindings
  outer : f.outer = g.outer
  reads : ∀ o, f.outer = some o → σ ∈ r.frame o

lemma Frame.Respelled.mono (hr : r ≤ r') {f g : Frame}
    (h : f.Respelled π r σ g) : f.Respelled π r' σ g where
  bindings := h.bindings.imp fun _ _ h => ⟨h.1, h.2.mono hr⟩
  outer := h.outer
  reads o ho := Reading.mem_mono hr (h.reads o ho)

/-- The frames of calls of a closure and of the one with other names. -/
lemma Frame.Respelled.entered {c : Closure} (hc : c.Named)
    (hσ : σ ∈ r.frame c.frame) {args args' : List Value}
    (hargs : Forall₂ (Value.Respelled π r) args args') :
    Frame.Respelled π r σ ⟨parameterBindings c.names args, some c.frame⟩
      ⟨parameterBindings (c.respell σ).names args', some c.frame⟩ where
  bindings := by
    have hnames : (parameterBindings c.names args).map
          (fun b => (σ b.1, b.2)) =
        parameterBindings (c.names.map σ) (args.map id) :=
      Bindings.foldl_set_zip_mapKeys σ.injective id c.names args []
    rw [hc.names_respell, hnames, List.map_id]
    exact Bindings.Related.foldl_set_zip .nil _ hargs
  outer := rfl
  reads := by
    rintro _ ⟨⟩
    exact hσ

namespace Store

/-- Stores that are the same but for names: every frame that is read has other
names in the other one, those that any of its readings gives.  If the runs are
quiet, they have printed the same. -/
structure Respelled (π : Equiv.Perm String) (quiet : Bool) (r : Reading)
    (s t : Store) : Prop where
  frames : ∀ e, ∀ σ ∈ r.frame e, ∃ f g, s.frames[e]? = some f ∧
    t.frames[e]? = some g ∧ f.Respelled π r σ g
  readings : ∀ e, ∀ σ ∈ r.frame e, σ = π ∨ σ = .refl _
  size : s.frames.size = t.frames.size
  closures : s.closures = t.closures
  nested : s.Nested ∧ t.Nested
  printed : quiet = true → s.printed = t.printed

namespace Respelled

variable {s t : Store} {e : ℕ}

/-- Frames that are read are there. -/
lemma lt (h : s.Respelled π quiet r t) (hσ : σ ∈ r.frame e) :
    e < s.frames.size := by
  obtain ⟨f, -, hf, -⟩ := h.frames e σ hσ
  exact (Array.getElem?_eq_some_iff.mp hf).1

/-- The next frame is not read yet. -/
lemma unread (h : s.Respelled π quiet r t) : r.frame s.frames.size = ∅ :=
  Set.eq_empty_iff_forall_notMem.mpr fun _ hσ => Nat.lt_irrefl _ (h.lt hσ)

/-! ### Names -/

/-- **Lookup.**  A name and the one that a reading of the frame gives for it have
related values, or none. -/
theorem lookup (h : s.Respelled π quiet r t) (hσ : σ ∈ r.frame e)
    (name : String) :
    Option.Rel (Value.Respelled π r) (s.lookup e name)
      (t.lookup e (σ name)) := by
  -- by induction over the frame: outer links lead to lower positions, and the
  -- reading of a frame is one of its outer frame
  induction e using Nat.strongRecOn with
  | ind e ih =>
    obtain ⟨f, g, hf, hg, hfg⟩ := h.frames e σ hσ
    have hget := hfg.bindings.get? (σ name)
    -- readings are injective, so that the name is found among the renamed ones
    -- just where it was
    have hkeys : Bindings.get? (σ name)
          (f.bindings.map fun b => (σ b.1, b.2)) =
        Bindings.get? name f.bindings :=
      (Bindings.get?_mapKeys σ.injective id name _).trans
        (congrFun Option.map_id _)
    rw [hkeys] at hget
    rw [lookup_eq h.nested.1 hf, lookup_eq h.nested.2 hg, ← hfg.outer]
    generalize Bindings.get? name f.bindings = x,
      Bindings.get? (σ name) g.bindings = y at hget
    cases hget with
    | some hxy => exact .some hxy
    | none =>
        cases ho : f.outer with
        | none => exact .none
        | some o => exact ih o (h.nested.1 e f o hf ho) (hfg.reads o ho)

/-- Binding a name that all readings of the frame keep. -/
lemma bind (h : s.Respelled π quiet r t) (e : ℕ) {name : String}
    (hname : ∀ σ ∈ r.frame e, σ name = name) {v w : Value}
    (hvw : v.Respelled π r w) :
    (s.bind e name v).Respelled π quiet r (t.bind e name w) where
  frames d σ hσ := by
    obtain ⟨f, g, hf, hg, hfg⟩ := h.frames d σ hσ
    show ∃ f g, (s.frames.modify e _)[d]? = _ ∧
      (t.frames.modify e _)[d]? = _ ∧ _
    rw [Array.getElem?_modify, Array.getElem?_modify, hf, hg]
    by_cases hde : e = d
    · subst hde
      have hkeys := Bindings.set_mapKeys σ.injective id name v f.bindings
      simp only [id_eq, hname σ hσ] at hkeys
      rw [if_pos rfl, if_pos rfl]
      refine ⟨_, _, rfl, rfl, ?_, hfg.outer, hfg.reads⟩
      rw [hkeys]
      exact hfg.bindings.set name hvw
    · rw [if_neg hde, if_neg hde]
      exact ⟨f, g, rfl, rfl, hfg⟩
  readings := h.readings
  size := by
    show (s.frames.modify e _).size = (t.frames.modify e _).size
    rw [Array.size_modify, Array.size_modify, h.size]
  closures := h.closures
  nested := ⟨h.nested.1.bind e name v, h.nested.2.bind e name w⟩
  printed := h.printed

/-! ### Frames, closures and lines -/

/-- The frame of a call is read with the permutation that the function is. -/
lemma enter (h : s.Respelled π quiet r t) {c : Closure} (hc : c.Named)
    (hσ : σ ∈ r.frame c.frame) {args args' : List Value}
    (hargs : Forall₂ (Value.Respelled π r) args args') :
    (s.addFrame (parameterBindings c.names args) (some c.frame)).2.Respelled π
      quiet (r.add s.frames.size σ) (t.addFrame
        (parameterBindings (c.respell σ).names args') (some c.frame)).2 where
  frames e τ hτ := by
    show ∃ f g, (s.frames.push _)[e]? = some f ∧
      (t.frames.push _)[e]? = some g ∧ _
    rw [Array.getElem?_push, Array.getElem?_push, ← h.size]
    -- the new frame has one reading, that of the function; the others have
    -- those that they had
    by_cases he : e = s.frames.size
    · subst he
      rw [Reading.frame_add_self, Set.mem_singleton_iff] at hτ
      subst hτ
      rw [if_pos rfl, if_pos rfl]
      exact ⟨_, _, rfl, rfl, (Frame.Respelled.entered hc hσ hargs).mono
        (Reading.le_add h.unread)⟩
    · rw [Reading.frame_add_of_ne he] at hτ
      obtain ⟨f, g, hf, hg, hfg⟩ := h.frames e τ hτ
      rw [if_neg he, if_neg he]
      exact ⟨f, g, hf, hg, hfg.mono (Reading.le_add h.unread)⟩
  readings e τ hτ := by
    by_cases he : e = s.frames.size
    · subst he
      rw [Reading.frame_add_self, Set.mem_singleton_iff] at hτ
      exact hτ ▸ h.readings _ σ hσ
    · rw [Reading.frame_add_of_ne he] at hτ
      exact h.readings e τ hτ
  size := by
    show (s.frames.push _).size = (t.frames.push _).size
    rw [Array.size_push, Array.size_push, h.size]
  closures := h.closures
  nested := by
    have hlt := h.lt hσ
    refine ⟨h.nested.1.addFrame _ ?_, h.nested.2.addFrame _ ?_⟩
    · rintro _ ⟨⟩
      exact hlt
    · rintro _ ⟨⟩
      exact h.size ▸ hlt
  printed := h.printed

/-- Closures get the same number. -/
lemma close (h : s.Respelled π quiet r t) (hσ : σ ∈ r.frame e)
    {ps : List Node} {b : Node} (hps : ∀ p ∈ ps, p.kind = .ident)
    (hb : b.Readable π σ) :
    (s.makeClosure ps b e).1.Respelled π r
        (t.makeClosure (ps.map (Node.respell σ)) (b.respell σ) e).1 ∧
      (s.makeClosure ps b e).2.Respelled π quiet r
        (t.makeClosure (ps.map (Node.respell σ)) (b.respell σ) e).2 := by
  refine ⟨?_, h.frames, h.readings, h.size, congrArg (· + 1) h.closures,
    h.nested, h.printed⟩
  have hclosure : (t.makeClosure (ps.map (Node.respell σ)) (b.respell σ) e).1 =
      (s.makeClosure ps b e).1.respell σ := by
    simp only [makeClosure, Closure.respell, h.closures]
  rw [hclosure]
  exact .mk hσ hps hb

lemma print (h : s.Respelled π quiet r t) {text text' : String}
    (htext : quiet = true → text = text') :
    (s.print text).Respelled π quiet r (t.print text') where
  frames := h.frames
  readings := h.readings
  size := h.size
  closures := h.closures
  nested := h.nested
  printed hquiet := by
    show s.printed.push text = t.printed.push text'
    rw [h.printed hquiet, htext hquiet]

end Respelled

end Store

end MonkeyLang

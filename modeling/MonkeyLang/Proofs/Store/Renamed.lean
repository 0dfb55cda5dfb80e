/-
Stores of two runs that are the same but for names and places.

* `Store.Renamed p q ρ s t`: the frames that `ρ` matches have the same names
  bound to related values and lie in matched frames, and behind `p` and `q`
  both stores have printed the same;
* `Renamed.lookup`: a name has related values in matched frames, or none;
* `Renamed.bind`, `Renamed.enter`, `Renamed.close`, `Renamed.print`: binding a
  name, the frame of a call, a closure and a line on both sides;
* `Renamed.transfer`: frames that are not matched may be others;
* `Store.Lockstep S`: the relation `S` goes along with all that evaluation
  does to two stores, and `lockstep_renamed`: this one does.
-/
import MonkeyLang.Eval.Basic
import MonkeyLang.Proofs.Value.Renamed
import MonkeyLang.Store.Nesting

namespace MonkeyLang

open List (Forall₂)

/-- Frames with the same names in the same order, bound to related values, in
matched frames. -/
structure Frame.Renamed (ρ : Renaming) (f g : Frame) : Prop where
  bindings : Bindings.Related (Value.Renamed ρ) f.bindings g.bindings
  outer : Option.Rel ρ.frames.pair f.outer g.outer

lemma Frame.Renamed.mono {ρ ρ' : Renaming} (hρ : ρ ≤ ρ') {f g : Frame}
    (h : f.Renamed ρ g) : f.Renamed ρ' g where
  bindings := h.bindings.imp fun _ _ h => ⟨h.1, h.2.mono hρ⟩
  outer := rel_imp h.outer hρ.1

/-- The frames of calls of related closures. -/
lemma Closure.Renamed.entered {ρ : Renaming} {c d : Closure}
    (hc : c.Renamed ρ d) {args args' : List Value}
    (hargs : Forall₂ (Value.Renamed ρ) args args') :
    Frame.Renamed ρ ⟨parameterBindings c.names args, some c.frame⟩
      ⟨parameterBindings d.names args', some d.frame⟩ where
  bindings := by
    have hnames : c.names = d.names := Node.map_name_of_bare hc.params
    rw [hnames]
    exact Bindings.Related.foldl_set_zip .nil _ hargs
  outer := .some hc.frame

namespace Store

/-- Stores that are the same but for names and places, as far as names are
matched; behind `p` and `q` they have printed the same. -/
structure Renamed (p q : Array String) (ρ : Renaming) (s t : Store) : Prop where
  frames : ∀ e e', ρ.frames.pair e e' → ∃ f g, s.frames[e]? = some f ∧
    t.frames[e']? = some g ∧ f.Renamed ρ g
  closures : ρ.closures.Below s.closures t.closures
  nested : s.Nested ∧ t.Nested
  printed : ∃ out, s.printed = p ++ out ∧ t.printed = q ++ out

namespace Renamed

variable {p q : Array String} {ρ : Renaming} {s t : Store} {e e' : ℕ}

/-- Matched frames are there. -/
lemma below (h : s.Renamed p q ρ t) :
    ρ.frames.Below s.frames.size t.frames.size := by
  intro e e' he
  obtain ⟨f, g, hf, hg, -⟩ := h.frames e e' he
  exact ⟨(Array.getElem?_eq_some_iff.mp hf).1,
    (Array.getElem?_eq_some_iff.mp hg).1⟩

/-! ### Names -/

/-- **Lookup.**  From matched frames a name has related values, or none. -/
theorem lookup (h : s.Renamed p q ρ t) (he : ρ.frames.pair e e')
    (name : String) :
    Option.Rel (Value.Renamed ρ) (s.lookup e name) (t.lookup e' name) := by
  induction e using Nat.strongRecOn generalizing e' with
  | ind e ih =>
    obtain ⟨f, g, hf, hg, hfg⟩ := h.frames e e' he
    have hget := hfg.bindings.get? name
    have houter := hfg.outer
    have hnested := h.nested.1 e f
    rw [lookup_eq h.nested.1 hf, lookup_eq h.nested.2 hg]
    generalize Bindings.get? name f.bindings = x,
      Bindings.get? name g.bindings = y at hget
    generalize f.outer = o, g.outer = o' at houter hnested
    cases hget with
    | some hxy => exact .some hxy
    | none =>
        cases houter with
        | none => exact .none
        | some ho => exact ih _ (hnested _ hf rfl) ho

/-- Binding a name to related values. -/
lemma bind (h : s.Renamed p q ρ t) (he : ρ.frames.pair e e') (name : String)
    {v w : Value} (hvw : v.Renamed ρ w) :
    (s.bind e name v).Renamed p q ρ (t.bind e' name w) where
  frames d d' hd := by
    obtain ⟨f, g, hf, hg, hfg⟩ := h.frames d d' hd
    show ∃ f g, (s.frames.modify e _)[d]? = _ ∧
      (t.frames.modify e' _)[d']? = _ ∧ _
    rw [Array.getElem?_modify, Array.getElem?_modify, hf, hg]
    by_cases hde : e = d
    · rw [if_pos hde, if_pos ((ρ.frames.oneToOne he hd).mp hde)]
      exact ⟨_, _, rfl, rfl, hfg.bindings.set name hvw, hfg.outer⟩
    · rw [if_neg hde, if_neg (mt (ρ.frames.oneToOne he hd).mpr hde)]
      exact ⟨f, g, rfl, rfl, hfg⟩
  closures := h.closures
  nested := ⟨h.nested.1.bind e name v, h.nested.2.bind e' name w⟩
  printed := h.printed

/-! ### Frames and closures -/

/-- A new frame on both sides is matched. -/
lemma pushFrame (h : s.Renamed p q ρ t) {f g : Frame} (hfg : f.Renamed ρ g) :
    (s.addFrame f.bindings f.outer).2.Renamed p q (ρ.addFrame h.below)
      (t.addFrame g.bindings g.outer).2 := by
  have hle : ρ ≤ ρ.addFrame h.below := ρ.le_addFrame h.below
  have houter : (∀ o, f.outer = some o → o < s.frames.size) ∧
      ∀ o, g.outer = some o → o < t.frames.size := by
    have houter := hfg.outer
    generalize f.outer = o, g.outer = o' at houter
    cases houter with
    | none => exact ⟨nofun, nofun⟩
    | some ho =>
        have hlt := h.below _ _ ho
        refine ⟨?_, ?_⟩
        · rintro _ ⟨⟩
          exact hlt.1
        · rintro _ ⟨⟩
          exact hlt.2
  refine ⟨?_, h.closures, ⟨h.nested.1.addFrame _ houter.1,
    h.nested.2.addFrame _ houter.2⟩, h.printed⟩
  rintro e e' (he | ⟨rfl, rfl⟩)
  · obtain ⟨k, l, hk, hl, hkl⟩ := h.frames e e' he
    have hlt := h.below e e' he
    refine ⟨k, l, ?_, ?_, hkl.mono hle⟩
    · show (s.frames.push _)[e]? = _
      rw [Array.getElem?_push, if_neg (Nat.ne_of_lt hlt.1), hk]
    · show (t.frames.push _)[e']? = _
      rw [Array.getElem?_push, if_neg (Nat.ne_of_lt hlt.2), hl]
  · refine ⟨f, g, ?_, ?_, hfg.mono hle⟩
    · exact Array.getElem?_push_size
    · exact Array.getElem?_push_size

lemma addFrame (h : s.Renamed p q ρ t) {f g : Frame} (hfg : f.Renamed ρ g) :
    ∃ ρ', ρ ≤ ρ' ∧ ρ'.frames.pair s.frames.size t.frames.size ∧
      (s.addFrame f.bindings f.outer).2.Renamed p q ρ'
        (t.addFrame g.bindings g.outer).2 :=
  ⟨_, ρ.le_addFrame h.below, Or.inr ⟨rfl, rfl⟩, h.pushFrame hfg⟩

/-- The frames of calls of related closures are matched. -/
lemma enter (h : s.Renamed p q ρ t) {c d : Closure} (hc : c.Renamed ρ d)
    {args args' : List Value} (hargs : Forall₂ (Value.Renamed ρ) args args') :
    ∃ ρ', ρ ≤ ρ' ∧ ρ'.frames.pair s.frames.size t.frames.size ∧
      (s.addFrame (parameterBindings c.names args) (some c.frame)).2.Renamed
        p q ρ'
        (t.addFrame (parameterBindings d.names args') (some d.frame)).2 :=
  h.addFrame (hc.entered hargs)

/-- One more closure on both sides is matched. -/
lemma countClosure (h : s.Renamed p q ρ t) (ps ps' : List Node) (b b' : Node)
    (e e' : ℕ) :
    (s.makeClosure ps b e).2.Renamed p q (ρ.addClosure h.closures)
      (t.makeClosure ps' b' e').2 where
  frames d d' hd := by
    obtain ⟨f, g, hf, hg, hfg⟩ := h.frames d d' hd
    exact ⟨f, g, hf, hg, hfg.mono (ρ.le_addClosure h.closures)⟩
  closures := h.closures.add
  nested := h.nested
  printed := h.printed

/-- Closures of such functions are related. -/
lemma close (h : s.Renamed p q ρ t) (he : ρ.frames.pair e e')
    {ps ps' : List Node} {b b' : Node}
    (hps : ps.map Node.bare = ps'.map Node.bare) (hb : b.bare = b'.bare) :
    ∃ ρ', ρ ≤ ρ' ∧
      (s.makeClosure ps b e).1.Renamed ρ' (t.makeClosure ps' b' e').1 ∧
      (s.makeClosure ps b e).2.Renamed p q ρ'
        (t.makeClosure ps' b' e').2 :=
  ⟨_, ρ.le_addClosure h.closures, ⟨Or.inr ⟨rfl, rfl⟩, hps, hb, he⟩,
    h.countClosure ps ps' b b' e e'⟩

lemma print (h : s.Renamed p q ρ t) (text : String) :
    (s.print text).Renamed p q ρ (t.print text) where
  frames := h.frames
  closures := h.closures
  nested := h.nested
  printed := by
    obtain ⟨out, hs, ht⟩ := h.printed
    refine ⟨out.push text, ?_, ?_⟩
    · show s.printed.push text = _
      rw [hs, Array.push_append]
    · show t.printed.push text = _
      rw [ht, Array.push_append]

/-! ### Frames that are not matched -/

/-- Frames that are not matched may be others. -/
lemma transfer (h : s.Renamed p q ρ t) {s' t' : Store} {p' q' : Array String}
    (hframes : ∀ d d', ρ.frames.pair d d' →
      s'.frames[d]? = s.frames[d]? ∧ t'.frames[d']? = t.frames[d']?)
    (hclosures : ρ.closures.Below s'.closures t'.closures)
    (hnested : s'.Nested ∧ t'.Nested)
    (hprinted : ∃ out, s'.printed = p' ++ out ∧ t'.printed = q' ++ out) :
    s'.Renamed p' q' ρ t' where
  frames e e' he := by
    obtain ⟨f, g, hf, hg, hfg⟩ := h.frames e e' he
    obtain ⟨hs, ht⟩ := hframes e e' he
    exact ⟨f, g, hs.trans hf, ht.trans hg, hfg⟩
  closures := hclosures
  nested := hnested
  printed := hprinted

/-- If nothing was printed on one side nothing was on the other one. -/
lemma silent (h : s.Renamed p q ρ t) (hs : s.printed = p) : t.printed = q := by
  obtain ⟨out, hout, hout'⟩ := h.printed
  have hnone : out = #[] := Array.append_right_inj p |>.mp (by
    rw [← hout, hs, Array.append_empty])
  rw [hout', hnone, Array.append_empty]

end Renamed

/-! ### Relations that evaluation keeps -/

/-- Related stores have related values for names in matched frames, and stay
related when evaluation does the same to both: it binds a name, prints a line,
or makes a frame or a closure, which may then be matched. -/
structure Lockstep (S : Renaming → Store → Store → Prop) : Prop where
  lookup : ∀ {ρ s t}, S ρ s t → ∀ {e e'}, ρ.frames.pair e e' → ∀ name,
    Option.Rel (Value.Renamed ρ) (s.lookup e name) (t.lookup e' name)
  bind : ∀ {ρ s t}, S ρ s t → ∀ {e e'}, ρ.frames.pair e e' → ∀ name {v w},
    Value.Renamed ρ v w → S ρ (s.bind e name v) (t.bind e' name w)
  print : ∀ {ρ s t}, S ρ s t → ∀ text, S ρ (s.print text) (t.print text)
  enter : ∀ {ρ s t}, S ρ s t → ∀ {c d : Closure}, c.Renamed ρ d →
    ∀ {args args'}, Forall₂ (Value.Renamed ρ) args args' →
      ∃ ρ', ρ ≤ ρ' ∧ ρ'.frames.pair s.frames.size t.frames.size ∧
        S ρ' (s.addFrame (parameterBindings c.names args) (some c.frame)).2
          (t.addFrame (parameterBindings d.names args') (some d.frame)).2
  close : ∀ {ρ s t}, S ρ s t → ∀ {e e'}, ρ.frames.pair e e' →
    ∀ {ps ps' : List Node} {b b' : Node},
      ps.map Node.bare = ps'.map Node.bare → b.bare = b'.bare →
      ∃ ρ', ρ ≤ ρ' ∧
        (s.makeClosure ps b e).1.Renamed ρ' (t.makeClosure ps' b' e').1 ∧
        S ρ' (s.makeClosure ps b e).2 (t.makeClosure ps' b' e').2

/-- Stores that are the same but for names stay so. -/
lemma lockstep_renamed (p q : Array String) : Lockstep (Renamed p q) where
  lookup h _ _ := h.lookup
  bind h _ _ he name _ _ := h.bind he name
  print h := h.print
  enter h _ _ hc _ _ := h.enter hc
  close h _ _ he _ _ _ _ := h.close he

end Store

end MonkeyLang

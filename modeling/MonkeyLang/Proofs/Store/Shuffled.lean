/-
Stores whose frames list their bindings in other orders.

* `Frame.Shuffled`, `Store.Shuffled`: the same names are bound to the same
  values in each frame, whatever the order;
* `Shuffled.lookup`: a name has the same value there;
* `Store.bindAll`: binds several names, and `Shuffled.bindAll`: in any order;
* `Store.Reordered p q ρ s t`: stores that are the same but for names, places
  and the order of bindings; `lockstep_reordered`: they stay so whatever
  evaluation does to both.
-/
import MonkeyLang.Proofs.Bindings
import MonkeyLang.Proofs.Store.Renamed

namespace MonkeyLang

/-- The same bindings as maps, in the same frame. -/
structure Frame.Shuffled (f g : Frame) : Prop where
  outer : g.outer = f.outer
  bindings : ∀ name,
    Bindings.get? name g.bindings = Bindings.get? name f.bindings

lemma Frame.Shuffled.refl (f : Frame) : f.Shuffled f := ⟨rfl, fun _ => rfl⟩

namespace Store

/-- Each frame has the same bindings, maybe in another order. -/
structure Shuffled (s t : Store) : Prop where
  frames : ∀ e : ℕ, Option.Rel Frame.Shuffled s.frames[e]? t.frames[e]?
  closures : t.closures = s.closures
  printed : t.printed = s.printed

namespace Shuffled

variable {s t : Store}

lemma refl (s : Store) : s.Shuffled s where
  frames e := by
    cases s.frames[e]? with
    | none => exact .none
    | some f => exact .some (.refl f)
  closures := rfl
  printed := rfl

lemma size_eq (h : s.Shuffled t) : t.frames.size = s.frames.size := by
  have hbeyond : ∀ e : ℕ, t.frames.size ≤ e ↔ s.frames.size ≤ e := fun e => by
    have hframe := h.frames e
    rw [← Array.getElem?_eq_none_iff, ← Array.getElem?_eq_none_iff]
    generalize s.frames[e]? = x, t.frames[e]? = y at hframe
    cases hframe <;> simp
  have hs := hbeyond s.frames.size
  have ht := hbeyond t.frames.size
  omega

/-- A name has the same value. -/
lemma lookup (h : s.Shuffled t) (e : ℕ) (name : String) :
    t.lookup e name = s.lookup e name := by
  have hchain : ∀ n o, (t.chainUpTo n o).findSome?
      (fun f => Bindings.get? name f.bindings) =
        (s.chainUpTo n o).findSome? fun f => Bindings.get? name f.bindings := by
    intro n
    induction n with
    | zero => exact fun _ => rfl
    | succ n ih =>
        rintro (_ | e)
        · rfl
        have hframe := h.frames e
        rw [chainUpTo, chainUpTo]
        generalize s.frames[e]? = x, t.frames[e]? = y at hframe
        cases hframe with
        | none => rfl
        | some hfg =>
            rw [List.findSome?_cons, List.findSome?_cons, hfg.bindings,
              hfg.outer, ih]
  exact hchain _ _

lemma bind (h : s.Shuffled t) (e : ℕ) (name : String) (v : Value) :
    (s.bind e name v).Shuffled (t.bind e name v) where
  frames d := by
    show Option.Rel _ (s.frames.modify e _)[d]? (t.frames.modify e _)[d]?
    rw [Array.getElem?_modify, Array.getElem?_modify]
    split
    · exact rel_map (h.frames d) fun f g hfg => ⟨hfg.outer, fun l => by
        rw [Bindings.get?_set, Bindings.get?_set, hfg.bindings]⟩
    · exact h.frames d
  closures := h.closures
  printed := h.printed

lemma addFrame (h : s.Shuffled t) (bs : Bindings String Value)
    (outer : Option ℕ) :
    (s.addFrame bs outer).2.Shuffled (t.addFrame bs outer).2 where
  frames e := by
    show Option.Rel _ (s.frames.push _)[e]? (t.frames.push _)[e]?
    rw [Array.getElem?_push, Array.getElem?_push, h.size_eq]
    split
    · exact .some (.refl _)
    · exact h.frames e
  closures := h.closures
  printed := h.printed

end Shuffled

/-! ### Several bindings -/

/-- Binds several names in a frame, one after the other. -/
def bindAll (e : ℕ) (bs : Bindings String Value) (s : Store) : Store :=
  bs.foldl (fun s p => s.bind e p.1 p.2) s

section

variable {s t : Store} {bs cs : Bindings String Value}

lemma closures_bindAll (e : ℕ) (bs : Bindings String Value) (s : Store) :
    (bindAll e bs s).closures = s.closures := by
  induction bs generalizing s with
  | nil => rfl
  | cons b bs ih => exact ih (s.bind e b.1 b.2)

lemma printed_bindAll (e : ℕ) (bs : Bindings String Value) (s : Store) :
    (bindAll e bs s).printed = s.printed := by
  induction bs generalizing s with
  | nil => rfl
  | cons b bs ih => exact ih (s.bind e b.1 b.2)

lemma frames_bindAll (e : ℕ) (bs : Bindings String Value) (s : Store) (d : ℕ) :
    (bindAll e bs s).frames[d]? = if e = d then s.frames[d]?.map fun f =>
        { f with bindings :=
          bs.foldl (fun cs p => cs.set p.1 p.2) f.bindings }
      else s.frames[d]? := by
  induction bs generalizing s with
  | nil => simp [bindAll]
  | cons b bs ih =>
      refine (ih (s.bind e b.1 b.2)).trans ?_
      rw [bind, Array.getElem?_modify]
      split
      · rw [Option.map_map]
        rfl
      · rfl

/-- Binding the same names to related values. -/
lemma Renamed.bindAll {p q : Array String} {ρ : Renaming}
    (h : s.Renamed p q ρ t) {e e' : ℕ} (he : ρ.frames.pair e e')
    (hbs : Bindings.Related (Value.Renamed ρ) bs cs) :
    (s.bindAll e bs).Renamed p q ρ (t.bindAll e' cs) := by
  induction hbs generalizing s t with
  | nil => exact h
  | @cons b c bs cs hbc _ ih =>
      obtain ⟨hname, hvw⟩ := hbc
      refine ih (s := s.bind e b.1 b.2) (t := t.bind e' c.1 c.2) ?_
      rw [← hname]
      exact h.bind he b.1 hvw

/-- Binding distinct names in another order. -/
lemma Shuffled.bindAll (h : s.Shuffled t) (e : ℕ) (hbs : bs.Perm cs)
    (hnames : (Bindings.keys bs).Nodup) :
    (s.bindAll e bs).Shuffled (t.bindAll e cs) where
  frames d := by
    rw [frames_bindAll, frames_bindAll]
    split
    · refine rel_map (h.frames d) fun f g hfg => ⟨hfg.outer, fun name => ?_⟩
      rw [Bindings.get?_foldl_set hnames, Bindings.get?_foldl_set
        ((hbs.map Prod.fst).nodup_iff.mp hnames), hfg.bindings,
        Bindings.get?_of_perm hbs hnames]
    · exact h.frames d
  closures := by rw [closures_bindAll, closures_bindAll, h.closures]
  printed := by rw [printed_bindAll, printed_bindAll, h.printed]

end

/-! ### Names and order -/

/-- Stores that are the same but for names and places and the order of the
bindings in each frame. -/
def Reordered (p q : Array String) (ρ : Renaming) (s t : Store) : Prop :=
  ∃ u, s.Renamed p q ρ u ∧ u.Shuffled t

/-- They stay so. -/
lemma lockstep_reordered (p q : Array String) : Lockstep (Reordered p q) where
  -- the store in the middle is renamed from the first and shuffled to the
  -- second; what evaluation does goes through both
  lookup := by
    rintro ρ s t ⟨u, hs, ht⟩ e e' he name
    rw [ht.lookup]
    exact hs.lookup he name
  bind := by
    rintro ρ s t ⟨u, hs, ht⟩ e e' he name v w hvw
    exact ⟨_, hs.bind he name hvw, ht.bind e' name w⟩
  print := by
    rintro ρ s t ⟨u, hs, ht⟩ text
    refine ⟨_, hs.print text, ht.frames, ht.closures, ?_⟩
    show t.printed.push text = u.printed.push text
    rw [ht.printed]
  enter := by
    rintro ρ s t ⟨u, hs, ht⟩ c d hc args args' hargs
    obtain ⟨ρ', hρ, he, hs'⟩ := hs.enter hc hargs
    rw [ht.size_eq]
    exact ⟨ρ', hρ, he, _, hs', ht.addFrame _ _⟩
  close := by
    rintro ρ s t ⟨u, hs, ht⟩ e e' he ps ps' b b' hps hb
    obtain ⟨ρ', hρ, hc, hs'⟩ := hs.close he hps hb
    refine ⟨ρ', hρ, ?_, _, hs', ht.frames, ?_, ht.printed⟩
    · show Closure.Renamed ρ' _ ⟨t.closures, ps', b', e'⟩
      rw [ht.closures]
      exact hc
    · show t.closures + 1 = u.closures + 1
      rw [ht.closures]

end Store

end MonkeyLang

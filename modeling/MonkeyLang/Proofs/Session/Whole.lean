/-
Nothing in a session leads out of its store.

* `Store.Whole`: all frames and closures that a store leads to are there, that
  is, the store is the same as itself when each of them is matched with itself;
* `Renamed.whole`: so is one that is the same as itself when more is matched;
* `Regime.whole`, `whole_lawful`: evaluation keeps this, and takes no frame and
  no closure away;
* `Session.Led.whole`: so do inputs to a session.
-/
import MonkeyLang.Proofs.Session.Regime
import MonkeyLang.Proofs.Store.Renamed

namespace MonkeyLang

/-- One number more is matched with itself. -/
lemma Matching.upTo_succ_le {m : Matching} {n : ℕ} (h : upTo n ≤ m)
    (hn : m.pair n n) : upTo (n + 1) ≤ m := by
  rintro e _ ⟨rfl, he⟩
  rcases Nat.lt_succ_iff_lt_or_eq.mp he with he | rfl
  · exact h e e ⟨rfl, he⟩
  · exact hn

namespace Store

/-! ### Stores that are the same as themselves -/

/-- The frames and the closures that there are, each matched with itself. -/
def identity (s : Store) : Renaming := ⟨.upTo s.frames.size, .upTo s.closures⟩

lemma identity_mono {s t : Store} (hframes : s.frames.size ≤ t.frames.size)
    (hclosures : s.closures ≤ t.closures) : s.identity ≤ t.identity :=
  ⟨fun _ _ he => ⟨he.1, Nat.lt_of_lt_of_le he.2 hframes⟩,
    fun _ _ hc => ⟨hc.1, Nat.lt_of_lt_of_le hc.2 hclosures⟩⟩

/-- All frames and closures that a store leads to are there. -/
def Whole (s : Store) : Prop := s.Renamed #[] #[] s.identity s

namespace Renamed

variable {p q : Array String} {ρ : Renaming} {s : Store}

/-- Where all frames and closures are matched with themselves, nothing else
is. -/
lemma le_identity (h : s.Renamed p q ρ s) (hρ : s.identity ≤ ρ) :
    ρ ≤ s.identity := by
  have hsame {m : Matching} {n : ℕ} (hm : m.Below n n)
      (hle : Matching.upTo n ≤ m) : m ≤ .upTo n := by
    intro e e' he
    have hlt := (hm e e' he).1
    exact ⟨((m.oneToOne (hle e e ⟨rfl, hlt⟩) he).mp rfl), hlt⟩
  exact ⟨hsame h.below hρ.1, hsame h.closures hρ.2⟩

lemma whole (h : s.Renamed p q ρ s) (hρ : s.identity ≤ ρ) : s.Whole where
  frames e e' he := by
    obtain ⟨f, g, hf, hg, hfg⟩ := h.frames e e' (hρ.1 e e' he)
    exact ⟨f, g, hf, hg, hfg.mono (h.le_identity hρ)⟩
  closures := Matching.below_upTo _
  nested := h.nested
  printed := ⟨s.printed, by simp, by simp⟩

end Renamed

namespace Whole

variable {s : Store} (h : s.Whole) {e : ℕ}

include h

lemma lookup (he : e < s.frames.size) {name : String} {v : Value}
    (hv : s.lookup e name = some v) : v.Renamed s.identity v := by
  have hlookup := Renamed.lookup h ⟨rfl, he⟩ name
  rw [hv] at hlookup
  cases hlookup with
  | some hv => exact hv

lemma bind (he : e < s.frames.size) (name : String) {v : Value}
    (hv : v.Renamed s.identity v) : (s.bind e name v).Whole := by
  refine (Renamed.bind h ⟨rfl, he⟩ name hv).whole ?_
  exact identity_mono (Nat.le_of_eq Array.size_modify) (Nat.le_refl _)

lemma print (text : String) : (s.print text).Whole :=
  (Renamed.print h text).whole (le_refl s.identity)

/-- A closure that is made leads to what is there. -/
lemma close (he : e < s.frames.size) (ps : List Node) (b : Node) :
    (s.makeClosure ps b e).2.Whole ∧
      (s.makeClosure ps b e).1.Renamed (s.makeClosure ps b e).2.identity
        (s.makeClosure ps b e).1 := by
  obtain ⟨ρ, hρ, hc, hs⟩ := Renamed.close h ⟨rfl, he⟩
    (Eq.refl (ps.map Node.bare)) (Eq.refl b.bare)
  have hle : (s.makeClosure ps b e).2.identity ≤ ρ :=
    ⟨hρ.1, Matching.upTo_succ_le hρ.2 hc.id⟩
  exact ⟨hs.whole hle, hc.mono (hs.le_identity hle)⟩

/-- So does a frame that is added. -/
lemma addFrame {f : Frame} (hf : f.Renamed s.identity f) :
    (s.addFrame f.bindings f.outer).2.Whole := by
  obtain ⟨ρ, hρ, he, hs⟩ := Renamed.addFrame h hf
  refine hs.whole ⟨?_, hρ.2⟩
  show Matching.upTo (s.frames.push _).size ≤ ρ.frames
  rw [Array.size_push]
  exact Matching.upTo_succ_le hρ.1 he

end Whole

lemma whole_empty : empty.Whole where
  frames e _ he := absurd he.2 (Nat.not_lt_zero e)
  closures := Matching.below_upTo 0
  nested := ⟨nested_empty, nested_empty⟩
  printed := ⟨#[], rfl, rfl⟩

end Store

/-! ### Evaluation -/

/-- The regime in which all that a store leads to is there, and stays; from
the start there are at least `n` frames. -/
def Regime.whole (n : ℕ) : Regime where
  good s := n ≤ s.frames.size ∧ s.Whole
  le s t := s.frames.size ≤ t.frames.size ∧ s.closures ≤ t.closures
  image s := s
  refl _ := ⟨Nat.le_refl _, Nat.le_refl _⟩
  trans h h' := ⟨Nat.le_trans h.1 h'.1, Nat.le_trans h.2 h'.2⟩
  frame s e := e < s.frames.size
  value s v := v.Renamed s.identity v
  tree _ := True
  plain _ := True
  call _ _ := True

/-- Nothing that evaluation is made of leads out of the store. -/
theorem Regime.whole_lawful (n : ℕ) : (Regime.whole n).Lawful where
  frame_mono h he := Nat.lt_of_lt_of_le he h.1
  value_mono h hv := hv.mono (Store.identity_mono h.1 h.2)
  values s := (Value.Renamed.congruence s.identity).formed_refl
  trees := Node.hereditary_true.graded
  literal _ _ n _ := .integer n
  quote _ _ _ := .quote rfl
  syntaxOf _ _ _ _ _ := trivial
  body _ _ _ := trivial
  marked _ _ _ _ _ hv := .returned hv
  unmarked _ _ hv := by
    cases hv with
    | returned hv => exact hv
  -- the results of functions of the language are made of their arguments and of
  -- integers
  result s _ _ _ _ hargs hv :=
    (Value.Renamed.congruence s.identity).formed_refl.result
      (fun _ _ => .integer _) (fun _ _ => .integer _) hargs hv
  lookup _ _ _ hs he := ⟨rfl, fun _ hv => hs.2.lookup he hv⟩
  function _ _ _ ps b hs he _ :=
    have hclose := hs.2.close he ps b
    Ends.modifyGet rfl ⟨hs.1, hclose.1⟩ ⟨Nat.le_refl _, Nat.le_succ _⟩
      (.function hclose.2)
  macroFn _ _ _ ps b hs he _ :=
    have hclose := hs.2.close he ps b
    Ends.modifyGet rfl ⟨hs.1, hclose.1⟩ ⟨Nat.le_refl _, Nat.le_succ _⟩
      (.macroFn hclose.2)
  bind _ _ name _ hs he hv :=
    have hsize := Nat.le_of_eq Array.size_modify.symm
    ⟨rfl, ⟨Nat.le_trans hs.1 hsize, hs.2.bind he name hv⟩, hsize,
      Nat.le_refl _⟩
  print _ text hs :=
    ⟨rfl, ⟨hs.1, hs.2.print text⟩, Nat.le_refl _, Nat.le_refl _⟩
  enter s c args hs hc hargs := by
    have hclosure : c.Renamed s.identity c := by
      rcases hc with hc | hc <;> cases hc <;> assumption
    have hsize : (s.addFrame (parameterBindings c.names args)
        (some c.frame)).2.frames.size = s.frames.size + 1 :=
      Array.size_push _
    have hframe := hclosure.entered (List.forall₂_same.mpr hargs)
    refine Ends.modifyGet rfl ⟨?_, hs.2.addFrame hframe⟩
      ⟨by rw [hsize]; exact Nat.le_succ _, Nat.le_refl _⟩ ?_
    · rw [hsize]
      exact Nat.le_succ_of_le hs.1
    · show s.frames.size < _
      rw [hsize]
      exact Nat.lt_succ_self _

/-! ### Sessions -/

namespace Session

/-- All that a session leads to is there, as are its own frames. -/
structure Whole (s : Session) : Prop where
  store : s.store.Whole
  program : s.program < s.store.frames.size
  macros : s.macros < s.store.frames.size

namespace Whole

variable {s s' : Session} {depth : ℕ} {source : String}

lemma covers (h : s.Whole) :
    (Regime.whole s.store.frames.size).Covers s :=
  ⟨⟨Nat.le_refl _, h.store⟩, h.macros,
    (Regime.whole_lawful _).reads_of_frame fun _ ht =>
      Nat.lt_of_lt_of_le h.macros ht.1⟩

/-- Of inputs nothing is asked. -/
lemma admits (n : ℕ) (aim : Aim) (depth : ℕ) (source : String) (s : Session) :
    (Regime.whole n).Admits aim depth source s where
  definitions _ _ _ _ := ⟨.made .macroKey "macro", trivial⟩
  arguments _ _ _ _ _ _ _ _ _ _ _ := trivial
  program _ _ _ := trivial
  calls _ _ := Regime.permits_of_all (fun _ _ => trivial) _

/-- What may come after a session that is whole. -/
lemma of_follows (h : s.Whole) {n : ℕ} (hs : s'.store.Whole)
    (hle : (Regime.whole n).follows s s') : s'.Whole where
  store := hs
  program := by
    rw [hle.2.1]
    exact Nat.lt_of_lt_of_le h.program hle.1.1
  macros := by
    rw [hle.2.2.1]
    exact Nat.lt_of_lt_of_le h.macros hle.1.1

/-- No definition of an input leads out of the store, and none takes a frame
or a closure away. -/
lemma prepared (h : s.Whole) (source : String) (n : Node) :
    (s.prepared source n).Whole ∧
      (Regime.whole 0).follows s (s.prepared source n) := by
  have hmoves := (Regime.whole_lawful _).moves_prepared #[] source (n := n)
    h.covers fun _ _ => ⟨.made .macroKey "macro", trivial⟩
  exact ⟨h.of_follows hmoves.good.2 hmoves.le, hmoves.le⟩

/-- Nor does the expansion of a tree. -/
theorem expandAll (h : s.Whole) {n : Node} {out : Except MacroFault Node}
    (hrun : Expanding.expandAll depth n s = some (out, s')) :
    s'.Whole ∧ (Regime.whole 0).follows s s' := by
  have hends : Ends ((Regime.whole s.store.frames.size).sessions #[])
      (fun _ _ => True ∧ True) (Expanding.expandAll depth n) s :=
    ((Regime.whole_lawful _).ends_expandAll_of #[] Node.rebuilds_true
      (fun _ _ _ => ⟨trivial, trivial⟩) h.covers.good h.covers.reads trivial
      (fun _ _ _ _ _ _ _ _ _ _ => trivial)
      fun _ _ _ _ _ _ _ _ _ _ _ =>
        Regime.permits_of_all (fun _ _ => trivial) _).2
  have hfollows := hends.le hrun
  exact ⟨h.of_follows (hends.good hrun).2 hfollows, hfollows⟩

/-- Nor does that of an input. -/
theorem expand (h : s.Whole) {out : Except Failure Node}
    (hrun : s.expand depth source = some (out, s')) :
    s'.Whole ∧ (Regime.whole 0).follows s s' := by
  obtain ⟨hgood, hle⟩ := (Regime.whole_lawful _).expand h.covers
    (admits _ .expand depth source s) hrun
  exact ⟨h.of_follows hgood.2 hle, hle⟩

/-- Nor does the evaluation of a program. -/
theorem eval (h : s.Whole) {n : Node} {result : Except Fault (Option Value)}
    {store : Store}
    (hrun : MonkeyLang.eval depth n s.program s.store = some (result, store)) :
    Whole { s with store } ∧ (Regime.whole 0).follows s { s with store } := by
  have hends := (Regime.whole_lawful s.store.frames.size).ends
    (p := ⟨depth, .eval n s.program, s.store⟩)
    (Regime.permits_of_all (fun _ _ => trivial) _) ⟨Nat.le_refl _, h.store⟩
    ⟨h.program, trivial⟩
  have hfollows : (Regime.whole 0).follows s { s with store } :=
    ⟨hends.le hrun, rfl, rfl, rfl⟩
  exact ⟨h.of_follows (hends.good hrun).2 hfollows, hfollows⟩

lemma evaluate (h : s.Whole) {out : Except Failure (Option Value)}
    (hrun : s.evaluate depth source = some (out, s')) : s'.Whole := by
  rcases evaluate_inv hrun with
    ⟨f, hexpand, -⟩ | ⟨n, t, result, store, hexpand, heval, -, rfl⟩
  · exact (h.expand hexpand).1
  · exact ((h.expand hexpand).1.eval heval).1

end Whole

/-- Whatever inputs lead to a session, it is whole. -/
theorem Led.whole {P : Aim → ℕ → String → Session → Prop} {s : Session}
    (h : Led P s) : s.Whole := by
  induction h with
  | start tracing =>
      have hroot : ∀ ρ, Frame.Renamed ρ ⟨[], none⟩ ⟨[], none⟩ := fun _ =>
        ⟨.nil, .none⟩
      exact ⟨(Store.whole_empty.addFrame (hroot _)).addFrame (hroot _),
        Nat.zero_lt_two, Nat.one_lt_two⟩
  | expand _ _ hrun ih => exact (ih.expand hrun).1
  | evaluate _ _ hrun ih => exact ih.evaluate hrun
  | output _ printed events ih =>
      obtain ⟨hstore, hprogram, hmacros⟩ := ih
      exact ⟨⟨hstore.frames, hstore.closures, hstore.nested, printed, by simp,
        by simp⟩, hprogram, hmacros⟩

end Session

end MonkeyLang

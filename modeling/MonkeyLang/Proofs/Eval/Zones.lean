/-
Evaluation that works with some frames only.

* `Frame.LiesIn A`: a frame that leads to no other frames than those with `A`,
  and `Store.Within A`: so does every frame with `A`;
* `Store.exchange g`: a store in which other frames stand, and
  `lookup_exchange`: what is looked up within `A` is the same if `g` leaves the
  frames with `A` as they are;
* `Zone`: the frames that are read and those of them that are written to, among
  which are all that are made from some point on;
* `Regime.zone`, `Zone.lawful`: evaluation within a zone stays there, leaves
  all frames that are not written to as they are, and goes alike when those
  that are not read are exchanged.
-/
import MonkeyLang.Proofs.Eval.Moments
import MonkeyLang.Proofs.Store.Bound

namespace MonkeyLang

/-! ### Frames that lead to some frames only -/

/-- A closure was made in a frame with `A`. -/
def Value.MadeIn (A : ℕ → Prop) : Value → Prop
  | function c | macroFn c => A c.frame
  | _ => True

/-- A frame lies in one with `A`, and all closures bound in it, at any depth,
were made in such frames. -/
structure Frame.LiesIn (A : ℕ → Prop) (f : Frame) : Prop where
  outer : ∀ o, f.outer = some o → A o
  values : ∀ b ∈ f.bindings, Value.Every (Value.MadeIn A) b.2

section

variable {A B : ℕ → Prop}

lemma Value.MadeIn.mono (h : ∀ e, A e → B e) {v : Value} (hv : v.MadeIn A) :
    v.MadeIn B := by
  cases v with
  | function c => exact h _ hv
  | macroFn c => exact h _ hv
  | _ => trivial

lemma Frame.LiesIn.mono (h : ∀ e, A e → B e) {f : Frame} (hf : f.LiesIn A) :
    f.LiesIn B :=
  ⟨fun o ho => h o (hf.outer o ho),
    fun b hb => Value.Every.mono (hf.values b hb) fun _ =>
      Value.MadeIn.mono h⟩

/-- What is made of values made in such frames is such a value. -/
lemma Value.formed_madeIn (A : ℕ → Prop) : Formed (Every (MadeIn A)) := by
  refine formed_every (fun v hv => ?_) (fun _ => trivial) trivial
    fun _ _ _ _ _ _ _ => trivial
  cases v with
  | function c => simp [kind] at hv
  | macroFn c => simp [kind] at hv
  | _ => trivial

/-- So are a marked value and the one that is marked. -/
lemma Value.madeIn_returned {v : Value} :
    Every (MadeIn A) (.returned v) ↔ Every (MadeIn A) v := by
  rw [every_iff (v := .returned v)]
  constructor
  · exact fun h => h.2 v .content
  · refine fun h => ⟨trivial, ?_⟩
    rintro w ⟨⟩
    exact h

namespace Store

variable {s t : Store} {g : ℕ → Frame → Frame}

/-- Every frame with `A` leads to none but frames with `A`. -/
def Within (A : ℕ → Prop) (s : Store) : Prop :=
  ∀ (e : ℕ) (f : Frame), A e → s.frames[e]? = some f → f.LiesIn A

/-- The frames around one with `A` lead to no others. -/
lemma Within.of_mem_chainUpTo (h : s.Within A) {f : Frame} :
    ∀ (n : ℕ) (o : Option ℕ), (∀ e, o = some e → A e) →
      f ∈ s.chainUpTo n o → f.LiesIn A := by
  intro n
  induction n with
  | zero => nofun
  | succ n ih =>
      intro o ho hf
      cases o with
      | none => cases hf
      | some e =>
          rw [chainUpTo] at hf
          split at hf
          · cases hf
          · next k hk =>
            have hlies := h e k (ho e rfl) hk
            rcases List.mem_cons.mp hf with rfl | hf
            · exact hlies
            · exact ih k.outer hlies.outer hf

/-- What is looked up from a frame with `A` was made in such a frame. -/
lemma Within.lookup (h : s.Within A) {e : ℕ} (he : A e) {name : String}
    {v : Value} (hv : s.lookup e name = some v) :
    Value.Every (Value.MadeIn A) v := by
  obtain ⟨f, hf, hget⟩ := List.exists_of_findSome?_eq_some hv
  have hlies := h.of_mem_chainUpTo _ _ (by rintro d ⟨⟩; exact he) hf
  exact hlies.values _ (Bindings.mem_of_get? hget)

/-! ### Other frames in a store -/

/-- A store in which other frames may stand. -/
def exchange (g : ℕ → Frame → Frame) (s : Store) : Store :=
  { s with frames := s.frames.mapIdx g }

lemma getElem?_exchange (g : ℕ → Frame → Frame) (s : Store) (e : ℕ) :
    (s.exchange g).frames[e]? = (s.frames[e]?).map (g e) :=
  Array.getElem?_mapIdx

/-- Around a frame with `A` the frames are the same if those with `A` are left
as they are. -/
lemma chainUpTo_exchange (h : s.Within A) (hg : ∀ e, A e → g e = id) :
    ∀ (n : ℕ) (o : Option ℕ), (∀ e, o = some e → A e) →
      (s.exchange g).chainUpTo n o = s.chainUpTo n o := by
  intro n
  induction n with
  | zero => exact fun _ _ => rfl
  | succ n ih =>
      intro o ho
      cases o with
      | none => rfl
      | some e =>
          rw [chainUpTo, chainUpTo, getElem?_exchange, hg e (ho e rfl),
            Option.map_id_fun, id]
          split
          · rfl
          · next k hk => rw [ih k.outer (h e k (ho e rfl) hk).outer]

lemma lookup_exchange (h : s.Within A) (hg : ∀ e, A e → g e = id) {e : ℕ}
    (he : A e) (name : String) :
    (s.exchange g).lookup e name = s.lookup e name := by
  rw [lookup, chain, chainUpTo_exchange h hg, lookup, chain]
  rintro d ⟨⟩
  exact he

lemma exchange_bind {e : ℕ} (hg : g e = id) (name : String) (v : Value) :
    (s.exchange g).bind e name v = (s.bind e name v).exchange g := by
  simp only [exchange, bind, mk.injEq, and_true]
  refine Array.ext_getElem? fun d => ?_
  rw [Array.getElem?_modify, Array.getElem?_mapIdx, Array.getElem?_mapIdx,
    Array.getElem?_modify]
  by_cases hd : e = d
  · rw [if_pos hd, if_pos hd, ← hd, hg]
    simp
  · rw [if_neg hd, if_neg hd]

lemma exchange_addFrame (hg : g s.frames.size = id)
    (bs : Bindings String Value) (outer : Option ℕ) :
    (s.exchange g).addFrame bs outer =
      ((s.addFrame bs outer).1, (s.addFrame bs outer).2.exchange g) := by
  simp only [exchange, addFrame, Array.size_mapIdx, Array.mapIdx_push, hg, id]

end Store

end

/-! ### Zones -/

/-- The frames that are read, and those of them that are written to: among
them are all that are made from some point on. -/
structure Zone where
  start : ℕ
  reads : ℕ → Prop
  writes : ℕ → Prop
  fresh : ∀ e, start ≤ e → writes e
  reads_of_writes : ∀ e, writes e → reads e

/-- The zone of the frames with `A` and all that are made from some point on,
each of which may be written to. -/
def Zone.around (start : ℕ) (A : ℕ → Prop) : Zone where
  start := start
  reads e := A e ∨ start ≤ e
  writes e := A e ∨ start ≤ e
  fresh _ he := Or.inr he
  reads_of_writes _ he := he

/-- The frames of a zone that a store has. -/
def Zone.live (Z : Zone) (s : Store) (e : ℕ) : Prop :=
  Z.reads e ∧ e < s.frames.size

/-- The regime in which evaluation stays in a zone, with `g` for the frames
that stand elsewhere. -/
def Regime.zone (Z : Zone) (g : ℕ → Frame → Frame) : Regime where
  good s := Z.start ≤ s.frames.size ∧ s.Within (Z.live s)
  le s t := s.frames.size ≤ t.frames.size ∧
    ∀ d : ℕ, ¬ Z.writes d → t.frames[d]? = s.frames[d]?
  image := Store.exchange g
  refl _ := ⟨Nat.le_refl _, fun _ _ => rfl⟩
  trans h h' := ⟨Nat.le_trans h.1 h'.1,
    fun d hd => (h'.2 d hd).trans (h.2 d hd)⟩
  frame s e := Z.writes e ∧ e < s.frames.size
  value s := Value.Every (Value.MadeIn (Z.live s))
  tree _ := True
  plain _ := True
  call _ _ := True

namespace Zone

variable {Z : Zone} {g : ℕ → Frame → Frame} {s t : Store}

lemma live_mono (h : s.frames.size ≤ t.frames.size) (e : ℕ)
    (he : Z.live s e) : Z.live t e :=
  ⟨he.1, Nat.lt_of_lt_of_le he.2 h⟩

/-- What is written to can be read. -/
lemma live_of_writes {e : ℕ} (he : Z.writes e ∧ e < s.frames.size) :
    Z.live s e :=
  ⟨Z.reads_of_writes e he.1, he.2⟩

/-- Binding a value of the zone stays in it. -/
lemma within_bind (h : s.Within (Z.live s)) (e : ℕ) (name : String)
    {v : Value} (hv : Value.Every (Value.MadeIn (Z.live s)) v) :
    (s.bind e name v).Within (Z.live s) := by
  intro d f hd hf
  change (s.frames.modify e _)[d]? = some f at hf
  rw [Array.getElem?_modify] at hf
  split at hf
  · obtain ⟨k, hk, rfl⟩ := Option.map_eq_some_iff.mp hf
    have hlies := h d k hd hk
    refine ⟨hlies.outer, fun b hb => ?_⟩
    rcases Bindings.mem_set hb with rfl | hb
    · exact hv
    · exact hlies.values b hb
  · exact h d f hd hf

/-- So does adding a frame that leads to frames of the zone. -/
lemma within_addFrame (h : s.Within (Z.live s)) {f : Frame}
    (hf : f.LiesIn (Z.live s)) :
    (s.addFrame f.bindings f.outer).2.Within
      (Z.live (s.addFrame f.bindings f.outer).2) := by
  have hmono : ∀ e, Z.live s e →
      Z.live (s.addFrame f.bindings f.outer).2 e := by
    refine live_mono ?_
    show s.frames.size ≤ (s.frames.push _).size
    rw [Array.size_push]
    exact Nat.le_succ _
  intro d k hd hk
  change (s.frames.push _)[d]? = some k at hk
  rw [Array.getElem?_push] at hk
  split at hk
  · cases hk
    exact hf.mono hmono
  · next hne =>
    obtain ⟨hlt, -⟩ := Array.getElem?_eq_some_iff.mp hk
    exact (h d k ⟨hd.1, hlt⟩ hk).mono hmono

/-- **Zones.**  No step of evaluation leaves a zone, whatever stands in frames
that are not read. -/
theorem lawful (hg : ∀ e, Z.reads e → g e = id) :
    (Regime.zone Z g).Lawful where
  frame_mono h he := ⟨he.1, Nat.lt_of_lt_of_le he.2 h.1⟩
  value_mono h hv := Value.Every.mono hv fun _ =>
    Value.MadeIn.mono (live_mono h.1)
  values s := Value.formed_madeIn _
  trees := Node.hereditary_true.graded
  literal _ _ _ _ := Value.every_of_empty trivial nofun
  quote _ _ _ := Value.every_of_empty trivial nofun
  syntaxOf _ _ _ _ _ := trivial
  body _ _ _ := trivial
  marked _ _ _ _ _ hv := Value.madeIn_returned.mpr hv
  unmarked _ _ hv := Value.madeIn_returned.mp hv
  result s _ _ _ _ hargs hv := (Value.formed_madeIn _).result
    (fun _ _ => Value.every_of_empty trivial nofun)
    (fun _ _ => Value.every_of_empty trivial nofun) hargs hv
  lookup s e name hs he :=
    have hlive := live_of_writes he
    ⟨Store.lookup_exchange hs.2 (fun d hd => hg d hd.1) hlive name,
      fun v hv => hs.2.lookup hlive hv⟩
  function s e t ps b hs he _ := Ends.modifyGet rfl hs
    ⟨Nat.le_refl _, fun _ _ => rfl⟩
    (Value.every_of_empty (live_of_writes he) nofun)
  macroFn s e t ps b hs he _ := Ends.modifyGet rfl hs
    ⟨Nat.le_refl _, fun _ _ => rfl⟩
    (Value.every_of_empty (live_of_writes he) nofun)
  bind s e name v hs he hv := by
    have hsize : (s.bind e name v).frames.size = s.frames.size :=
      Array.size_modify
    refine ⟨Store.exchange_bind (hg e (Z.reads_of_writes e he.1)) name v,
      ⟨hsize ▸ hs.1, ?_⟩, Nat.le_of_eq hsize.symm, fun d hd => ?_⟩
    · have hwithin := within_bind hs.2 e name hv
      have hlive : Z.live (s.bind e name v) = Z.live s := by
        funext d
        simp only [live, hsize]
      rw [hlive]
      exact hwithin
    · show (s.frames.modify e _)[d]? = _
      rw [Array.getElem?_modify, if_neg]
      rintro rfl
      exact hd he.1
  print s text hs := ⟨rfl, hs, Nat.le_refl _, fun _ _ => rfl⟩
  enter s c args hs hc hargs := by
    -- a new frame is in the zone, and lies in the one its closure was made in
    have hfresh := Z.fresh s.frames.size hs.1
    have hclosure : Z.live s c.frame :=
      hc.elim (fun hc => hc _ .refl) fun hc => hc _ .refl
    have hlies : Frame.LiesIn (Z.live s)
        ⟨parameterBindings c.names args, some c.frame⟩ := by
      refine ⟨?_, fun b hb => hargs _ (mem_parameterBindings hb)⟩
      rintro o ⟨⟩
      exact hclosure
    have hsize : (s.addFrame (parameterBindings c.names args)
        (some c.frame)).2.frames.size = s.frames.size + 1 :=
      Array.size_push _
    refine Ends.modifyGet (Store.exchange_addFrame
      (hg _ (Z.reads_of_writes _ hfresh)) _ _)
      ⟨by rw [hsize]; exact Nat.le_succ_of_le hs.1, within_addFrame hs.2 hlies⟩
      ⟨by rw [hsize]; exact Nat.le_succ _, fun d hd => ?_⟩
      ⟨hfresh, by rw [hsize]; exact Nat.lt_succ_self _⟩
    show (s.frames.push _)[d]? = _
    rw [Array.getElem?_push, if_neg]
    rintro rfl
    exact hd hfresh

end Zone

end MonkeyLang

/-
Which frames evaluation changes.

* `Frame.Extends`: a frame with more bindings, inside the same one;
* `Store.ChangedIn e`: of the frames there were, only `e` is another one, and
  it is extended;
* `ChangedIn.bind`, `ChangedIn.addFrame`: binding a name in that frame or in
  a newer one and adding a frame change no more;
* `frames_after_eval`: evaluation in a frame changes no other one there is,
  and calling a value changes none.
-/
import MonkeyLang.Proofs.Eval.Stable

namespace MonkeyLang

/-- A frame has the names of another one in their places, maybe bound to
other values, and lies in the same frame. -/
structure Frame.Extends (g f : Frame) : Prop where
  outer : g.outer = f.outer
  names : Bindings.keys f.bindings <+: Bindings.keys g.bindings

lemma Frame.Extends.refl (f : Frame) : f.Extends f :=
  ⟨rfl, List.prefix_refl _⟩

/-- Binding a name extends a frame further. -/
lemma Frame.Extends.set {g f : Frame} (h : g.Extends f) (name : String)
    (v : Value) :
    Frame.Extends { g with bindings := g.bindings.set name v } f :=
  ⟨h.outer, h.names.trans (Bindings.keys_prefix_set name v g.bindings)⟩

namespace Store

/-- Of the frames of the first store the second one has all: the frame `e`
extended, every other one as it was. -/
structure ChangedIn (e : ℕ) (s s' : Store) : Prop where
  size_le : s.frames.size ≤ s'.frames.size
  others : ∀ d, d < s.frames.size → d ≠ e → s'.frames[d]? = s.frames[d]?
  own : ∀ f, s.frames[e]? = some f →
    ∃ g, s'.frames[e]? = some g ∧ g.Extends f

namespace ChangedIn

variable {e : ℕ} {s s' : Store}

lemma refl (e : ℕ) (s : Store) : s.ChangedIn e s :=
  ⟨Nat.le_refl _, fun _ _ _ => rfl, fun f hf => ⟨f, hf, Frame.Extends.refl f⟩⟩

/-- Binding a name in the frame itself, or in one that there was not, changes
no other one. -/
lemma bind (h : s.ChangedIn e s') {d : ℕ} (hd : d = e ∨ s.frames.size ≤ d)
    (name : String) (v : Value) : s.ChangedIn e (s'.bind d name v) := by
  refine ⟨?_, ?_, ?_⟩
  · show s.frames.size ≤ (s'.frames.modify d _).size
    rw [Array.size_modify]
    exact h.size_le
  · intro c hc hce
    have hdc : d ≠ c := by
      rintro rfl
      omega
    show (s'.frames.modify d _)[c]? = s.frames[c]?
    rw [Array.getElem?_modify, if_neg hdc]
    exact h.others c hc hce
  · intro f hf
    obtain ⟨g, hg, hext⟩ := h.own f hf
    show ∃ g, (s'.frames.modify d _)[e]? = some g ∧ g.Extends f
    rw [Array.getElem?_modify, hg]
    by_cases hde : d = e
    · rw [if_pos hde]
      exact ⟨_, rfl, hext.set name v⟩
    · rw [if_neg hde]
      exact ⟨g, rfl, hext⟩

/-- A new frame changes none that there was. -/
lemma addFrame (h : s.ChangedIn e s') (bs : Bindings String Value)
    (outer : Option ℕ) : s.ChangedIn e (s'.addFrame bs outer).2 := by
  have hkept : ∀ (d : ℕ) (f : Frame), s'.frames[d]? = some f →
      (s'.frames.push ⟨bs, outer⟩)[d]? = some f := by
    intro d f hf
    obtain ⟨hd, -⟩ := Array.getElem?_eq_some_iff.mp hf
    rw [Array.getElem?_push, if_neg (Nat.ne_of_lt hd), hf]
  refine ⟨?_, ?_, ?_⟩
  · show s.frames.size ≤ (s'.frames.push _).size
    rw [Array.size_push]
    exact Nat.le_succ_of_le h.size_le
  · intro d hd hde
    have hsame := h.others d hd hde
    rw [Array.getElem?_eq_getElem hd] at hsame ⊢
    exact hkept d _ hsame
  · intro f hf
    obtain ⟨g, hg, hext⟩ := h.own f hf
    exact ⟨g, hkept e g hg, hext⟩

end ChangedIn

end Store

/-! ### Evaluation -/

/-- What a store has of the frames of an earlier one no step of evaluation
can leave: it binds names in the frame it works in, which is `e` or one that
there was not. -/
lemma stable_changedIn (e : ℕ) (s : Store) :
    Stable (fun d => d = e ∨ s.frames.size ≤ d) (s.ChangedIn e)
      (fun _ => True) (fun _ => True) where
  values := Value.closed_true
  nodes := Node.hereditary_true
  literal _ _ _ := trivial
  quote _ _ := trivial
  syntaxOf _ _ _ _ := trivial
  function _ _ _ _ _ _ _ _ := trivial
  macroFn _ _ _ _ _ _ _ _ := trivial
  body _ _ := trivial
  close _ _ _ _ hs := ⟨hs.size_le, hs.others, hs.own⟩
  lookup _ _ _ _ _ _ := trivial
  bind _ _ name v hs hd _ := hs.bind hd name v
  print _ _ hs := ⟨hs.size_le, hs.others, hs.own⟩
  enter _ _ _ hs _ _ := ⟨Or.inr hs.size_le, hs.addFrame _ _⟩

/-- **Frames of their own.**  Evaluating a node in a frame leaves every other
frame that there was as it was, with its bindings and the frame around it,
and of its own frame it drops no name.  Calling a value changes no frame that
there was: whatever its body binds, at any depth, it binds in new frames. -/
theorem frames_after_eval :
    (∀ depth n e s out s', eval depth n e s = some (out, s') →
      s.ChangedIn e s') ∧
    (∀ depth f args s out s', apply depth f args s = some (out, s') →
      ∀ d, d < s.frames.size → s'.frames[d]? = s.frames[d]?) := by
  constructor
  · intro depth n e s out s' hrun
    have hkeeps : Keeps (s.ChangedIn e) _ (eval depth n e) :=
      (stable_changedIn e s).keeps_eval depth (Or.inl rfl) trivial
    exact (hkeeps s out s' (.refl e s) hrun).1
  · intro depth f args s out s' hrun d hd
    -- the number of the next frame stands for a frame of its own
    have hkeeps : Keeps (s.ChangedIn s.frames.size) _ (apply depth f args) :=
      (stable_changedIn s.frames.size s).keeps_apply depth trivial
        fun _ _ => trivial
    have hchanged := (hkeeps s out s' (.refl _ s) hrun).1
    exact hchanged.others d hd (Nat.ne_of_lt hd)

/-- A frame with `x` and one inside it with another `x`. -/
def twoFrames : Store :=
  ⟨#[⟨[("x", .integer 1)], none⟩, ⟨[("x", .integer 2)], some 0⟩], 0, #[]⟩

/-- The statement `let x = 3;`. -/
def letThree : Node :=
  .letStmt (.made .letKey "let") (.made .ident "x")
    (.intLit (.made .int "3") 3)

/-- A function without parameters, made in the outer frame, whose body is the
statement. -/
def bindsThree : Value :=
  .function ⟨0, [], .block (.made .lbrace "\x7b") [letThree], 0⟩

/-- The statement in the inner frame, and a call of the function. -/
theorem frames_after_letThree :
    (∃ out s', eval 2 letThree 1 twoFrames = some (out, s') ∧
      twoFrames.ChangedIn 1 s') ∧
    (∃ out s', apply 3 bindsThree [] twoFrames = some (out, s') ∧
      ∀ d, d < twoFrames.frames.size →
        s'.frames[d]? = twoFrames.frames[d]?) :=
  ⟨⟨_, _, rfl, frames_after_eval.1 2 letThree 1 twoFrames _ _ rfl⟩,
    ⟨_, _, rfl, frames_after_eval.2 3 bindsThree [] twoFrames _ _ rfl⟩⟩

end MonkeyLang

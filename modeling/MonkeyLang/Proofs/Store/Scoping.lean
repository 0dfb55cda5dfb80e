/-
What a name means, told from all that was done to the frames.

* `Store.History`: frames made inside one another and names set and looked up
  in them, one step after the other, from a single frame on;
* `History.outer?`, `History.last?`: which frame a frame was made in, and what
  a name was set to last in it;
* `History.Nearest`: what a name was set to last in the nearest frame, walking
  outward, in which it was ever set;
* `Store.Finds`: the walk of a look-up, with no bound on its length;
* `History.Kept`: a store has the frames that a history leaves; `kept_start`,
  `Kept.enclose`, `Kept.set`, `Kept.get` for each step, and `History.kept`;
* `History.lookup_nearest`: every look-up answers as the history tells, its walk
  ends, and setting a name changes the answers in that frame and those inside it,
  up to where the name is set anew, and no others;
* `History.called`: the frame of a call is one made inside the frame of the
  closure, with the parameters set one after the other.
-/
import MonkeyLang.Eval.Basic
import MonkeyLang.Store.Nesting
import Mathlib.Logic.Relation
import Mathlib.Tactic.Common

namespace MonkeyLang.Store

/-! ### The walk of a look-up -/

/-- A look-up walks from a frame outward until it finds the name or has left
the last frame. -/
inductive Finds (s : Store) (name : String) : Option ℕ → Option Value → Prop
  | beyond : Finds s name none none
  | here {e : ℕ} {f : Frame} {v : Value} (hf : s.frames[e]? = some f)
      (hv : Bindings.get? name f.bindings = some v) :
      Finds s name (some e) (some v)
  | outward {e : ℕ} {f : Frame} {found : Option Value}
      (hf : s.frames[e]? = some f) (hnone : Bindings.get? name f.bindings = none)
      (hrest : Finds s name f.outer found) : Finds s name (some e) found

/-- One walk ends in one way. -/
lemma Finds.unique {s : Store} {name : String} {e : Option ℕ}
    {found found' : Option Value} (h : s.Finds name e found)
    (h' : s.Finds name e found') : found = found' := by
  induction h with
  | beyond => cases h'; rfl
  | here hf hv =>
      cases h' with
      | here hf' hv' =>
          cases hf.symm.trans hf'
          exact hv.symm.trans hv'
      | outward hf' hnone _ =>
          cases hf.symm.trans hf'
          cases hv.symm.trans hnone
  | outward hf hnone _ ih =>
      cases h' with
      | here hf' hv' =>
          cases hf.symm.trans hf'
          cases hnone.symm.trans hv'
      | outward hf' _ hrest' =>
          cases hf.symm.trans hf'
          exact ih hrest'

/-! ### Histories -/

/-- What was done to frames, one step after the other, where `n` of them have
been made: the first one is there from the start, each other one was made inside
one that was there. -/
inductive History : ℕ → Type
  | start : History 1
  | enclose {n : ℕ} (h : History n) (outer : Fin n) : History (n + 1)
  | set {n : ℕ} (h : History n) (e : Fin n) (name : String) (v : Value) :
      History n
  | get {n : ℕ} (h : History n) (e : Fin n) (name : String) : History n

namespace History

variable {n : ℕ}

/-- The store that a history leaves; looking up a name changes nothing. -/
def store {n : ℕ} : History n → Store
  | start => Store.empty.addRoot.2
  | enclose h outer => (h.store.enclose outer).2
  | set h e name v => h.store.bind e name v
  | get h _ _ => h.store

/-- The frame in which a frame was made. -/
def outer? {n : ℕ} : History n → ℕ → Option ℕ
  | start, _ => none
  | @enclose k h outer, e => if e = k then some outer else h.outer? e
  | set h _ _ _, e => h.outer? e
  | get h _ _, e => h.outer? e

/-- What a name was set to last in a frame, if it was ever set there. -/
def last? {n : ℕ} (name : String) : History n → ℕ → Option Value
  | start, _ => none
  | enclose h _, e => h.last? name e
  | set h d k v, e => if d = e ∧ k = name then some v else h.last? name e
  | get h _ _, e => h.last? name e

/-- What a name was set to last in the nearest frame, from a frame outward, in
which it was ever set; nothing if there is no such frame. -/
inductive Nearest (h : History n) (name : String) : ℕ → Option Value → Prop
  | here {e : ℕ} {v : Value} (hlast : h.last? name e = some v) :
      Nearest h name e (some v)
  | outward {e o : ℕ} {found : Option Value} (hlast : h.last? name e = none)
      (hout : h.outer? e = some o) (hrest : Nearest h name o found) :
      Nearest h name e found
  | nowhere {e : ℕ} (hlast : h.last? name e = none) (hout : h.outer? e = none) :
      Nearest h name e none

/-- A frame lies in another one, directly or further out, or is that frame. -/
def Inside (h : History n) : ℕ → ℕ → Prop :=
  Relation.ReflTransGen fun e o => h.outer? e = some o

/-- A frame sees another one under a name: it lies in that one or is it, and on
the way outward the name was never set before. -/
inductive Sees (h : History n) (name : String) (d : ℕ) : ℕ → Prop
  | self : Sees h name d d
  | outward {e o : ℕ} (hlast : h.last? name e = none)
      (hout : h.outer? e = some o) (hrest : Sees h name d o) : Sees h name d e

lemma Sees.inside {h : History n} {name : String} {d e : ℕ}
    (hsees : h.Sees name d e) : h.Inside e d := by
  induction hsees with
  | self => exact .refl
  | outward _ hout _ ih => exact .head hout ih

/-! ### What is left of a history -/

/-- A store has the frames of a history: as many, each in the frame it was made
in and with every name bound to what it was set to last. -/
structure Kept (h : History n) (s : Store) : Prop where
  size : s.frames.size = n
  frame : ∀ e < n, ∃ f, s.frames[e]? = some f ∧ f.outer = h.outer? e ∧
    ∀ name, Bindings.get? name f.bindings = h.last? name e
  inside : ∀ e o, h.outer? e = some o → o < e ∧ e < n
  fresh : ∀ e name, n ≤ e → h.last? name e = none

lemma kept_start : start.Kept Store.empty.addRoot.2 where
  size := rfl
  frame e he := by
    obtain rfl : e = 0 := by omega
    exact ⟨⟨[], none⟩, rfl, rfl, fun _ => rfl⟩
  inside _ _ ho := by cases ho
  fresh _ _ _ := rfl

lemma Kept.enclose {h : History n} {s : Store} (hs : h.Kept s) (outer : Fin n) :
    (h.enclose outer).Kept (s.enclose outer).2 where
  size := by
    show (s.frames.push _).size = n + 1
    rw [Array.size_push, hs.size]
  frame e he := by
    show ∃ f, (s.frames.push _)[e]? = some f ∧
      f.outer = (if e = n then some (outer : ℕ) else h.outer? e) ∧
      ∀ name, _ = h.last? name e
    rw [Array.getElem?_push, hs.size]
    by_cases hnew : e = n
    · -- the name was never set in a frame that was not there yet
      rw [if_pos hnew, if_pos hnew]
      exact ⟨_, rfl, rfl, fun name => (hs.fresh e name (by omega)).symm⟩
    · rw [if_neg hnew, if_neg hnew]
      exact hs.frame e (by omega)
  inside e o ho := by
    change (if e = n then some (outer : ℕ) else h.outer? e) = some o at ho
    split at ho
    · next hnew =>
      cases ho
      exact ⟨hnew ▸ outer.isLt, by omega⟩
    · have hlt := hs.inside e o ho
      exact ⟨hlt.1, by omega⟩
  fresh e name he := hs.fresh e name (by omega)

lemma Kept.set {h : History n} {s : Store} (hs : h.Kept s) (d : Fin n)
    (k : String) (v : Value) : (h.set d k v).Kept (s.bind d k v) where
  size := by
    show (s.frames.modify _ _).size = n
    rw [Array.size_modify, hs.size]
  frame e he := by
    obtain ⟨f, hf, hout, hlast⟩ := hs.frame e he
    show ∃ f, (s.frames.modify d _)[e]? = some f ∧ f.outer = h.outer? e ∧
      ∀ name, _ = if (d : ℕ) = e ∧ k = name then some v else h.last? name e
    rw [Array.getElem?_modify, hf]
    by_cases hde : (d : ℕ) = e
    · rw [if_pos hde]
      refine ⟨_, rfl, hout, fun name => ?_⟩
      rw [Bindings.get?_set, hlast name]
      by_cases hk : k = name
      · rw [if_pos hk, if_pos ⟨hde, hk⟩]
      · rw [if_neg hk, if_neg fun h => hk h.2]
    · rw [if_neg hde]
      refine ⟨f, rfl, hout, fun name => ?_⟩
      rw [if_neg fun h => hde h.1, hlast name]
  inside := hs.inside
  fresh e name he := by
    show (if (d : ℕ) = e ∧ k = name then some v else h.last? name e) = none
    rw [if_neg fun h => by omega]
    exact hs.fresh e name he

lemma Kept.get {h : History n} {s : Store} (hs : h.Kept s) (e : Fin n)
    (name : String) : (h.get e name).Kept s :=
  ⟨hs.size, hs.frame, hs.inside, hs.fresh⟩

/-- **A history and its store.**  Whatever was done to the frames, each lies in
the one it was made in and binds every name to what it was set to last. -/
theorem kept (h : History n) : h.Kept h.store := by
  induction h with
  | start => exact kept_start
  | enclose h outer ih => exact ih.enclose outer
  | set h e name v ih => exact ih.set e name v
  | get h e name ih => exact ih.get e name

namespace Kept

variable {h : History n} {s : Store} {e : ℕ}

lemma nested (hs : h.Kept s) : s.Nested := by
  intro e f o hf ho
  have he : e < n := hs.size ▸ (Array.getElem?_eq_some_iff.mp hf).1
  obtain ⟨g, hg, hout, -⟩ := hs.frame e he
  cases hf.symm.trans hg
  exact (hs.inside e o (hout ▸ ho)).1

/-- The last thing set in a frame, and if there is none, the answer of the frame
around it. -/
lemma lookup_eq (hs : h.Kept s) (he : e < n) (name : String) :
    s.lookup e name =
      (h.last? name e).or ((h.outer? e).bind (s.lookup · name)) := by
  obtain ⟨f, hf, hout, hlast⟩ := hs.frame e he
  rw [Store.lookup_eq hs.nested hf, hlast, hout]

/-- The frames around a frame are there. -/
lemma outer_lt (hs : h.Kept s) {o : ℕ} (ho : h.outer? e = some o) : o < n := by
  have hlt := hs.inside e o ho
  omega

/-- A look-up comes to what was set last in the nearest frame. -/
lemma nearest (hs : h.Kept s) (name : String) (he : e < n) :
    h.Nearest name e (s.lookup e name) := by
  induction e using Nat.strongRecOn with
  | ind e ih =>
    rw [hs.lookup_eq he]
    cases hlast : h.last? name e with
    | some v => exact .here hlast
    | none =>
        cases hout : h.outer? e with
        | none => exact .nowhere hlast hout
        | some o =>
            exact .outward hlast hout
              (ih o (hs.inside e o hout).1 (hs.outer_lt hout))

/-- There is no other way to tell it from the history. -/
lemma lookup_of_nearest (hs : h.Kept s) {name : String} {found : Option Value}
    (hfound : h.Nearest name e found) (he : e < n) : s.lookup e name = found := by
  induction hfound with
  | here hlast => rw [hs.lookup_eq he, hlast, Option.some_or]
  | outward hlast hout _ ih =>
      rw [hs.lookup_eq he, hlast, hout]
      exact ih (hs.outer_lt hout)
  | nowhere hlast hout => rw [hs.lookup_eq he, hlast, hout]; rfl

/-- The walk of a look-up ends, at its answer. -/
lemma finds (hs : h.Kept s) (name : String) (he : e < n) :
    s.Finds name (some e) (s.lookup e name) := by
  induction e using Nat.strongRecOn with
  | ind e ih =>
    obtain ⟨f, hf, hout, -⟩ := hs.frame e he
    rw [Store.lookup_eq hs.nested hf]
    cases hget : Bindings.get? name f.bindings with
    | some v => exact .here hf hget
    | none =>
        refine .outward hf hget ?_
        cases ho : f.outer with
        | none => exact .beyond
        | some o =>
            have houter : h.outer? e = some o := hout ▸ ho
            exact ih o (hs.inside e o houter).1 (hs.outer_lt houter)

end Kept

/-! ### Setting a name -/

/-- Where a frame sees the one in which a name is set, it answers with what the
name is set to. -/
lemma lookup_set_of_sees (h : History n) {d : Fin n} {name : String}
    {e : ℕ} (hsees : h.Sees name d e) (v : Value) (he : e < n) :
    (h.set d name v).store.lookup e name = some v := by
  have hs := (h.set d name v).kept
  induction hsees with
  | self =>
      rw [hs.lookup_eq he, last?, if_pos ⟨rfl, rfl⟩, Option.some_or]
  | @outward e o hlast hout _ ih =>
      rw [hs.lookup_eq he, last?, outer?, hout]
      by_cases hde : (d : ℕ) = e
      · rw [if_pos ⟨hde, rfl⟩, Option.some_or]
      · rw [if_neg fun h => hde h.1, hlast]
        exact ih (h.kept.outer_lt hout)

/-- Everywhere else, and for every other name, the answers stay. -/
lemma lookup_set_of_not_sees (h : History n) {d : Fin n} {k name : String}
    {e : ℕ} (hsees : k = name → ¬ h.Sees name d e) (v : Value) (he : e < n) :
    (h.set d k v).store.lookup e name = h.store.lookup e name := by
  have hs := (h.set d k v).kept
  induction e using Nat.strongRecOn with
  | ind e ih =>
    rw [hs.lookup_eq he, h.kept.lookup_eq he, last?, outer?,
      if_neg fun ⟨hde, hk⟩ => hsees hk (hde ▸ .self)]
    cases hlast : h.last? name e with
    | some w => rw [Option.some_or, Option.some_or]
    | none =>
        cases hout : h.outer? e with
        | none => rfl
        | some o =>
            exact ih o (h.kept.inside e o hout).1
              (fun hk hrest => hsees hk (.outward hlast hout hrest))
              (h.kept.outer_lt hout)

/-- **Scoping.**  After any history a look-up answers with what the name was set
to last in the nearest frame, walking outward, in which it was ever set, and with
nothing if there is none; the frames around a frame come to an end, and so does
the walk.  Setting a name in a frame is seen from all frames in it, also those
that were made before, up to where the name was set anew, and changes no other
answer, least of all in a frame that is neither that one nor in it. -/
theorem lookup_nearest (h : History n) :
    (∀ (e : Fin n) (name : String) (found : Option Value),
      (h.store.lookup e name = found ↔ h.Nearest name e found) ∧
      (h.store.lookup e name = found ↔ h.store.Finds name (some e) found)) ∧
    (∀ (d e : Fin n) (k name : String) (v : Value),
      (h.Sees name d e → (h.set d name v).store.lookup e name = some v) ∧
      ((k = name → ¬ h.Sees name d e) →
        (h.set d k v).store.lookup e name = h.store.lookup e name) ∧
      (¬ h.Inside e d →
        (h.set d k v).store.lookup e name = h.store.lookup e name)) ∧
    WellFounded fun o e =>
      ∃ f : Frame, h.store.frames[e]? = some f ∧ f.outer = some o := by
  refine ⟨fun e name found => ⟨⟨?_, fun hnear => ?_⟩, ?_, fun hfinds => ?_⟩,
    fun d e k name v => ⟨fun hsees => ?_, fun hsees => ?_, fun hout => ?_⟩, ?_⟩
  · rintro rfl
    exact h.kept.nearest name e.isLt
  · exact h.kept.lookup_of_nearest hnear e.isLt
  · rintro rfl
    exact h.kept.finds name e.isLt
  · exact (h.kept.finds name e.isLt).unique hfinds
  · exact h.lookup_set_of_sees hsees v e.isLt
  · exact h.lookup_set_of_not_sees hsees v e.isLt
  · exact h.lookup_set_of_not_sees (fun _ hsees => hout hsees.inside) v e.isLt
  · -- every frame lies in one with a smaller number
    refine Subrelation.wf (fun {o e} ⟨f, hf, ho⟩ => ?_) (measure id).wf
    exact h.kept.nested e f o hf ho

end History

/-! ### The frames of calls -/

/-- Setting names one after the other in the newest frame. -/
lemma foldl_bind_addFrame {s : Store} {d : ℕ} (hd : s.frames.size = d)
    (ps : List (String × Value)) (bs : Bindings String Value)
    (outer : Option ℕ) :
    ps.foldl (fun t p => t.bind d p.1 p.2) (s.addFrame bs outer).2 =
      (s.addFrame (ps.foldl (fun bs p => bs.set p.1 p.2) bs) outer).2 := by
  induction ps generalizing bs with
  | nil => rfl
  | cons p ps ih =>
      rw [List.foldl_cons, List.foldl_cons, ← ih]
      congr 1
      show ({ s with frames := (s.frames.push _).modify _ _ } : Store) =
        { s with frames := s.frames.push _ }
      congr 1
      refine Array.ext_getElem? fun e => ?_
      rw [Array.getElem?_modify, Array.getElem?_push, Array.getElem?_push, hd]
      by_cases he : d = e
      · rw [if_pos he, if_pos he.symm, if_pos he.symm]
        rfl
      · rw [if_neg he, if_neg (Ne.symm he), if_neg (Ne.symm he)]

namespace History

variable {n : ℕ}

/-- Names set one after the other in a frame. -/
def sets (h : History n) (e : Fin n) (ps : List (String × Value)) : History n :=
  ps.foldl (fun h p => h.set e p.1 p.2) h

lemma store_sets (h : History n) (e : Fin n) (ps : List (String × Value)) :
    (h.sets e ps).store =
      ps.foldl (fun t p => t.bind e p.1 p.2) h.store := by
  induction ps generalizing h with
  | nil => rfl
  | cons p ps ih => exact ih (h.set e p.1 p.2)

/-- **Calls.**  Making the frame of a call goes on with a history: a frame is made
inside the one of the closure, and the parameters are set in it, one after the
other. -/
theorem called (h : History n) (outer : Fin n) (names : List String)
    (args : List Value) :
    h.store.addFrame (parameterBindings names args) (some outer) =
      (n, ((h.enclose outer).sets (Fin.last n) (names.zip args)).store) := by
  have hsize : h.store.frames.size = n := h.kept.size
  rw [store_sets, store, Store.enclose, Fin.val_last,
    foldl_bind_addFrame hsize]
  exact Prod.ext hsize rfl

end History

end MonkeyLang.Store

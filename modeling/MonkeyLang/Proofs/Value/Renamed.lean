/-
Values of two runs that are the same but for names and places.

* `Matching`: numbers matched one to one with others; `Matching.add` matches
  two new ones;
* `Renaming`: the frames and the closures of one run matched with those of
  another one; `Renaming.addFrame`, `Renaming.addClosure` match two new ones;
* `Value.Renamed ρ`: values that are the same but for the numbers of frames
  and closures, which `ρ` matches, and the places in trees;
* `Renamed.congruence`, `Renamed.faithful`: they are the same but for closures
  and quotes, which are equal to others alike;
* `Renamed.text_eq`: such values have the same text.
-/
import MonkeyLang.Proofs.Tree.Bare
import MonkeyLang.Proofs.Value.Congruence
import Mathlib.Order.Basic

namespace MonkeyLang

open List (Forall₂)

/-! ### Renamings -/

/-- Numbers matched one to one with others. -/
structure Matching where
  pair : ℕ → ℕ → Prop
  oneToOne : ∀ {e e' d d' : ℕ}, pair e e' → pair d d' → (e = d ↔ e' = d')

namespace Matching

instance : Preorder Matching where
  le m m' := ∀ e e', m.pair e e' → m'.pair e e'
  le_refl _ _ _ := id
  le_trans _ _ _ h h' e e' := h' e e' ∘ h e e'

/-- All matched numbers lie below two bounds. -/
def Below (m : Matching) (n n' : ℕ) : Prop :=
  ∀ e e', m.pair e e' → e < n ∧ e' < n'

/-- The numbers below a bound matched with themselves. -/
def upTo (n : ℕ) : Matching where
  pair e e' := e = e' ∧ e < n
  oneToOne := by
    rintro e _ d _ ⟨rfl, -⟩ ⟨rfl, -⟩
    exact Iff.rfl

/-- Two numbers beyond the matched ones are matched, too. -/
def add (m : Matching) (n n' : ℕ) (h : m.Below n n') : Matching where
  pair e e' := m.pair e e' ∨ (e = n ∧ e' = n')
  oneToOne := by
    rintro e e' d d' (he | ⟨rfl, rfl⟩) (hd | ⟨rfl, rfl⟩)
    · exact m.oneToOne he hd
    · have hlt := h _ _ he
      omega
    · have hlt := h _ _ hd
      omega
    · simp

variable {m : Matching} {n n' : ℕ}

lemma le_add (h : m.Below n n') : m ≤ m.add n n' h := fun _ _ => Or.inl

lemma Below.add (h : m.Below n n') :
    (m.add n n' h).Below (n + 1) (n' + 1) := by
  rintro e e' (he | ⟨rfl, rfl⟩)
  · have hlt := h _ _ he
    omega
  · omega

lemma Below.mono (h : m.Below n n') {k k' : ℕ} (hk : n ≤ k) (hk' : n' ≤ k') :
    m.Below k k' := fun e e' he =>
  ⟨Nat.lt_of_lt_of_le (h e e' he).1 hk, Nat.lt_of_lt_of_le (h e e' he).2 hk'⟩

lemma below_upTo (n : ℕ) : (upTo n).Below n n := by
  rintro e _ ⟨rfl, he⟩
  exact ⟨he, he⟩

end Matching

/-- The frames and the closures of one run, matched with those of another
one. -/
structure Renaming where
  frames : Matching
  closures : Matching

namespace Renaming

instance : Preorder Renaming where
  le ρ ρ' := ρ.frames ≤ ρ'.frames ∧ ρ.closures ≤ ρ'.closures
  le_refl _ := ⟨le_refl _, le_refl _⟩
  le_trans _ _ _ h h' := ⟨h.1.trans h'.1, h.2.trans h'.2⟩

variable (ρ : Renaming) {n n' : ℕ}

/-- Two new frames are matched, too. -/
def addFrame (h : ρ.frames.Below n n') : Renaming :=
  ⟨ρ.frames.add n n' h, ρ.closures⟩

/-- Two new closures are matched, too. -/
def addClosure (h : ρ.closures.Below n n') : Renaming :=
  ⟨ρ.frames, ρ.closures.add n n' h⟩

lemma le_addFrame (h : ρ.frames.Below n n') : ρ ≤ ρ.addFrame h :=
  ⟨Matching.le_add h, le_refl _⟩

lemma le_addClosure (h : ρ.closures.Below n n') : ρ ≤ ρ.addClosure h :=
  ⟨le_refl _, Matching.le_add h⟩

end Renaming

/-! ### Values -/

/-- The same parameters and the same body in other places, made in matched
frames. -/
structure Closure.Renamed (ρ : Renaming) (c d : Closure) : Prop where
  id : ρ.closures.pair c.id d.id
  params : c.params.map Node.bare = d.params.map Node.bare
  body : c.body.bare = d.body.bare
  frame : ρ.frames.pair c.frame d.frame

lemma Closure.Renamed.params_length {ρ : Renaming} {c d : Closure}
    (h : c.Renamed ρ d) : c.params.length = d.params.length := by
  rw [← List.length_map Node.bare, h.params, List.length_map]

lemma Closure.Renamed.mono {ρ ρ' : Renaming} (hρ : ρ ≤ ρ') {c d : Closure}
    (h : c.Renamed ρ d) : c.Renamed ρ' d :=
  ⟨hρ.2 _ _ h.id, h.params, h.body, hρ.1 _ _ h.frame⟩

/-- Values that are the same but for names and places. -/
inductive Value.Renamed (ρ : Renaming) : Value → Value → Prop where
  | integer (n : Int) : Renamed ρ (.integer n) (.integer n)
  | boolean (b : Bool) : Renamed ρ (.boolean b) (.boolean b)
  | null : Renamed ρ .null .null
  | string (s : String) : Renamed ρ (.string s) (.string s)
  | array {vs ws : List Value} (h : Forall₂ (Renamed ρ) vs ws) :
      Renamed ρ (.array vs) (.array ws)
  | hash {t u : Table} (h : Forall₂ (Table.Entries (Renamed ρ)) t u) :
      Renamed ρ (.hash t) (.hash u)
  | returned {v w : Value} (h : Renamed ρ v w) :
      Renamed ρ (.returned v) (.returned w)
  | error (f : Fault) : Renamed ρ (.error f) (.error f)
  | function {c d : Closure} (h : c.Renamed ρ d) :
      Renamed ρ (.function c) (.function d)
  | builtin (b : Builtin) : Renamed ρ (.builtin b) (.builtin b)
  | quote {m n : Node} (h : m.bare = n.bare) :
      Renamed ρ (.quote m) (.quote n)
  | macroFn {c d : Closure} (h : c.Renamed ρ d) :
      Renamed ρ (.macroFn c) (.macroFn d)

namespace Value.Renamed

variable {ρ ρ' : Renaming} {v w : Value}

/-- Induction over such values: what is to be shown holds already of the
members of arrays and of the entries of hashes. -/
theorem induct {P : ∀ v w, Renamed ρ v w → Prop}
    (integer : ∀ n, P _ _ (.integer n)) (boolean : ∀ b, P _ _ (.boolean b))
    (null : P _ _ .null) (string : ∀ s, P _ _ (.string s))
    (array : ∀ {vs ws} (h : Forall₂ (Renamed ρ) vs ws),
      Forall₂ (fun v w => ∃ h, P v w h) vs ws → P _ _ (.array h))
    (hash : ∀ {t u} (h : Forall₂ (Table.Entries (Renamed ρ)) t u),
      Forall₂ (Table.Entries fun v w => ∃ h, P v w h) t u → P _ _ (.hash h))
    (returned : ∀ {v w} (h : Renamed ρ v w), P v w h → P _ _ (.returned h))
    (error : ∀ f, P _ _ (.error f))
    (function : ∀ {c d : Closure} (h : c.Renamed ρ d), P _ _ (.function h))
    (builtin : ∀ b, P _ _ (.builtin b))
    (quote : ∀ {m n : Node} (h : m.bare = n.bare), P _ _ (.quote h))
    (macroFn : ∀ {c d : Closure} (h : c.Renamed ρ d), P _ _ (.macroFn h))
    (h : Renamed ρ v w) : P v w h :=
  @Renamed.rec ρ P (fun vs ws _ => Forall₂ (fun v w => ∃ h, P v w h) vs ws)
    (fun t u _ => Forall₂ (Table.Entries fun v w => ∃ h, P v w h) t u)
    (fun p q _ => Table.Entries (fun v w => ∃ h, P v w h) p q)
    integer boolean null string array hash returned error function builtin
    quote macroFn .nil (fun h _ ih ihs => .cons ⟨h, ih⟩ ihs) .nil
    (fun _ _ ih ihs => .cons ih ihs)
    (fun hk hv ihk ihv => .mk ⟨hk, ihk⟩ ⟨hv, ihv⟩) v w h

/-- Such values are the same but for closures and quotes. -/
lemma congruence (ρ : Renaming) :
    Congruence (Closure.Renamed ρ) (Closure.Renamed ρ)
      (fun m n => m.bare = n.bare) (Renamed ρ) where
  shaped h := by cases h <;> constructor <;> assumption
  of_shaped h := by cases h <;> constructor <;> assumption

/-- Matched closures are the same ones or others on both sides, and quotes that
are equal without places are alike. -/
lemma faithful (ρ : Renaming) :
    Faithful (Closure.Renamed ρ) (Closure.Renamed ρ)
      fun m n => m.bare = n.bare where
  function hc hd := ρ.closures.oneToOne hc.id hd.id
  macroFn hc hd := ρ.closures.oneToOne hc.id hd.id
  quote hm hn := by
    rw [Bool.eq_iff_iff, Node.alike_iff, Node.alike_iff, hm, hn]

/-- More names may be matched. -/
theorem mono (hρ : ρ ≤ ρ') (h : Renamed ρ v w) : Renamed ρ' v w :=
  (congruence ρ).of_le (congruence ρ') (fun _ _ h => h.mono hρ)
    (fun _ _ h => h.mono hρ) (fun _ _ => id) h

/-! ### Texts -/

lemma closureText_eq {c d : Closure} (h : c.Renamed ρ d) (keyword : String) :
    c.text keyword = d.text keyword := by
  rw [Closure.text, Closure.text, Node.map_text_of_bare h.params,
    Node.text_of_bare h.body]

/-- The text of a value does not tell names and places. -/
theorem text_eq (h : Renamed ρ v w) : v.text = w.text := by
  induction h using induct with
  | array _ ih =>
      have htexts {vs ws : List Value}
          (h : Forall₂ (fun v w => ∃ _ : Renamed ρ v w, v.text = w.text)
            vs ws) : texts vs = texts ws := by
        rw [texts_eq_map, texts_eq_map]
        exact forall₂_map_eq.mp (h.imp fun _ _ ⟨_, h⟩ => h)
      rw [text, text, htexts ih]
  | hash _ ih =>
      have htexts {t u : Table} (h : Forall₂ (Table.Entries fun v w =>
          ∃ _ : Renamed ρ v w, v.text = w.text) t u) :
          entryTexts t = entryTexts u := by
        induction h with
        | nil => rfl
        | cons hp _ ih =>
            obtain ⟨⟨_, hk⟩, ⟨_, hv⟩⟩ := hp
            rw [entryTexts, entryTexts, hk, hv, ih]
      rw [text, text, htexts ih]
  | returned _ ih => exact ih
  | function h => exact closureText_eq h "fn"
  | quote h => rw [text, text, Node.text_of_bare h]
  | macroFn h => exact closureText_eq h "macro"
  | _ => rfl

end Value.Renamed

end MonkeyLang

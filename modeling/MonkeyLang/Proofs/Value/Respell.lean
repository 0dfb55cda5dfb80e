/-
Values of two runs that differ in the names of identifiers.

* `Reading`: which permutations of names lead from the frames of one run to
  those of another one; a frame keeps those that it has;
* `Node.Readable π σ`: a tree that may be evaluated with `σ` for its names: with `π`
  if `π` keeps what it binds by `let`, with the names that it has if those that
  it quotes are kept by `π`;
* `Value.Respelled π r`: values that are the same but for the names in them: in
  closures those that their frames are read with, in quotes those that `π`
  gives;
* `Respelled.congruence`, `Respelled.faithful`: they are the same but for
  closures and quotes, which are equal to others alike.
-/
import MonkeyLang.Proofs.Tree.Sealed
import MonkeyLang.Proofs.Value.Congruence
import MonkeyLang.Proofs.Value.Relabel
import Mathlib.Data.Set.Basic

namespace MonkeyLang

open List (Forall₂)

/-! ### Readings -/

/-- The permutations that lead from the names in each frame of one run to those
in the same frame of another one. -/
structure Reading where
  frame : ℕ → Set (Equiv.Perm String)

/-- A later reading is one of more frames. -/
instance : Preorder Reading where
  le r r' := ∀ e, (r.frame e).Nonempty → r'.frame e = r.frame e
  le_refl _ _ _ := rfl
  le_trans r r' _ h h' e he := by
    have hsame := h e he
    rw [← hsame] at he
    exact (h' e he).trans hsame

lemma Reading.mem_mono {r r' : Reading} (hr : r ≤ r') {e : ℕ}
    {σ : Equiv.Perm String} (hσ : σ ∈ r.frame e) : σ ∈ r'.frame e :=
  (hr e ⟨σ, hσ⟩).symm ▸ hσ

/-- A tree may be evaluated with other names: with those that `π` gives if `π`
keeps what the tree binds by `let`, and with its own ones if `π` keeps those that
it quotes. -/
def Node.Readable (π σ : Equiv.Perm String) (n : Node) : Prop :=
  n.Named ∧ (σ = π ∧ n.Settled π ∨ σ = .refl _ ∧ n.Discreet π)

/-! ### Closures -/

/-- The closure with other names in its parameters and its body. -/
def Closure.respell (σ : Equiv.Perm String) (c : Closure) : Closure :=
  { c with params := c.params.map (Node.respell σ), body := c.body.respell σ }

/-- A closure with other names is called by its parameters' other names. -/
lemma Closure.Named.names_respell {c : Closure} (hc : c.Named)
    (σ : Equiv.Perm String) : (c.respell σ).names = c.names.map σ := by
  rw [names, names, Closure.respell, List.map_map, List.map_map]
  refine List.map_congr_left fun p hp => ?_
  have hkind := hc.params p hp
  cases p <;> cases hkind
  exact Token.text_respell σ _

section

variable (π : Equiv.Perm String) (r : Reading)

/-- The same closure with other names, which its frame is read with. -/
inductive Closure.Respelled (c : Closure) : Closure → Prop where
  | mk {σ : Equiv.Perm String} (hσ : σ ∈ r.frame c.frame)
      (hparams : ∀ p ∈ c.params, p.kind = .ident) (hbody : c.body.Readable π σ) :
      Respelled c (c.respell σ)

/-- Values that are the same but for the names in them. -/
inductive Value.Respelled : Value → Value → Prop where
  | integer (n : Int) : Respelled (.integer n) (.integer n)
  | boolean (b : Bool) : Respelled (.boolean b) (.boolean b)
  | null : Respelled .null .null
  | string (s : String) : Respelled (.string s) (.string s)
  | array {vs ws : List Value} (h : Forall₂ Respelled vs ws) :
      Respelled (.array vs) (.array ws)
  | hash {t u : Table} (h : Forall₂ (Table.Entries Respelled) t u) :
      Respelled (.hash t) (.hash u)
  | returned {v w : Value} (h : Respelled v w) :
      Respelled (.returned v) (.returned w)
  | error (f : Fault) : Respelled (.error f) (.error f)
  | function {c d : Closure} (h : c.Respelled π r d) :
      Respelled (.function c) (.function d)
  | builtin (b : Builtin) : Respelled (.builtin b) (.builtin b)
  | quote {m : Node} (hnamed : m.Named) (hm : m.Settled π) :
      Respelled (.quote m) (.quote (m.respell π))
  | macroFn {c d : Closure} (h : c.id = d.id) :
      Respelled (.macroFn c) (.macroFn d)

end

variable {π : Equiv.Perm String} {r r' : Reading}

lemma Closure.Respelled.id_eq {c d : Closure} (h : c.Respelled π r d) :
    c.id = d.id := by
  cases h
  rfl

lemma Closure.Respelled.mono (hr : r ≤ r') {c d : Closure}
    (h : c.Respelled π r d) : c.Respelled π r' d := by
  cases h with
  | mk hσ hparams hbody => exact .mk (Reading.mem_mono hr hσ) hparams hbody

namespace Value.Respelled

/-- Such values are the same but for closures and quotes. -/
lemma congruence (π : Equiv.Perm String) (r : Reading) :
    Congruence (Closure.Respelled π r) (fun c d => c.id = d.id)
      (fun m n => n = m.respell π ∧ m.Named ∧ m.Settled π) (Respelled π r) where
  shaped h := by
    cases h with
    | quote hnamed hm => exact .quote ⟨rfl, hnamed, hm⟩
    | _ => constructor <;> assumption
  of_shaped h := by
    cases h with
    | quote h =>
        obtain ⟨rfl, hnamed, hm⟩ := h
        exact .quote hnamed hm
    | _ => constructor <;> assumption

/-- Closures keep their numbers, and quotes are all given the same other
names. -/
lemma faithful (π : Equiv.Perm String) (r : Reading) :
    Faithful (Closure.Respelled π r) (fun c d => c.id = d.id)
      fun m n => n = m.respell π ∧ m.Named ∧ m.Settled π where
  function hc hd := by rw [hc.id_eq, hd.id_eq]
  macroFn hc hd := by rw [hc, hd]
  quote := by
    rintro m _ n _ ⟨rfl, -⟩ ⟨rfl, -⟩
    exact (Node.alike_respell π m n).symm

/-- More frames may be read. -/
theorem mono (hr : r ≤ r') {v w : Value} (h : Respelled π r v w) :
    Respelled π r' v w :=
  (congruence π r).of_le (congruence π r') (fun _ _ h => h.mono hr)
    (fun _ _ => id) (fun _ _ => id) h

end Value.Respelled

end MonkeyLang

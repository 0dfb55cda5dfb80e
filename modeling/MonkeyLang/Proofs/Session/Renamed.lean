/-
Expansion does not tell names and places.

* `Store.Renamed.within`: where frames lead to none but those with `A`, no
  others need be matched;
* `Session.Renamed p q ρ s t`: sessions whose stores are the same but for
  names, with the frames of the macros matched; `Whole.prepared_renamed`: so
  they are where the same macros are defined, but for places;
* `expandNode_renamed`: a call of a macro is replaced by trees that are equal
  without places;
* `expandAll_renamed`: so are all calls of macros in a tree.
-/
import MonkeyLang.Proofs.Eval.Renamed
import MonkeyLang.Proofs.Eval.Zones
import MonkeyLang.Proofs.Session.Whole

namespace MonkeyLang

open List (Forall₂)

/-! ### Some frames only -/

/-- Only the frames with `A` stay matched. -/
def Renaming.within (A : ℕ → Prop) (ρ : Renaming) : Renaming where
  frames :=
    { pair e e' := A e ∧ ρ.frames.pair e e'
      oneToOne he hd := ρ.frames.oneToOne he.2 hd.2 }
  closures := ρ.closures

section

variable {p q : Array String} {ρ : Renaming} {A : ℕ → Prop}

/-- Values whose closures were made in frames with `A`. -/
lemma Value.Renamed.within {v w : Value} (h : v.Renamed ρ w)
    (hv : Value.Every (Value.MadeIn A) v) : v.Renamed (ρ.within A) w := by
  have hclosure {c d : Closure} (h : c.Renamed ρ d) (hc : A c.frame) :
      c.Renamed (ρ.within A) d :=
    ⟨h.id, h.params, h.body, hc, h.frame⟩
  induction h using induct with
  | integer n => exact .integer n
  | boolean b => exact .boolean b
  | null => exact .null
  | string s => exact .string s
  | @array vs ws _ ih =>
      have hmem : ∀ v ∈ vs, Every (MadeIn A) v := fun v hmem =>
        (every_iff.mp hv).2 v (.element hmem)
      exact .array (((List.forall₂_and_left vs ws).mpr ⟨hmem, ih⟩).imp
        fun _ _ ⟨hv, _, h⟩ => h hv)
  | @hash t u _ ih =>
      have hmem : ∀ p ∈ t, Every (MadeIn A) p.2.1 ∧ Every (MadeIn A) p.2.2 :=
        fun p hmem => ⟨(every_iff.mp hv).2 _ (.key hmem),
          (every_iff.mp hv).2 _ (.value hmem)⟩
      refine .hash (((List.forall₂_and_left t u).mpr ⟨hmem, ih⟩).imp ?_)
      rintro _ _ ⟨hp, ⟨⟨_, hk⟩, ⟨_, hv⟩⟩⟩
      exact .mk (hk hp.1) (hv hp.2)
  | returned _ ih => exact .returned (ih (madeIn_returned.mp hv))
  | error f => exact .error f
  | function h => exact .function (hclosure h (hv _ .refl))
  | builtin b => exact .builtin b
  | quote h => exact .quote h
  | macroFn h => exact .macroFn (hclosure h (hv _ .refl))

/-- Frames that lead to none but frames with `A`. -/
lemma Frame.Renamed.within {f g : Frame} (h : f.Renamed ρ g)
    (hf : f.LiesIn A) : f.Renamed (ρ.within A) g where
  bindings := ((List.forall₂_and_left _ _).mpr ⟨hf.values, h.bindings⟩).imp
    fun _ _ ⟨hv, hname, h⟩ => ⟨hname, h.within hv⟩
  outer := by
    have houter := h.outer
    have hin := hf.outer
    generalize f.outer = o, g.outer = o' at houter hin
    cases houter with
    | none => exact .none
    | some ho => exact .some ⟨hin _ rfl, ho⟩

/-- In stores only the frames with `A` may stay matched if these lead to no
others. -/
lemma Store.Renamed.within {s t : Store} (h : s.Renamed p q ρ t)
    (hs : s.Within A) : s.Renamed p q (ρ.within A) t where
  frames e e' he := by
    obtain ⟨f, g, hf, hg, hfg⟩ := h.frames e e' he.2
    exact ⟨f, g, hf, hg, hfg.within (hs e f he.1 hf)⟩
  closures := h.closures
  nested := h.nested
  printed := h.printed

end

/-- Sessions whose stores are the same but for names, in matched frames of the
macros. -/
structure Session.Renamed (p q : Array String) (ρ : Renaming) (s t : Session) :
    Prop where
  store : s.store.Renamed p q ρ t.store
  macros : ρ.frames.pair s.macros t.macros

namespace Session

variable {p q : Array String} {ρ : Renaming} {s t : Session}

/-- Macros of the same name, with parameters and bodies that are equal without
places, are defined alike. -/
lemma Renamed.defineMacro (h : s.Renamed p q ρ t) (name : String)
    {ps ps' : List Node} {b b' : Node} (hps : ps.map Node.bare =
      ps'.map Node.bare) (hb : b.bare = b'.bare) :
    ∃ ρ', ρ ≤ ρ' ∧ (s.defineMacro name ps b).Renamed p q ρ'
      (t.defineMacro name ps' b') := by
  obtain ⟨ρ', hρ, hc, hstore⟩ := h.store.close h.macros hps hb
  have hmacros := hρ.1 _ _ h.macros
  exact ⟨ρ', hρ, hstore.bind hmacros name (.macroFn hc), hmacros⟩

/-- So are several ones. -/
lemma Renamed.defined (h : s.Renamed p q ρ t)
    {ds ds' : List (String × List Node × Node)}
    (hds : ds.map (fun d => (d.1, d.2.1.map Node.bare, d.2.2.bare)) =
      ds'.map fun d => (d.1, d.2.1.map Node.bare, d.2.2.bare)) :
    ∃ ρ', ρ ≤ ρ' ∧ (s.defined ds).Renamed p q ρ' (t.defined ds') := by
  replace hds := forall₂_map_eq.mpr hds
  induction hds generalizing ρ s t with
  | nil => exact ⟨ρ, le_refl ρ, h⟩
  | @cons d d' ds ds' hd _ ih =>
      obtain ⟨name, ps, b⟩ := d
      obtain ⟨name', ps', b'⟩ := d'
      obtain ⟨rfl, hps, hb⟩ : name = name' ∧
          ps.map Node.bare = ps'.map Node.bare ∧ b.bare = b'.bare := by
        simpa using hd
      obtain ⟨ρ₁, hρ₁, h₁⟩ := h.defineMacro name hps hb
      obtain ⟨ρ', hρ', h'⟩ := ih h₁
      exact ⟨ρ', hρ₁.trans hρ', h'⟩

/-- Where the same macros are bound, but for places, sessions are the same. -/
lemma Whole.prepared_renamed (h : s.Whole) (a c : String) {n n' : Node}
    (hdefinitions :
      n.definitions.map (fun d => (d.1, d.2.1.map Node.bare, d.2.2.bare)) =
        n'.definitions.map fun d => (d.1, d.2.1.map Node.bare, d.2.2.bare)) :
    ∃ ρ, s.store.identity ≤ ρ ∧
      (s.prepared a n).Renamed #[] #[] ρ (s.prepared c n') := by
  have hheard : (s.heard a).Renamed #[] #[] s.store.identity (s.heard c) :=
    ⟨h.store, rfl, h.macros⟩
  exact hheard.defined hdefinitions

end Session

namespace Expanding

variable {p q : Array String} {ρ : Renaming} {depth : ℕ}

/-! ### Calls of macros -/

/-- A part of a program runs alike in the stores of such sessions. -/
lemma run_renamed {r r' : Run (Option Value)}
    (h : Run.Renamed (Store.Renamed p q) ρ r r') :
    Parallel (Session.Renamed p q) (fun _ _ : MacroFault => True)
      (fun ρ => Outcome Eq (Option.Rel (Value.Renamed ρ))) ρ (run r)
      (run r') := by
  intro s t hs
  refine rel_map (h s.store t.store hs.store) ?_
  rintro x y ⟨ρ', hρ, hs', hout⟩
  exact ⟨ρ', hρ, ⟨hs', hρ.1 _ _ hs.macros⟩, .ok hout⟩

/-- Callees name related macros, or none. -/
lemma macroOf?_renamed {s t : Session} (hs : s.Renamed p q ρ t) {c c' : Node}
    (hc : c.bare = c'.bare) :
    Option.Rel (fun c d => Closure.Renamed ρ c d) (macroOf? c s)
      (macroOf? c' t) := by
  cases Node.matches_of_bare hc with
  | @ident u u' hu =>
      have hlookup := hs.store.lookup hs.macros u.text
      rw [macroOf?, macroOf?, ← hu]
      generalize s.store.lookup s.macros u.text = x,
        t.store.lookup t.macros u.text = y at hlookup
      cases hlookup with
      | none => exact .none
      | some hv =>
          cases hv with
          | macroFn hc => exact .some hc
          | _ => exact .none
  | _ => exact .none

/-- The call of a macro. -/
lemma expandCall_renamed {c d : Closure} (hc : c.Renamed ρ d)
    {call call' callee callee' : Node} {args args' : List Node}
    (hargs : args.map Node.bare = args'.map Node.bare) :
    Parallel (Session.Renamed p q) (fun _ _ => True)
      (fun _ m m' => m.bare = m'.bare) ρ
      (expandCall depth c call callee args)
      (expandCall depth d call' callee' args') := by
  replace hargs := forall₂_map_eq.mpr hargs
  rw [expandCall, expandCall, hargs.length_eq, hc.params_length]
  split
  · have hquotes : Forall₂ (Value.Renamed ρ) (args.map .quote)
        (args'.map .quote) := by
      rw [List.forall₂_map_left_iff, List.forall₂_map_right_iff]
      exact hargs.imp fun _ _ => .quote
    -- frame and body run alike by what is known of evaluation; what is left is
    -- to record the tree that comes out
    have hbody : Run.Renamed (Store.Renamed p q) ρ
        (callFrame c (args.map .quote) >>= fun e =>
          eval depth c.body e >>= Run.deliver)
        (callFrame d (args'.map .quote) >>= fun e =>
          eval depth d.body e >>= Run.deliver) :=
      (callFrame_renamed (Store.lockstep_renamed p q) hc hquotes).bind fun ρ₁ _ e e' he =>
        (evaluates_eval p q depth ρ₁ e e' _ _ he hc.body).bind
          fun _ _ _ _ hv => Value.Renamed.coupling.deliver hv
    refine (run_renamed hbody).bind fun ρ₁ _ out out' hout => ?_
    cases hout with
    | error _ => exact .throw trivial
    | ok hv =>
        cases hv with
        | none => exact .throw trivial
        | some hv =>
            cases hv with
            | quote hm =>
                refine .bind (A := fun _ _ _ => True) ?_
                  fun _ _ _ _ _ => .pure hm
                exact Parallel.modifyGet fun s t hs =>
                  ⟨ρ₁, le_refl ρ₁, ⟨hs.store, hs.macros⟩, trivial⟩
            | _ => exact .throw trivial
  · exact .throw trivial

/-- A node, which may be the call of a macro. -/
lemma expandNode_renamed {n n' : Node} (hn : n.bare = n'.bare) :
    Parallel (Session.Renamed p q) (fun _ _ => True)
      (fun _ m m' => m.bare = m'.bare) ρ (expandNode depth n)
      (expandNode depth n') := by
  cases Node.matches_of_bare hn with
  | @call t t' c c' as as' hc has =>
      rw [expandNode, expandNode]
      refine Parallel.get fun s s' hs => ?_
      have hmacro := macroOf?_renamed hs hc
      generalize macroOf? c s = x, macroOf? c' s' = y at hmacro
      cases hmacro with
      | none => exact Parallel.pure hn s s' hs
      | some hcd => exact expandCall_renamed hcd has s s' hs
  | _ => exact .pure hn

/-- **Expansion does not tell names and places.**  Trees that are equal without
places are expanded alike, to trees that are equal without places. -/
theorem expandAll_renamed {n n' : Node} (hn : n.bare = n'.bare) :
    Parallel (Session.Renamed p q) (fun _ _ => True)
      (fun _ m m' => m.bare = m'.bare) ρ (expandAll depth n)
      (expandAll depth n') :=
  Parallel.transformM (fun _ _ hm _ _ => expandNode_renamed hm) hn

end Expanding

end MonkeyLang

/-
Invariants of sessions.

* `Session.In p m I`: a session whose two frames are `p` and `m` and whose
  store has `I`;
* `Stable.expand`, `Stable.evaluate`: whole inputs keep an invariant of
  evaluation, whatever comes of them;
* `Session.Reached`: the sessions that inputs lead to from the start.
-/
import MonkeyLang.Proofs.Eval.Stable
import MonkeyLang.Proofs.Session.Regime

namespace MonkeyLang

/-- A session that works in these two frames and whose store has `I`. -/
structure Session.In (program macros : ℕ) (I : Store → Prop) (s : Session) :
    Prop where
  program : s.program = program
  macros : s.macros = macros
  store : I s.store

namespace Stable

variable {F : ℕ → Prop} {I : Store → Prop} {N : Node → Prop}
  {V : Value → Prop} (h : Stable F I N V) {p m : ℕ} {s : Session}

include h

/-- The regime of the invariant covers such a session. -/
lemma covers (hm : F m) (hs : s.In p m I) :
    (Regime.ofInvariant F I N V).Covers s :=
  have hmacros : F s.macros := hs.macros ▸ hm
  ⟨hs.store, hmacros, h.lawful.reads_of_frame fun _ _ => hmacros⟩

/-- It admits every input. -/
lemma admits
    (hparse : ∀ source tracing, N (Parser.ofSource source tracing).program)
    (hm : F m) (hs : s.In p m I) (aim : Session.Aim) (depth : ℕ)
    (source : String) :
    (Regime.ofInvariant F I N V).Admits aim depth source s := by
  refine h.lawful.admits_of_tree (h.covers hm hs) (fun n hn => ?_)
    fun _ _ => Regime.permits_of_all (fun _ _ => trivial) _
  have htree : N n := by
    rw [Session.parsed_eq_ok source s.tracing hn]
    exact hparse source s.tracing
  refine ⟨htree, ?_⟩
  cases n with
  | program ss =>
      exact h.nodes.withChildren _ _ htree fun k hk =>
        h.nodes.children _ htree k ((List.mem_filter.mp hk).1)
  | _ => exact htree

/-- The expansion of an input keeps the invariant, whatever comes of it. -/
theorem expand
    (hparse : ∀ source tracing, N (Parser.ofSource source tracing).program)
    (hm : F m) {depth : ℕ} {source : String} {out : Except Failure Node}
    {s' : Session} (hs : s.In p m I)
    (hrun : s.expand depth source = some (out, s')) :
    (∀ n, out = .ok n → N n) ∧ s'.In p m I := by
  have hadmits := h.admits hparse hm hs .expand depth source
  obtain ⟨hstore, -, hprogram, hmacros, -⟩ := h.lawful.expand
    (h.covers hm hs) hadmits hrun
  refine ⟨?_, hprogram.trans hs.program, hmacros.trans hs.macros, hstore⟩
  rintro n rfl
  exact hadmits.program n s' hrun

/-- So does the evaluation of an input. -/
theorem evaluate
    (hparse : ∀ source tracing, N (Parser.ofSource source tracing).program)
    (hp : F p) (hm : F m) {depth : ℕ} {source : String}
    {out : Except Failure (Option Value)} {s' : Session} (hs : s.In p m I)
    (hrun : s.evaluate depth source = some (out, s')) : s'.In p m I := by
  have hprogram : F s.program := hs.program ▸ hp
  obtain ⟨hstore, -, hprogram, hmacros, -⟩ := h.lawful.evaluate
    (h.covers hm hs) hprogram
    (h.admits hparse hm hs .evaluate depth source) hrun
  exact ⟨hprogram.trans hs.program, hmacros.trans hs.macros, hstore⟩

end Stable

/-! ### Sessions that inputs lead to -/

/-- The sessions that inputs lead to, whatever comes of each of them. -/
inductive Session.Reached : Session → Prop where
  | start (tracing : Bool) : Reached (Session.start tracing)
  | expand {s s' : Session} {depth : ℕ} {source : String}
      {out : Except Failure Node} (hs : Reached s)
      (hrun : s.expand depth source = some (out, s')) : Reached s'
  | evaluate {s s' : Session} {depth : ℕ} {source : String}
      {out : Except Failure (Option Value)} (hs : Reached s)
      (hrun : s.evaluate depth source = some (out, s')) : Reached s'

end MonkeyLang

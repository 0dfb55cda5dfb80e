/-
Returned values in sessions.

* `Session.Disciplined`: an input whose program, without macros, is
  disciplined, and so are the macros that it defines and the arguments of
  those that it calls;
* `Session.disciplined_of_parsed`: an input is so if it is disciplined as it is
  written;
* `Moment.Unmarked`: no value that is bound, called, handed over or worked with
  in a job is marked as returned, and a marked one holds no other;
* `Session.Led.no_marks`: so it is in whatever disciplined inputs begin.
-/
import MonkeyLang.Proofs.Eval.Returns

namespace MonkeyLang

open Relation (ReflTransGen)

/-- The regime of disciplined values and trees. -/
abbrev Regime.disciplined : Regime :=
  .ofValues (Value.Every Value.Disciplined)
    (fun n => n.disciplined false = true)
    (fun n => n.disciplined true = true) fun _ _ => True

/-! ### Disciplined inputs -/

namespace Session

/-- An input that returns from no value position: neither in the bodies of the
macros that it defines, nor in its program once all calls of macros are
expanded.  What such a call is given stands in value positions. -/
structure Disciplined (depth : ℕ) (source : String) (s : Session) : Prop where
  definitions : ∀ n, parsed source s.tracing = .ok n →
    ∀ d ∈ n.definitions, d.2.2.disciplined false = true
  arguments : ∀ n t callee args s₁ c, parsed source s.tracing = .ok n →
    Node.Comes (Expanding.expandNode depth) n.remainder
      (s.prepared source n) (.call t callee args) s₁ →
    Expanding.macroOf? callee s₁ = some c →
    ∀ a ∈ args, a.disciplined true = true
  program : ∀ n s₁, s.expand depth source = some (.ok n, s₁) →
    n.disciplined false = true

variable {depth : ℕ} {source : String} {s : Session}

/-- The regime admits disciplined inputs. -/
lemma Disciplined.admits (h : s.Disciplined depth source) (aim : Aim) :
    Regime.disciplined.Admits aim depth source s where
  definitions n hn d hd := by
    refine ⟨.made .macroKey "macro", ?_⟩
    show Node.disciplined false (.macroFn _ _ _) = true
    rw [Node.disciplined, Bool.and_eq_true, Node.allDisciplined_iff]
    refine ⟨fun p hp => ?_, h.definitions n hn d hd⟩
    obtain ⟨w, rfl⟩ := definitions_params hn d hd p hp
    rfl
  arguments := h.arguments
  program := h.program
  calls _ _ := Regime.permits_of_all (fun _ _ => trivial) _

/-- Bound values stay disciplined along disciplined inputs. -/
lemma Led.disciplined (h : Led (fun _ => Disciplined) s) :
    s.store.Bound (Value.Every Value.Disciplined) :=
  h.bound Value.safe_disciplined fun {aim} _ _ _ _ hP => hP.admits aim

/-- An input that is disciplined as it is written is so without its macros, if
those that it calls are. -/
lemma disciplined_of_parsed (hs : s.store.Bound (Value.Every Value.Disciplined))
    (hparsed : ∀ n, parsed source s.tracing = .ok n →
      n.disciplined false = true) : s.Disciplined depth source := by
  have hadmits : Regime.disciplined.Admits .expand depth source s := by
    refine Value.safe_disciplined.lawful.admits_of_tree
      (Value.safe_disciplined.covers hs) (fun n hn => ⟨hparsed n hn, ?_⟩)
      fun _ _ => Regime.permits_of_all (fun _ _ => trivial) _
    have htree := hparsed n hn
    cases n with
    | program ss =>
        show Node.allDisciplined false _ = true
        rw [Node.disciplined, Node.allDisciplined_iff] at htree
        rw [Node.allDisciplined_iff]
        exact fun m hm => htree m (List.mem_filter.mp hm).1
    | _ => exact htree
  refine ⟨fun n hn d hd => ?_, hadmits.arguments, hadmits.program⟩
  obtain ⟨t, ht⟩ := hadmits.definitions n hn d hd
  have hcallee : (Node.allDisciplined false d.2.1 &&
      d.2.2.disciplined false) = true := ht
  rw [Bool.and_eq_true] at hcallee
  exact hcallee.2

end Session

/-! ### Where no value is marked -/

/-- In a job no value is marked as returned that is bound before or after it,
that is called or handed over, that a node works with or that a call gives; a
value that comes out of a node may be marked, but holds no marked one. -/
structure Moment.Unmarked (q : Moment) : Prop
    extends q.Only (Value.Every Value.Unmarked) where
  operands : ∀ n m e d r v s', q.job = .eval n e → q.Calls r →
    r.job = .eval m d → m ∈ n.valueParts ∨ m ∉ n.tailParts →
    r.outcome = some (.ok (some v), s') → Value.Every Value.Unmarked v

lemma Value.unmarked_of_disciplined {v : Value} (h : Every Disciplined v) :
    Every Unmarked v :=
  h.mono fun _ hv => hv.unmarked

/-- Inside the regime of disciplined values no value is marked. -/
lemma Regime.Inside.unmarked {p q : Moment}
    (h : Regime.disciplined.Inside p q) : q.Unmarked := by
  refine ⟨h.only.mono fun _ => Value.unmarked_of_disciplined, ?_⟩
  intro n m e d r v s' hn hcalls hm hposition hout
  have hlawful := Value.safe_disciplined.lawful
  have hpermits : Regime.disciplined.Permits q :=
    Regime.permits_of_all (fun _ _ => trivial) q
  have hplain := hlawful.plain_of_calls hcalls hpermits h.good h.asked hn hm
    hposition
  have hinside := hlawful.inside (.single hcalls) hpermits h.good h.asked
  have hanswer := hinside.ends.answer (r.outcome_eq ▸ hout)
  rw [hm] at hanswer
  exact Value.unmarked_of_disciplined (hanswer.2 hplain v rfl)

/-- **No mark escapes.**  In a session of disciplined inputs no bound value is
marked as returned, at any depth, nor is a value that is called, handed over,
worked with or given by a call anywhere inside the evaluations that such an
input begins, macros included, nor its result; and a marked value that comes
out of a node holds no other. -/
theorem Session.Led.no_marks {s : Session} (h : Led (fun _ => Disciplined) s) :
    s.store.Bound (Value.Every Value.Unmarked) ∧
    ∀ depth source, s.Disciplined depth source →
      (∀ aim m q, s.Begins aim depth source m →
        ReflTransGen Moment.Calls m q → q.Unmarked) ∧
      ∀ v s', s.evaluate depth source = some (.ok (some v), s') →
        Value.Every Value.Unmarked v := by
  have hbound := h.disciplined
  have hlawful := Value.safe_disciplined.lawful
  have hcovers := Value.safe_disciplined.covers hbound
  refine ⟨hbound.mono fun _ => Value.unmarked_of_disciplined,
    fun depth source hs => ⟨?_, ?_⟩⟩
  · intro aim m q hm hq
    exact (hlawful.inside_begins hcovers (fun _ => trivial) (hs.admits aim) hm
      hq).unmarked
  · intro v s' hrun
    -- the program stands where its value is that of the input, and may return;
    -- so it has to be plain
    have hplain : ∀ n s₁, s.expand depth source = some (.ok n, s₁) →
        n.disciplined true = true := by
      intro n s₁ hexpand
      obtain ⟨ss, rfl⟩ := expand_program hexpand
      exact hs.program _ s₁ hexpand
    rcases hlawful.evaluate_result hcovers trivial (hs.admits .evaluate) hplain
      hrun with herror | hv
    · cases v with
      | error f => exact Value.every_of_empty nofun nofun
      | _ => cases herror
    · exact Value.unmarked_of_disciplined hv

/-- A function that returns early and a macro. -/
def earlyReturn : String :=
  "let f = fn(x) \x7b if (x) \x7b return 1 \x7d 2 \x7d;
  let m = macro(a) \x7b quote(unquote(a)) \x7d;"

set_option maxRecDepth 4000 in
/-- The function, called with what the macro makes of its argument. -/
theorem Session.Led.no_marks_earlyReturn : ∃ s s',
    Led (fun _ => Disciplined) s ∧ s.Disciplined 20 "f(m(true))" ∧
    s.evaluate 20 "f(m(true))" = some (.ok (some (.integer 1)), s') ∧
    s.store.Bound (Value.Every Value.Unmarked) ∧
    (∀ aim m q, s.Begins aim 20 "f(m(true))" m →
      ReflTransGen Moment.Calls m q → q.Unmarked) ∧
    Value.Every Value.Unmarked (.integer 1) := by
  have hcheck : ∀ source b, (parsed source b).toOption.map
      (Node.disciplined false) = some true →
      ∀ n, parsed source b = .ok n → n.disciplined false = true := by
    intro source b hb n hn
    rw [hn] at hb
    exact Option.some.inj hb
  have hstart : Led (fun _ => Disciplined)
      (Session.start false) := .start false
  obtain ⟨out, s, hrun, htracing, s', hresult⟩ : ∃ out s,
      (Session.start false).evaluate 20 earlyReturn = some (out, s) ∧
      s.tracing = false ∧ ∃ s', s.evaluate 20 "f(m(true))" =
        some (.ok (some (.integer 1)), s') := ⟨_, _, rfl, rfl, _, rfl⟩
  have hled : Led (fun _ => Disciplined) s :=
    .evaluate hstart (disciplined_of_parsed hstart.disciplined
      (hcheck earlyReturn false rfl)) hrun
  have hinput : s.Disciplined 20 "f(m(true))" :=
    disciplined_of_parsed hled.disciplined
      (by rw [htracing]; exact hcheck _ false rfl)
  have hunmarked := hled.no_marks
  have hcalls := hunmarked.2 20 _ hinput
  exact ⟨s, s', hled, hinput, hresult, hunmarked.1, hcalls.1,
    hcalls.2 _ s' hresult⟩

end MonkeyLang

/-
Rejected inputs.

* `Session.perform`, `Session.performAll`: what one input or several ones are
  answered with, each of them expanded or evaluated;
* `Session.unheard`: a session without what it recorded;
* `performAll_unheard`, `transcriptOf_unheard`: nothing that follows depends on
  what was recorded;
* `perform_inv_rejected`: a rejected input changes nothing else;
* `performAll_of_rejected`, `transcriptOf_of_rejected`: whatever follows, in a
  session or in a dialogue, is as if there had been no such input.
-/
import MonkeyLang.Console.Dialogue
import MonkeyLang.Proofs.Session.Stable

namespace MonkeyLang

/-- Of frames, stores, trees and values that are not restricted no step of
evaluation can leave any. -/
lemma stable_true : Stable (fun _ => True) (fun _ => True) (fun _ => True)
    (fun _ => True) where
  values := Value.closed_true
  nodes := Node.hereditary_true
  literal _ _ _ := trivial
  quote _ _ := trivial
  syntaxOf _ _ _ _ := trivial
  function _ _ _ _ _ _ _ _ := trivial
  macroFn _ _ _ _ _ _ _ _ := trivial
  body _ _ := trivial
  close _ _ _ _ _ := trivial
  lookup _ _ _ _ _ _ := trivial
  bind _ _ _ _ _ _ _ := trivial
  print _ _ _ := trivial
  enter _ _ _ _ _ _ := ⟨trivial, trivial⟩

namespace Session

variable {aim : Aim} {depth : ℕ} {source : String} {s s' : Session}

/-! ### Answers -/

/-- The answer to an input: why it has no result, or the tree or the value
that it was to give. -/
abbrev Answer := Except Failure (Node ⊕ Option Value)

/-- Expands or evaluates an input. -/
def perform (aim : Aim) (depth : ℕ) (source : String) (s : Session) :
    Option (Answer × Session) :=
  match aim with
  | .expand => (s.expand depth source).map fun (out, s) => (out.map .inl, s)
  | .evaluate =>
    (s.evaluate depth source).map fun (out, s) => (out.map .inr, s)

/-- Expands or evaluates several inputs, one after the other. -/
def performAll (depth : ℕ) :
    List (Aim × String) → Session → Option (List Answer × Session)
  | [], s => some ([], s)
  | (aim, source) :: inputs, s => do
    let (answer, s) ← s.perform aim depth source
    let (answers, s) ← performAll depth inputs s
    return (answer :: answers, s)

/-! ### What was recorded -/

/-- A session without what it recorded. -/
def unheard (s : Session) : Session := { s with events := #[] }

/-- A session that recorded more before. -/
def recorded (before : Array Event) (s : Session) : Session :=
  { s with events := before ++ s.events }

lemma recorded_unheard (s : Session) : s.unheard.recorded s.events = s := by
  simp [recorded, unheard]

lemma unheard_heard (source : String) (s : Session) :
    (s.heard source).unheard = s.unheard := rfl

/-- What was recorded before stays, and has no part in anything else. -/
lemma expand_recorded (before : Array Event) (s : Session) :
    (s.recorded before).expand depth source =
      (s.expand depth source).map fun p => (p.1, p.2.recorded before) := by
  -- a regime that restricts nothing still says that what was recorded before
  -- has no part in the expansion
  have hs : s.In s.program s.macros fun _ => True := ⟨rfl, rfl, trivial⟩
  exact stable_true.lawful.expand_image before
    (stable_true.covers trivial hs)
    (stable_true.admits (fun _ _ => trivial) trivial hs .expand depth source)

lemma evaluate_recorded (before : Array Event) (s : Session) :
    (s.recorded before).evaluate depth source =
      (s.evaluate depth source).map fun p => (p.1, p.2.recorded before) := by
  rw [evaluate, expand_recorded, evaluate]
  rcases s.expand depth source with _ | ⟨f | n, t⟩
  · rfl
  · rfl
  · show (((eval depth n t.program t.store).map _).bind _) =
      (((eval depth n t.program t.store).map _).bind _).map _
    rcases eval depth n t.program t.store with _ | ⟨out, store⟩ <;> rfl

lemma perform_recorded (before : Array Event) (s : Session) :
    (s.recorded before).perform aim depth source =
      (s.perform aim depth source).map
        fun p => (p.1, p.2.recorded before) := by
  cases aim with
  | expand => simp only [perform, expand_recorded, Option.map_map]; rfl
  | evaluate => simp only [perform, evaluate_recorded, Option.map_map]; rfl

lemma performAll_recorded (before : Array Event)
    (inputs : List (Aim × String)) (s : Session) :
    performAll depth inputs (s.recorded before) =
      (performAll depth inputs s).map fun p => (p.1, p.2.recorded before) := by
  induction inputs generalizing s with
  | nil => rfl
  | cons input inputs ih =>
      obtain ⟨aim, source⟩ := input
      rw [performAll, perform_recorded, performAll]
      rcases s.perform aim depth source with _ | ⟨answer, t⟩
      · rfl
      · show (performAll depth inputs (t.recorded before)).bind _ =
          ((performAll depth inputs t).bind _).map _
        rw [ih]
        rcases performAll depth inputs t with _ | ⟨answers, u⟩ <;> rfl

/-- Sessions that differ only in what they recorded answer alike, and go on
to differ in nothing else. -/
lemma performAll_unheard (depth : ℕ) (inputs : List (Aim × String))
    {t : Session} (h : s.unheard = t.unheard) :
    (performAll depth inputs s).map (fun p => (p.1, p.2.unheard)) =
      (performAll depth inputs t).map fun p => (p.1, p.2.unheard) := by
  rw [← s.recorded_unheard, ← t.recorded_unheard, performAll_recorded,
    performAll_recorded, Option.map_map, Option.map_map, h]
  rfl

/-! ### Rejected inputs -/

/-- The parser either gives a program or rejects the input. -/
lemma parsed_error {tracing : Bool} {f : Failure}
    (h : parsed source tracing = .error f) : ∃ ds, f = .rejected ds := by
  simp only [parsed] at h
  split at h
  · cases h
  · exact ⟨_, (Except.error.inj h).symm⟩

lemma perform_of_rejected {f : Failure}
    (h : parsed source s.tracing = .error f) :
    s.perform aim depth source = some (.error f, s.heard source) := by
  have hexpand : s.expand depth source = some (.error f, s.heard source) :=
    expand_of_rejected h
  cases aim with
  | expand => simp only [perform, hexpand]; rfl
  | evaluate => simp only [perform, evaluate, hexpand]; rfl

/-- An input that has no result failed before anything was evaluated. -/
lemma perform_inv_error {f : Failure}
    (h : s.perform aim depth source = some (.error f, s')) :
    s.expand depth source = some (.error f, s') := by
  cases aim with
  | expand =>
      obtain ⟨⟨out, t⟩, hrun, hout⟩ := Option.map_eq_some_iff.mp h
      cases out <;> cases hout
      exact hrun
  | evaluate =>
      obtain ⟨⟨out, t⟩, hrun, hout⟩ := Option.map_eq_some_iff.mp h
      rcases evaluate_inv hrun with
        ⟨g, hexpand, rfl⟩ | ⟨n, u, result, store, -, -, rfl, -⟩
      · cases hout
        exact hexpand
      · cases hout

/-- It was rejected by the parser, or a call of a macro failed. -/
lemma perform_inv_rejected {ds : List Diagnostic}
    (h : s.perform aim depth source = some (.error (.rejected ds), s')) :
    parsed source s.tracing = .error (.rejected ds) ∧
      s' = s.heard source := by
  rcases expand_inv (perform_inv_error h) with
    ⟨f, hparsed, hout, hs'⟩ | ⟨n, result, -, -, hout⟩
  · cases hout
    exact ⟨hparsed, hs'⟩
  · cases result <;> cases hout

lemma perform_inv_expansion {fault : MacroFault}
    (h : s.perform aim depth source = some (.error (.expansion fault), s')) :
    ∃ n, parsed source s.tracing = .ok n ∧
      Expanding.expandAll depth n.remainder (s.prepared source n) =
        some (.error fault, s') := by
  rcases expand_inv (perform_inv_error h) with
    ⟨f, hparsed, hout, -⟩ | ⟨n, result, hparsed, hrun, hout⟩
  · obtain ⟨ds, rfl⟩ := parsed_error hparsed
    cases hout
  · cases result <;> cases hout
    exact ⟨n, hparsed, hrun⟩

/-- Inputs behind a rejected one are answered as if there had been no such
one. -/
theorem performAll_of_rejected {f : Failure}
    (h : parsed source s.tracing = .error f) (inputs : List (Aim × String)) :
    (performAll depth ((aim, source) :: inputs) s).map
        (fun p => (p.1, p.2.unheard)) =
      (performAll depth inputs s).map
        fun p => (.error f :: p.1, p.2.unheard) := by
  have hcons := congrArg (Option.map fun p : List Answer × Session =>
    (Except.error f :: p.1, p.2))
    (performAll_unheard depth inputs (unheard_heard source s))
  rw [Option.map_map, Option.map_map] at hcons
  rw [performAll, perform_of_rejected h]
  refine Eq.trans ?_ hcons
  show ((performAll depth inputs (s.heard source)).bind _).map _ = _
  rcases performAll depth inputs (s.heard source) with _ | ⟨answers, t⟩ <;> rfl

end Session

/-! ### Dialogues -/

namespace Dialogue

variable {depth : ℕ} {style : Display.Style} {prompt line : String}
  {s : Session}

lemma answer_recorded (before : Array Event) (s : Session) :
    answer depth style line (s.recorded before) =
      (answer depth style line s).map fun p => (p.1, p.2.recorded before) := by
  simp only [answer, Session.evaluate_recorded, Option.map_map]
  rfl

lemma transcriptOf_recorded (before : Array Event) (lines : List String)
    (s : Session) :
    transcriptOf depth style prompt lines (s.recorded before) =
      (transcriptOf depth style prompt lines s).map
        fun p => (p.1, p.2.recorded before) := by
  induction lines generalizing s with
  | nil => rfl
  | cons line lines ih =>
      rw [transcriptOf, answer_recorded, transcriptOf]
      rcases answer depth style line s with _ | ⟨reply, t⟩
      · rfl
      · show (if reply.broken = true then _ else _ : Option (Reply × Session)) =
          (if reply.broken = true then _ else _ :
            Option (Reply × Session)).map _
        split
        · rfl
        · show (transcriptOf depth style prompt lines (t.recorded before)).bind
              _ = ((transcriptOf depth style prompt lines t).bind _).map _
          rw [ih]
          rcases transcriptOf depth style prompt lines t with _ | ⟨more, u⟩ <;>
            rfl

/-- Sessions that differ only in what they recorded talk alike. -/
lemma transcriptOf_unheard (depth : ℕ) (style : Display.Style)
    (prompt : String) (lines : List String) {t : Session}
    (h : s.unheard = t.unheard) :
    (transcriptOf depth style prompt lines s).map
        (fun p => (p.1, p.2.unheard)) =
      (transcriptOf depth style prompt lines t).map
        fun p => (p.1, p.2.unheard) := by
  rw [← s.recorded_unheard, ← t.recorded_unheard, transcriptOf_recorded,
    transcriptOf_recorded, Option.map_map, Option.map_map, h]
  rfl

/-- A rejected line is answered with what is wrong with it. -/
lemma answer_of_rejected {f : Failure}
    (h : Session.parsed line s.tracing = .error f)
    (hprinted : s.store.printed = #[]) :
    answer depth style line s =
      some (⟨failureText f, false⟩, s.heard line) := by
  have hrun : s.evaluate depth line = some (.error f, s.heard line) := by
    rw [Session.evaluate, Session.expand_of_rejected h]
    rfl
  have hstore : { s.store with printed := #[] } = s.store := by
    rw [← hprinted]
  have houtput : s.store.output = "" := by
    rw [Store.output, hprinted]
    rfl
  simp only [answer, hrun, Option.map_some, resultText?, Session.changeStore,
    Session.heard, hstore, houtput, Option.getD_some, Option.isNone_some,
    String.empty_append]

/-- What is said behind a rejected line is as if there had been no such
line. -/
theorem transcriptOf_of_rejected {f : Failure}
    (h : Session.parsed line s.tracing = .error f)
    (hprinted : s.store.printed = #[]) (lines : List String) :
    (transcriptOf depth style prompt (line :: lines) s).map
        (fun p => (p.1, p.2.unheard)) =
      (transcriptOf depth style prompt lines s).map fun p =>
        (⟨prompt ++ failureText f ++ p.1.text, p.1.broken⟩, p.2.unheard) := by
  have hcons := congrArg (Option.map fun p : Reply × Session =>
    ((⟨prompt ++ failureText f ++ p.1.text, p.1.broken⟩ : Reply), p.2))
    (transcriptOf_unheard depth style prompt lines
      (Session.unheard_heard line s))
  rw [Option.map_map, Option.map_map] at hcons
  rw [transcriptOf, answer_of_rejected h hprinted]
  refine Eq.trans ?_ hcons
  show ((transcriptOf depth style prompt lines (s.heard line)).bind _).map _ = _
  rcases transcriptOf depth style prompt lines (s.heard line) with
    _ | ⟨more, t⟩ <;> rfl

end Dialogue

end MonkeyLang

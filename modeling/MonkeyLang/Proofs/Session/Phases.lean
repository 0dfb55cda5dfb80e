/-
What an input does, phase by phase.

* `Session.parsed`, `Session.heard`: what the parser makes of an input, known
  from its text and whether it is traced, and the session that recorded it;
* `Node.definitions`, `Node.remainder`: the macros that a program defines, and
  the program without them; `Session.defined` binds them in order;
* `expand_of_rejected`, `expand_of_parsed`, `evaluate_inv`: an input is parsed,
  its definitions are bound, its calls of macros are expanded, and what is left
  is evaluated; `expand_program`: that is a program again;
* `Session.Begins`: the evaluations that an input begins;
* `Session.Led P`: the sessions that inputs with `P` lead to, whatever comes of
  each of them and whatever output is taken away in between.
-/
import MonkeyLang.Proofs.Eval.FirstError
import MonkeyLang.Proofs.Parser.Yields

namespace MonkeyLang

/-! ### Parsing -/

namespace Session

variable (source : String) (tracing : Bool)

/-- What the parser makes of an input. -/
def parsed : Except Failure Node :=
  let result := Parser.ofSource source tracing
  if result.diagnostics.isEmpty then .ok result.program
  else .error (.rejected result.diagnostics)

/-- What is recorded of the parsing of an input. -/
def parseEvents : List Event :=
  let result := Parser.ofSource source tracing
  result.trace.map .traced ++
    if result.diagnostics.isEmpty then []
    else [.rejected result.diagnostics.length]

/-- A session that recorded the parsing of an input. -/
def heard (s : Session) : Session :=
  { s with events := s.events ++ parseEvents source s.tracing }

/-- Events are recorded one by one. -/
lemma foldl_record {α : Type} (event : α → Event) (as : List α) (s : Session) :
    as.foldl (fun s a => s.record (event a)) s =
      { s with events := s.events ++ as.map event } := by
  induction as generalizing s with
  | nil => simp
  | cons a as ih =>
      rw [List.foldl_cons, ih]
      simp [record]

lemma parse_eq (s : Session) :
    s.parse source = (parsed source s.tracing, s.heard source) := by
  simp only [parse, parsed, heard, parseEvents, foldl_record]
  split
  · rw [List.append_nil]
  · refine Prod.ext rfl (congrArg (fun es => { s with events := es }) ?_)
    apply Array.ext'
    simp

-- what is recorded has no part in anything else, so it is not looked into
attribute [irreducible] parseEvents

@[simp]
lemma heard_store (s : Session) : (s.heard source).store = s.store := rfl

@[simp]
lemma heard_program (s : Session) : (s.heard source).program = s.program := rfl

@[simp]
lemma heard_macros (s : Session) : (s.heard source).macros = s.macros := rfl

/-- The parser gives its program or rejects the input. -/
lemma parsed_eq_ok {n : Node} (h : parsed source tracing = .ok n) :
    n = (Parser.ofSource source tracing).program := by
  simp only [parsed] at h
  split at h
  · exact (Except.ok.inj h).symm
  · cases h

/-- An input that is not rejected has no faults. -/
lemma parsed_clean {n : Node} (h : parsed source tracing = .ok n) :
    (Parser.ofSource source tracing).diagnostics = [] := by
  simp only [parsed] at h
  split at h
  · next hclean => exact List.isEmpty_iff.mp hclean
  · cases h

/-- An input that is not rejected is a program, and its statements are what
the grammar makes. -/
lemma parsed_program {N : Node → Prop}
    (hN : Grammar.Builds (fun _ => True) N) {n : Node}
    (h : parsed source tracing = .ok n) :
    ∃ ss, n = .program ss ∧ ∀ m ∈ ss, N m := by
  obtain ⟨ss, hss, hN⟩ := hN.ofTokens trivial
    (fun _ _ => trivial) tracing
  exact ⟨ss, (parsed_eq_ok source tracing h).trans hss, hN⟩

end Session

/-! ### Definitions of macros -/

/-- The macros that a program defines, in order. -/
def Node.definitions : Node → List (String × List Node × Node)
  | program ss => ss.filterMap macroDefinition?
  | _ => []

/-- A program without its definitions of macros. -/
def Node.remainder : Node → Node
  | program ss => program (ss.filter fun n => n.macroDefinition?.isNone)
  | n => n

/-- What defines a macro is a `let` of a macro. -/
lemma Node.macroDefinition?_inv {n body : Node} {name : String}
    {params : List Node}
    (h : n.macroDefinition? = some (name, params, body)) :
    ∃ t u v, n = .letStmt t u (.macroFn v params body) := by
  rw [Node.macroDefinition?.eq_def] at h
  split at h
  · cases h
    exact ⟨_, _, _, rfl⟩
  · cases h

/-- The parameters of the macro that a node is or binds are identifiers. -/
def Node.NamesParams (n : Node) : Prop :=
  ∀ t ps b, (n = .macroFn t ps b ∨ ∃ u v, n = .letStmt u v (.macroFn t ps b)) →
    ∀ p ∈ ps, ∃ w, p = .ident w

lemma Node.builds_namesParams :
    Grammar.Builds (fun _ => True) NamesParams := by
  constructor
  case macroFn =>
    rintro t ps b hps - u qs c (⟨⟨⟩⟩ | ⟨v, w, ⟨⟩⟩)
    exact fun p hp => (hps p hp).exists_ident
  case letStmt =>
    rintro t name v - - hv u ps b (⟨⟨⟩⟩ | ⟨x, y, ⟨⟩⟩)
    exact hv u ps b (Or.inl rfl)
  all_goals
    intros
    rintro t ps b (⟨⟨⟩⟩ | ⟨x, y, ⟨⟩⟩)

/-- The parameters of the macros that an input defines are identifiers. -/
lemma Session.definitions_params {source : String} {tracing : Bool} {n : Node}
    (h : parsed source tracing = .ok n) :
    ∀ d ∈ n.definitions, ∀ p ∈ d.2.1, ∃ w, p = .ident w := by
  obtain ⟨ss, rfl, hss⟩ :=
    parsed_program source tracing Node.builds_namesParams h
  rintro ⟨name, params, body⟩ hd
  obtain ⟨m, hm, hdef⟩ := List.mem_filterMap.mp hd
  obtain ⟨t, u, v, rfl⟩ := Node.macroDefinition?_inv hdef
  exact hss _ hm v params body (Or.inr ⟨t, u, rfl⟩)

namespace Session

/-- A session with macros bound, one after the other. -/
def defined (ds : List (String × List Node × Node)) (s : Session) : Session :=
  ds.foldl (fun s d => s.defineMacro d.1 d.2.1 d.2.2) s

lemma defineMacros_eq (ss : List Node) (s : Session) :
    s.defineMacros ss =
      (ss.filter fun n => n.macroDefinition?.isNone,
        s.defined (ss.filterMap Node.macroDefinition?)) := by
  induction ss generalizing s with
  | nil => rfl
  | cons n ss ih =>
      rw [defineMacros]
      split
      · next name params body h =>
        simp [ih, h, defined]
      · next h =>
        simp [ih, h]

/-- The definitions of a program are taken out of it and bound. -/
lemma define_eq (n : Node) (s : Session) :
    s.define n = (n.remainder, s.defined n.definitions) := by
  cases n with
  | program ss => simp only [define, defineMacros_eq]; rfl
  | _ => rfl

/-- The session in which the calls of macros in a program are expanded: the
input is parsed and its own macros are bound. -/
def prepared (source : String) (n : Node) (s : Session) : Session :=
  (s.heard source).defined n.definitions

/-! ### Expansion and evaluation -/

variable {depth : ℕ} {source : String} {s s' : Session}

/-- A rejected input changes nothing but what is recorded. -/
lemma expand_of_rejected {f : Failure}
    (h : parsed source s.tracing = .error f) :
    s.expand depth source = some (.error f, s.heard source) := by
  unfold expand
  rw [parse_eq, h]

lemma expand_of_parsed {n : Node} (h : parsed source s.tracing = .ok n) :
    s.expand depth source =
      (s.prepared source n).expandProgram depth n.remainder := by
  have hdefine := define_eq n (s.heard source)
  unfold expand
  rw [parse_eq, h]
  simp only [hdefine]
  rfl

/-- An expansion ends with a rejected input, or as the calls of macros are
expanded in a program. -/
lemma expand_inv {out : Except Failure Node}
    (h : s.expand depth source = some (out, s')) :
    (∃ f, parsed source s.tracing = .error f ∧ out = .error f ∧
      s' = s.heard source) ∨
    ∃ n result, parsed source s.tracing = .ok n ∧
      Expanding.expandAll depth n.remainder (s.prepared source n) =
        some (result, s') ∧ out = result.mapError .expansion := by
  rcases hparsed : parsed source s.tracing with f | n
  · rw [expand_of_rejected hparsed] at h
    cases h
    exact Or.inl ⟨f, rfl, rfl, rfl⟩
  · rw [expand_of_parsed hparsed] at h
    obtain ⟨⟨result, t⟩, hresult, hout⟩ := Option.map_eq_some_iff.mp h
    cases hout
    exact Or.inr ⟨n, result, rfl, hresult, rfl⟩

/-- An evaluation ends with a failed expansion, or as the expanded program is
evaluated. -/
lemma evaluate_inv {out : Except Failure (Option Value)}
    (h : s.evaluate depth source = some (out, s')) :
    (∃ f, s.expand depth source = some (.error f, s') ∧ out = .error f) ∨
    ∃ n t result store, s.expand depth source = some (.ok n, t) ∧
      eval depth n t.program t.store = some (result, store) ∧
      out = .ok (Run.resultOf result) ∧ s' = { t with store } := by
  obtain ⟨⟨expanded, t⟩, hexpand, hrun⟩ := Option.bind_eq_some_iff.mp h
  cases expanded with
  | error f =>
      cases hrun
      exact Or.inl ⟨f, hexpand, rfl⟩
  | ok n =>
      obtain ⟨⟨v?, u⟩, hvalue, hout⟩ := Option.bind_eq_some_iff.mp hrun
      cases hout
      obtain ⟨⟨result, store⟩, heval, hout⟩ := Option.map_eq_some_iff.mp hvalue
      cases hout
      exact Or.inr ⟨n, t, result, store, hexpand, heval, rfl, rfl⟩

/-! ### What an input begins -/

/-- What is done with an input: its calls of macros are expanded, and then it
may be evaluated. -/
inductive Aim where
  | expand
  | evaluate

/-- The evaluations that an input begins: of the body of a macro wherever the
expansion comes to a call of it, in a frame that has the arguments as quotes,
and of the expanded program. -/
inductive Begins (aim : Aim) (depth : ℕ) (source : String) (s : Session) :
    Moment → Prop where
  | body {n callee : Node} {t : Token} {args : List Node} {s₁ : Session}
      {c : Closure} {e : ℕ} {store : Store}
      (hparsed : parsed source s.tracing = .ok n)
      (hcomes : Node.Comes (Expanding.expandNode depth) n.remainder
        (s.prepared source n) (.call t callee args) s₁)
      (hcallee : Expanding.macroOf? callee s₁ = some c)
      (hargs : args.length = c.params.length)
      (hframe : callFrame c (args.map .quote) s₁.store =
        some (.ok e, store)) :
      Begins aim depth source s ⟨depth, .eval c.body e, store⟩
  | program {n : Node} {s₁ : Session} (haim : aim = .evaluate)
      (hexpand : s.expand depth source = some (.ok n, s₁)) :
      Begins aim depth source s ⟨depth, .eval n s₁.program, s₁.store⟩

/-- The sessions that inputs with `P` lead to from the start, whatever comes
of each of them.  Between inputs what was printed and recorded may be taken
away. -/
inductive Led (P : Aim → ℕ → String → Session → Prop) : Session → Prop where
  | start (tracing : Bool) : Led P (Session.start tracing)
  | expand {s s' : Session} {depth : ℕ} {source : String}
      {out : Except Failure Node} (hs : Led P s)
      (hP : P .expand depth source s)
      (hrun : s.expand depth source = some (out, s')) : Led P s'
  | evaluate {s s' : Session} {depth : ℕ} {source : String}
      {out : Except Failure (Option Value)} (hs : Led P s)
      (hP : P .evaluate depth source s)
      (hrun : s.evaluate depth source = some (out, s')) : Led P s'
  | output {s : Session} (hs : Led P s) (printed : Array String)
      (events : Array Event) :
      Led P { s with store := { s.store with printed }, events }

end Session

/-! ### Calls of macros -/

namespace Expanding

variable {callee : Node} {c : Closure} {s : Session} {depth : ℕ}

/-- A macro that a node names is bound among the macros. -/
lemma macroOf?_inv (h : macroOf? callee s = some c) :
    ∃ name, s.store.lookup s.macros name = some (.macroFn c) := by
  rw [macroOf?.eq_def] at h
  split at h
  · next t =>
    split at h
    · next d hd =>
      cases h
      exact ⟨t.text, hd⟩
    · cases h
  · cases h

/-- The same names are macros where the same are bound. -/
lemma macroOf?_congr {t : Session}
    (h : ∀ name, t.store.lookup t.macros name = s.store.lookup s.macros name) :
    macroOf? callee t = macroOf? callee s := by
  cases callee with
  | ident u => simp only [macroOf?, h]
  | _ => rfl

/-- A call of a macro is expanded. -/
lemma expandNode_macro (h : macroOf? callee s = some c) (t : Token)
    (args : List Node) :
    expandNode depth (.call t callee args) s =
      expandCall depth c (.call t callee args) callee args s := by
  have hget : (get : Expanding Session) s = some (.ok s, s) := rfl
  rw [expandNode, bind_ok hget, h]

/-- Any other node stays. -/
lemma expandNode_other {n : Node}
    (h : ∀ t callee args, n = .call t callee args →
      macroOf? callee s = none) :
    expandNode depth n s = some (.ok n, s) := by
  cases n with
  | call t callee args =>
      have hget : (get : Expanding Session) s = some (.ok s, s) := rfl
      rw [expandNode, bind_ok hget, h t callee args rfl]
      rfl
  | _ => rfl

/-- What is made of a program is a program. -/
lemma expandAll_program {ss : List Node} {n : Node} {s' : Session}
    (h : expandAll depth (.program ss) s = some (.ok n, s')) :
    ∃ cs, n = .program cs := by
  have hprogram : Node.program ss ≠ .missing := nofun
  obtain ⟨cs, s₁, -, hrule⟩ := Node.transformM_inv hprogram h
  have hother : expandNode depth (.program cs) s₁ =
      some (.ok (.program cs), s₁) := expandNode_other nofun
  cases hother.symm.trans hrule
  exact ⟨cs, rfl⟩

/-- What is made of a `let` is one of the same name, with what is made of its
value. -/
lemma letStmt_of_expandAll {t u : Token} {v k : Node} {s' : Session}
    (h : expandAll depth (.letStmt t u v) s = some (.ok k, s')) :
    ∃ w s₁, expandAll depth v s = some (.ok w, s₁) ∧ k = .letStmt t u w := by
  have hlet : Node.letStmt t u v ≠ .missing := nofun
  obtain ⟨cs, s₁, hcs, hk⟩ := Node.transformM_inv hlet h
  obtain ⟨w, ds, s₂, rfl, hw, hds⟩ := Node.transformList_cons_inv hcs
  cases hds
  have hother : expandNode depth (.letStmt t u w) s₁ =
      some (.ok (.letStmt t u w), s₁) := expandNode_other nofun
  cases hother.symm.trans hk
  exact ⟨w, _, hw, rfl⟩

/-- What is made of a function literal is one. -/
lemma function_of_expandAll {t : Token} {ps : List Node} {b k : Node}
    {s' : Session}
    (h : expandAll depth (.function t ps b) s = some (.ok k, s')) :
    ∃ qs c, k = .function t qs c := by
  have hfunction : Node.function t ps b ≠ .missing := nofun
  obtain ⟨cs, s₁, -, hk⟩ := Node.transformM_inv hfunction h
  have hother : expandNode depth ((Node.function t ps b).withChildren cs) s₁ =
      some (.ok ((Node.function t ps b).withChildren cs), s₁) :=
    expandNode_other nofun
  cases hother.symm.trans hk
  exact ⟨_, _, rfl⟩

end Expanding

/-- What an input is expanded to is a program. -/
lemma Session.expand_program {depth : ℕ} {source : String} {s s' : Session}
    {n : Node} (h : s.expand depth source = some (.ok n, s')) :
    ∃ ss, n = .program ss := by
  rcases expand_inv h with ⟨f, -, hout, -⟩ | ⟨m, result, hm, hrun, hout⟩
  · cases hout
  · obtain ⟨ss, rfl, -⟩ :=
      parsed_program source s.tracing Node.builds_namesParams hm
    cases result with
    | error f => cases hout
    | ok k =>
        cases hout
        exact Expanding.expandAll_program hrun

end MonkeyLang

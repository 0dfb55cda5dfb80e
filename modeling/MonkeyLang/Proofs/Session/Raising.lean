/-
What an input may raise.

* `Escape`: what comes out of an input instead of a result: that it is rejected,
  that a macro fails, or anything that was raised underneath;
* `Escaping.expandNode`, `Session.raising`: expansion and evaluation of an input
  by evaluation that can raise something;
* `Session.raising_eq`: so an input has the result of `evaluate`;
* `Session.raising_failed`: it is rejected where the parser reports something,
  a macro fails, or it has a result; nothing else comes out of it.
-/
import MonkeyLang.Proofs.Eval.Raising
import MonkeyLang.Proofs.Session.Phases

namespace MonkeyLang

/-- What comes out of an input instead of a result. -/
inductive Escape where
  | failed (failure : Failure)
  | raised (raised : Raised)
deriving Repr

/-- What works on a session and gives an answer, lets something out, or is
nested too deep. -/
abbrev Escaping := ExceptT Escape (StateT Session Option)

namespace Escaping

/-- Runs a part of a program in the store of the session. -/
def run (r : Raising (Option Value)) : Escaping (Option Value) :=
  fun s => (r s.store).map fun (out, store) =>
    (out.mapError .raised, { s with store })

variable (depth : ℕ)

/-- Expands a call of a macro. -/
def expandCall (c : Closure) (call callee : Node) (args : List Node) :
    Escaping Node := do
  if args.length = c.params.length then
    match ← run (Raising.bodyWith (Raising.eval depth) c (args.map .quote)) with
    | some (.quote n) =>
      modify (Session.record (.expanded call n))
      return n
    | some (.error f) => throw (.failed (.expansion (.raised callee f)))
    | _ => throw (.failed (.expansion .noSyntax))
  else
    throw (.failed (.expansion (.argumentCount c.params.length args.length)))

/-- Expands a node if it is a call of a macro. -/
def expandNode (n : Node) : Escaping Node := do
  match n with
  | .call t callee args =>
    match Expanding.macroOf? callee (← get) with
    | some c => expandCall depth c (.call t callee args) callee args
    | none => return n
  | _ => return n

end Escaping

/-- The value of an input: it is parsed, its macros are bound, its calls of
macros are expanded, and what is left is evaluated. -/
def Session.raising (depth : ℕ) (source : String) (s : Session) :
    Option (Except Escape (Option Value) × Session) :=
  match s.parse source with
  | (.error failure, s) => some (.error (.failed failure), s)
  | (.ok program, s) =>
    let (program, s) := s.define program
    let whole : Escaping (Option Value) := do
      let n ← program.transformM (Escaping.expandNode depth)
      Escaping.run (Raising.eval depth n (← get).program)
    whole s

/-! ### Nothing is raised underneath -/

namespace Escaping

variable {depth : ℕ}

/-- A failed macro comes out. -/
def ofExpanding {α : Type} (r : Expanding α) : Escaping α :=
  fun s => (r s).map fun (out, s) =>
    (out.mapError fun fault => .failed (.expansion fault), s)

lemma ofExpanding_bind {α β : Type} (r : Expanding α) (k : α → Expanding β) :
    ofExpanding (r >>= k) = ofExpanding r >>= fun a => ofExpanding (k a) := by
  funext s
  show ((r s).bind _).map _ = ((r s).map _).bind _
  rcases r s with _ | ⟨f | a, s'⟩ <;> rfl

/-- A body has its result, an error as a value, and raises nothing. -/
lemma bodyWith_eq (c : Closure) (args : List Value) :
    Raising.bodyWith (Raising.eval depth) c args =
      Raising.carryValue (callFrame c args >>= fun e =>
        eval depth c.body e >>= Run.deliver) := by
  have heval : Raising.eval depth = Raising.carried (eval depth) :=
    funext fun n => funext fun e => Raising.eval_eq depth n e
  rw [heval]
  exact Raising.bodyWith_eq (settled_eval depth) c args

lemma expandCall_eq (c : Closure) (call callee : Node) (args : List Node) :
    expandCall depth c call callee args =
      ofExpanding (Expanding.expandCall depth c call callee args) := by
  unfold expandCall Expanding.expandCall
  split
  · rw [bodyWith_eq]
    have hsettled : Run.Settled (callFrame c (args.map .quote) >>= fun e =>
        eval depth c.body e >>= Run.deliver) :=
      Run.settled_bind _ fun e => Run.settled_bind _ Run.settled_deliver
    funext s
    generalize (callFrame c (args.map .quote) >>= fun e =>
      eval depth c.body e >>= Run.deliver) = body at hsettled ⊢
    show (((body s.store).map _).map _).bind _ =
      (((body s.store).map _).bind _).map _
    -- the bodies of macros come to no error values, which are all that the two
    -- could treat differently
    have hanswer : ∀ v? store, body s.store = some (.ok v?, store) →
        Value.NoError v? :=
      fun v? store h => (hsettled _ _ store trivial h).2 v? rfl
    rcases hrun : body s.store with _ | ⟨f | v?, store⟩
    · rfl
    · rfl
    · rcases v? with _ | v
      · rfl
      · cases v with
        | error f => exact absurd rfl (hanswer _ store hrun f)
        | _ => rfl
  · rfl

lemma expandNode_eq (n : Node) :
    expandNode depth n = ofExpanding (Expanding.expandNode depth n) := by
  cases n with
  | call t callee args =>
      funext s
      have hget : (get : Expanding Session) s = some (.ok s, s) := rfl
      have hget' : (get : Escaping Session) s = some (.ok s, s) := rfl
      rw [expandNode, bind_ok hget', Expanding.expandNode, ofExpanding,
        bind_ok hget]
      cases Expanding.macroOf? callee s with
      | some c => exact congrFun (expandCall_eq c _ callee args) s
      | none => rfl
  | _ => rfl

end Escaping

/-- **Nothing is raised underneath.**  Evaluating an input by evaluation that
can raise something comes to the same as evaluating it. -/
theorem Session.raising_eq (depth : ℕ) (source : String) (s : Session) :
    s.raising depth source =
      (s.evaluate depth source).map fun (out, s) =>
        (out.mapError .failed, s) := by
  have htransform (n : Node) : n.transformM (Escaping.expandNode depth) =
      Escaping.ofExpanding (Expanding.expandAll depth n) := by
    rw [funext Escaping.expandNode_eq]
    exact Node.transformM_hom Escaping.ofExpanding (fun _ => rfl)
      Escaping.ofExpanding_bind _ n
  unfold raising evaluate
  rw [parse_eq]
  rcases hparsed : parsed source s.tracing with f | n
  · rw [expand_of_rejected hparsed]
    rfl
  · rw [expand_of_parsed hparsed]
    simp only [define_eq, htransform, Raising.eval_eq]
    show (Option.map _ (Expanding.expandAll depth n.remainder
        (s.prepared source n))).bind _ =
      ((Option.map _ (Expanding.expandAll depth n.remainder
        (s.prepared source n))).bind _).map _
    rcases Expanding.expandAll depth n.remainder (s.prepared source n) with
      _ | ⟨f | m, t⟩
    · rfl
    · rfl
    · show Option.map _ (Option.map _ (eval depth m t.program t.store)) =
        ((Option.map _ (eval depth m t.program t.store)).bind _).map _
      rcases eval depth m t.program t.store with _ | ⟨f | v?, store⟩ <;> rfl

/-- An input is rejected where the parser reports something, with what it
reports. -/
lemma Session.evaluate_rejected {depth : ℕ} {source : String} {s s' : Session}
    {out : Except Failure (Option Value)}
    (h : s.evaluate depth source = some (out, s')) (ds : List Diagnostic) :
    out = .error (.rejected ds) ↔
      ds = (Parser.ofSource source s.tracing).diagnostics ∧ ds ≠ [] := by
  -- without diagnostics nothing that comes later rejects the input; with one
  -- nothing comes later
  by_cases hclean : (Parser.ofSource source s.tracing).diagnostics = []
  · have hparsed : parsed source s.tracing =
        .ok (Parser.ofSource source s.tracing).program := by
      simp [parsed, hclean]
    have hout : out ≠ .error (.rejected ds) := by
      rcases evaluate_inv h with ⟨f, hexpand, rfl⟩ | ⟨n, t, r, store, -, -, rfl, -⟩
      · rcases expand_inv hexpand with ⟨g, hg, -⟩ | ⟨n, r, -, -, hr⟩
        · cases hparsed.symm.trans hg
        · rcases r with g | m
          · obtain rfl : f = .expansion g := Except.error.inj hr
            rintro ⟨⟩
          · simp [Except.mapError] at hr
      · rintro ⟨⟩
    constructor
    · exact fun heq => absurd heq hout
    · rintro ⟨heq, hne⟩
      exact absurd (heq.trans hclean) hne
  · have hparsed : parsed source s.tracing =
        .error (.rejected (Parser.ofSource source s.tracing).diagnostics) := by
      simp [parsed, hclean]
    unfold evaluate at h
    rw [expand_of_rejected hparsed] at h
    cases h
    constructor
    · rintro ⟨⟩
      exact ⟨rfl, hclean⟩
    · rintro ⟨rfl, -⟩
      rfl

/-- **What comes out of an input.**  In whatever session, evaluating an input by
evaluation that can raise something comes to the same as evaluating it: it has a
result, maybe without a value, or it is rejected, which it is where the parser
reports something, or one of its macros fails.  Nothing that is raised
underneath comes out. -/
theorem Session.raising_failed (depth : ℕ) (source : String) (s : Session) :
    s.raising depth source =
      (s.evaluate depth source).map (fun p => (p.1.mapError .failed, p.2)) ∧
    ∀ out s', s.raising depth source = some (out, s') →
      ((∃ v?, out = .ok v?) ∨
        (∃ ds, out = .error (.failed (.rejected ds))) ∨
        ∃ fault, out = .error (.failed (.expansion fault))) ∧
      ∀ ds, out = .error (.failed (.rejected ds)) ↔
        ds = (Parser.ofSource source s.tracing).diagnostics ∧ ds ≠ [] := by
  refine ⟨raising_eq depth source s, ?_⟩
  intro out s' h
  rw [raising_eq] at h
  obtain ⟨⟨result, t⟩, hresult, hout⟩ := Option.map_eq_some_iff.mp h
  cases hout
  have hrejected := evaluate_rejected hresult
  rcases result with (ds | fault) | v?
  · refine ⟨Or.inr (Or.inl ⟨ds, rfl⟩), fun es => ?_⟩
    rw [← hrejected es]
    simp [Except.mapError]
  · refine ⟨Or.inr (Or.inr ⟨fault, rfl⟩), fun es => ?_⟩
    rw [← hrejected es]
    simp [Except.mapError]
  · refine ⟨Or.inl ⟨v?, rfl⟩, fun es => ?_⟩
    rw [← hrejected es]
    simp [Except.mapError]

set_option maxRecDepth 4000 in
/-- An unquotation of a hash whose key is a function: the result is an error
and nothing comes out. -/
theorem Session.raising_failed_functionKey : ∃ out s',
    (Session.start false).raising 12
        "quote(unquote(\x7bfn(x) \x7b x \x7d: 1\x7d))" = some (out, s') ∧
    out = .ok (some (.error (.unusableKey .function))) ∧
    ∀ ds, out = .error (.failed (.rejected ds)) ↔
      ds = (Parser.ofSource "quote(unquote(\x7bfn(x) \x7b x \x7d: 1\x7d))"
        false).diagnostics ∧ ds ≠ [] := by
  obtain ⟨s', hrun⟩ : ∃ s', (Session.start false).raising 12
      "quote(unquote(\x7bfn(x) \x7b x \x7d: 1\x7d))" =
      some (.ok (some (.error (.unusableKey .function))), s') := ⟨_, rfl⟩
  exact ⟨_, s', hrun, rfl, ((raising_failed _ _ _).2 _ s' hrun).2⟩

end MonkeyLang

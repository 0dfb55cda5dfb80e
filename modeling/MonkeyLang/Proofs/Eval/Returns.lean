/-
Where returned values go.

* `Value.Unmarked`: a value that is not marked as returned;
* `Value.Disciplined`: such a value whose trees return from no value position;
* `Value.safe_disciplined`: together with disciplined trees it is one that no
  step of evaluation can leave;
* `returned_escapes`: in general a call can give a value that is marked as
  returned, and so end the statements of its caller;
* `apply_unmarked`: it cannot among disciplined values.
-/
import MonkeyLang.Proofs.Session.Values
import MonkeyLang.Proofs.Tree.Discipline

namespace MonkeyLang

namespace Value

/-! ### Unmarked and disciplined values -/

/-- A value that is not marked as returned. -/
def Unmarked (v : Value) : Prop := v.kind ≠ .returned

/-- A value that is not marked as returned.  The body of a function or a macro
is disciplined, and a quote, which may be put anywhere, does not return. -/
def Disciplined : Value → Prop
  | returned _ => False
  | function c | macroFn c => c.body.disciplined false = true
  | quote n => n.disciplined true = true
  | _ => True

lemma Disciplined.unmarked {v : Value} (h : Disciplined v) : v.Unmarked := by
  rintro hkind
  cases v with
  | returned v => exact h
  | _ => cases hkind

/-- What is made of disciplined values is disciplined. -/
lemma formed_disciplined : Formed (Every Disciplined) := by
  refine formed_every (fun v hv => ?_) (fun _ => trivial) trivial
    fun _ _ _ _ _ _ _ => trivial
  cases v <;> trivial

/-- No step of evaluation leaves disciplined values and trees. -/
theorem safe_disciplined : Safe (Every Disciplined)
    (fun n => n.disciplined false = true)
    (fun n => n.disciplined true = true) (fun _ _ => True) where
  formed := formed_disciplined
  trees := Node.graded_disciplined
  literal _ _ _ := every_of_empty trivial (by rintro w ⟨⟩)
  quote _ hn := every_of_empty hn (by rintro w ⟨⟩)
  syntaxOf v n hv hn := by
    cases v with
    | quote m =>
        cases hn
        exact hv _ .refl
    | integer k =>
        cases hn
        rfl
    | boolean b =>
        cases hn
        cases b <;> rfl
    | _ => cases hn
  function t id ps b e hn := by
    rw [Node.disciplined, Bool.and_eq_true] at hn
    exact every_of_empty hn.2 (by rintro w ⟨⟩)
  macroFn t id ps b e hn := by
    rw [Node.disciplined, Bool.and_eq_true] at hn
    exact every_of_empty hn.2 (by rintro w ⟨⟩)
  body c hc := hc.elim (fun hc => hc _ .refl) fun hc => hc _ .refl
  -- no tree in a value position is a return statement, which alone makes marks
  marked t n v hn _ := by
    rw [Node.disciplined] at hn
    cases hn
  unmarked v hv := absurd (hv _ .refl) id
  result b args v _ hargs hv := formed_disciplined.result
    (fun _ _ => every_of_empty trivial (by rintro w ⟨⟩))
    (fun _ _ => every_of_empty trivial (by rintro w ⟨⟩)) hargs hv

end Value

/-! ### Calls -/

/-- The function `fn() { return if (true) { return 1 } }`. -/
def returnsReturn : Value :=
  .function ⟨0, [], .block (.made .lbrace "\x7b")
    [.returnStmt (.made .returnKey "return")
      (.conditional (.made .ifKey "if")
        (.boolLit (.made .trueKey "true") true)
        (.block (.made .lbrace "\x7b")
          [.returnStmt (.made .returnKey "return")
            (.intLit (.made .int "1") 1)])
        .missing)], 0⟩

set_option maxRecDepth 4000 in
/-- A call takes one mark off only, so a function that returns what returns
gives a value that is still marked; it ends the statements of its caller. -/
theorem returned_escapes :
    (¬ ∀ depth f args s v s', s.Bound (Value.Every Value.Unmarked) →
      Value.Every Value.Unmarked f →
      (∀ a ∈ args, Value.Every Value.Unmarked a) →
      apply depth f args s = some (.ok (some v), s') → v.Unmarked) ∧
    ∃ s', (Session.start false).evaluate 20
      "let f = fn() \x7b return if (true) \x7b return 1 \x7d \x7d; f(); 5" =
        some (.ok (some (.integer 1)), s') := by
  -- what the `if` gives is marked already when it is returned once more
  refine ⟨fun h => ?_, _, rfl⟩
  have hf : Value.Every Value.Unmarked returnsReturn :=
    Value.every_of_empty nofun nofun
  exact h 10 returnsReturn [] .empty (.returned (.integer 1)) _
    Store.Bound.empty hf (fun a ha => absurd ha List.not_mem_nil) rfl rfl

/-- **Returns stay inside.**  If no value that is bound, called or handed over
is marked as returned, and no tree in them returns from a value position, then
no call gives a marked value, and a call that is a statement never ends the
statements around it. -/
theorem apply_unmarked (depth : ℕ) {s : Store}
    (hs : s.Bound (Value.Every Value.Disciplined)) :
    (∀ f args v s', Value.Every Value.Disciplined f →
      (∀ a ∈ args, Value.Every Value.Disciplined a) →
      apply depth f args s = some (.ok (some v), s') → v.Unmarked) ∧
    ∀ t u callee args e last ss v? s',
      (Node.call u callee args).disciplined false = true →
      eval depth (.exprStmt t (.call u callee args)) e s =
        some (.ok v?, s') →
      sequence (eval depth) e last
        (.exprStmt t (.call u callee args) :: ss) s =
        sequence (eval depth) e v? ss s' := by
  have hlawful := Value.safe_disciplined.lawful
  -- both are the same law at two jobs, the call and the statement; the tree of
  -- the second is plain, as a call returns from no value position
  constructor
  · intro f args v s' hf hargs hrun
    have hends := hlawful.ends (p := ⟨depth, .apply f args, s⟩)
      (Regime.permits_of_all (fun _ _ => trivial) _) hs ⟨hf, hargs⟩
    exact (hends.answer hrun v rfl v .refl).unmarked
  · intro t u callee args e last ss v? s' hcall hrun
    have hplain : (Node.exprStmt t (.call u callee args)).disciplined true =
      true := hcall
    have hends := hlawful.ends
      (p := ⟨depth, .eval (.exprStmt t (.call u callee args)) e, s⟩)
      (Regime.permits_of_all (fun _ _ => trivial) _) hs
      ⟨trivial, hcall⟩
    rw [sequence, bind_ok hrun]
    split
    · next v =>
      exact absurd ((hends.answer hrun).2 hplain _ rfl _ .refl) id
    · rfl

/-- The function `fn() { if (true) { return 1 } 2 }`. -/
def returnsEarly : Value :=
  .function ⟨0, [], .block (.made .lbrace "\x7b")
    [.exprStmt (.made .ifKey "if")
      (.conditional (.made .ifKey "if")
        (.boolLit (.made .trueKey "true") true)
        (.block (.made .lbrace "\x7b")
          [.returnStmt (.made .returnKey "return")
            (.intLit (.made .int "1") 1)])
        .missing),
     .exprStmt (.made .int "2") (.intLit (.made .int "2") 2)], 0⟩

/-- The statement `f()`. -/
def callsF : Node :=
  .exprStmt (.made .ident "f")
    (.call (.made .lparen "(") (.ident (.made .ident "f")) [])

/-- The function, called as a value and by its name before another
statement. -/
theorem apply_unmarked_returnsEarly :
    let s := (Store.empty.addFrame [("f", returnsEarly)] none).2
    (∃ s', apply 10 returnsEarly [] s = some (.ok (some (.integer 1)), s') ∧
      (Value.integer 1).Unmarked) ∧
    ∃ s', eval 10 callsF 0 s = some (.ok (some (.integer 1)), s') ∧
      sequence (eval 10) 0 none [callsF, callsF] s =
        sequence (eval 10) 0 (some (.integer 1)) [callsF] s' := by
  have hf : Value.Every Value.Disciplined returnsEarly :=
    Value.every_of_empty rfl nofun
  have hs : ((Store.empty.addFrame [("f", returnsEarly)] none).2).Bound
      (Value.Every Value.Disciplined) := by
    refine Store.Bound.empty.addFrame (fun b hb => ?_) none
    rw [List.mem_singleton.mp hb]
    exact hf
  have hcalls := apply_unmarked 10 hs
  refine ⟨⟨_, rfl, ?_⟩, _, rfl, ?_⟩
  · exact hcalls.1 returnsEarly [] (.integer 1) _ hf
      (fun a ha => absurd ha List.not_mem_nil) rfl
  · exact hcalls.2 _ _ _ [] 0 none [callsF] _ _ rfl rfl

end MonkeyLang

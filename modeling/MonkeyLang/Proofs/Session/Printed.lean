/-
Printed data as an input.

* `Node.CallFree.expandAll_eq`: expanding a tree without calls gives it back
  and changes nothing;
* `parsed_of_data`: the text of data is a program of one expression, without
  calls, that gives the data;
* `evaluate_text`: as an input it is evaluated to that data, with nothing
  printed and nothing bound.
-/
import MonkeyLang.Proofs.Eval.Answers
import MonkeyLang.Proofs.Parser.Completeness
import MonkeyLang.Proofs.Value.Data

namespace MonkeyLang

/-! ### Trees without calls -/

/-- No node of a tree without calls names a macro. -/
lemma Node.CallFree.expandNode_eq {n : Node} (hn : n.CallFree) (depth : ℕ)
    (s : Session) : Expanding.expandNode depth n s = some (.ok n, s) := by
  refine Expanding.expandNode_other ?_
  rintro t callee args rfl
  cases hn with
  | node hkind _ => exact absurd rfl hkind

/-- Expanding a tree without calls gives it back and changes nothing. -/
lemma Node.CallFree.expandAll_eq {n : Node} (hn : n.CallFree) (depth : ℕ)
    (s : Session) : Expanding.expandAll depth n s = some (.ok n, s) := by
  have hrule : Expanding.expandAll depth n s =
      n.transformM (m := Expanding) pure s := by
    refine (Node.transformM_congr fun m s' hm => ?_).symm
    obtain ⟨hcallFree, -⟩ := Ends.of_comes hereditary.graded.rebuilds hm hn
      trivial hn.ends_expandAll.1
    exact (hcallFree.expandNode_eq depth s').symm
  rw [hrule, Node.transformM_pure]
  rfl

/-! ### Data -/

namespace Value.Data

variable {v : Value}

/-- Data is no error and carries no mark of a return. -/
lemma deliver (hv : v.Data) (s : Store) :
    Run.deliver (some v) s = some (.ok (some v), s) := by
  cases hv <;> rfl

/-- A statement with data for its value does not end a sequence early. -/
lemma sequence {rec : Node → ℕ → Run (Option Value)} {n : Node} {e : ℕ}
    {s : Store} (hv : v.Data) (h : rec n e s = some (.ok (some v), s)) :
    MonkeyLang.sequence rec e none [n] s = some (.ok (some v), s) := by
  rw [MonkeyLang.sequence, bind_ok h]
  cases hv <;> rfl

end Value.Data

namespace Session

variable {v : Value}

/-- The text of data is a program of one expression that gives the data. -/
lemma parsed_of_data (hv : v.Data) : ∃ t n, n.Gives v ∧ ∀ tracing,
    parsed v.text tracing = .ok (.program [.exprStmt t n]) ∧
      (Parser.ofSource v.text tracing).diagnostics = [] := by
  have hprinted : Printed .free Value.text Node.Gives v := hv.legible
  obtain ⟨t, n, hn, hsource⟩ := hprinted.ofSource
  refine ⟨t, n, hn, fun tracing => ?_⟩
  obtain ⟨hprogram, hclean⟩ := hsource tracing
  rw [parsed, hclean, hprogram]
  exact ⟨rfl, rfl⟩

/-- An input without definitions and calls is expanded to itself. -/
lemma expand_of_callFree {s : Session} {source : String} {n : Node}
    (hparsed : parsed source s.tracing = .ok n) (hnone : n.definitions = [])
    (hn : n.remainder.CallFree) (depth : ℕ) :
    s.expand depth source = some (.ok n.remainder, s.heard source) := by
  have hprepared : s.prepared source n = s.heard source := by
    rw [prepared, hnone]
    rfl
  rw [expand_of_parsed hparsed, hprepared, expandProgram, hn.expandAll_eq]
  rfl

/-- **Printed data is read back.**  From some depth on, the text of data is
an input that every session evaluates to that data, entries of hashes in the
same order: the parser reports nothing, and nothing is printed or bound. -/
theorem evaluate_text (hv : v.Data) : ∃ height, ∀ (s : Session) (depth : ℕ),
    height ≤ depth →
      (Parser.ofSource v.text s.tracing).diagnostics = [] ∧
      s.evaluate depth v.text = some (.ok (some v), s.heard v.text) ∧
      (s.heard v.text).store = s.store := by
  obtain ⟨t, n, hn, hparsed⟩ := parsed_of_data hv
  obtain ⟨height, hvalue⟩ := hn.value
  refine ⟨height + 2, fun s depth hdepth =>
    ⟨(hparsed s.tracing).2, ?_, heard_store _ s⟩⟩
  obtain ⟨depth, rfl⟩ : ∃ d, depth = d + 2 := ⟨depth - 2, by omega⟩
  have hprogram : (Node.program [.exprStmt t n]).CallFree :=
    .node nofun (List.forall_mem_singleton.mpr
      (.node nofun (List.forall_mem_singleton.mpr hn.callFree)))
  have hstatement : eval (depth + 1) (.exprStmt t n) s.program s.store =
      some (.ok (some v), s.store) := hvalue depth s.program s.store (by omega)
  -- from the inside out: the expression, its statement and the program, each a
  -- step deeper
  have heval : eval (depth + 2) (.program [.exprStmt t n]) s.program s.store =
      some (.ok (some v), s.store) := by
    show (MonkeyLang.sequence (eval (depth + 1)) s.program none
      [.exprStmt t n] >>= Run.deliver) s.store = _
    rw [bind_ok (hv.sequence hstatement), hv.deliver]
  have hexpand : s.expand (depth + 2) v.text =
      some (.ok (.program [.exprStmt t n]), s.heard v.text) :=
    expand_of_callFree (hparsed s.tracing).1 rfl hprogram (depth + 2)
  rw [evaluate, hexpand]
  show ((eval (depth + 2) (.program [.exprStmt t n]) s.program
    s.store).map _).bind _ = _
  rw [heval]
  rfl

/-- A hash with a list and a negative number in it. -/
def printedHash : Value :=
  .hash [(.integer (-3), .integer (-3), .array [.boolean true, .integer 0]),
    (.boolean false, .boolean false, .hash [])]

theorem evaluate_text_printedHash : printedHash.Data ∧
    printedHash.text = "\x7b-3: [true, 0], false: \x7b\x7d\x7d" ∧
    ∃ height, ∀ (s : Session) (depth : ℕ), height ≤ depth →
      (Parser.ofSource printedHash.text s.tracing).diagnostics = [] ∧
      s.evaluate depth printedHash.text =
        some (.ok (some printedHash), s.heard printedHash.text) ∧
      (s.heard printedHash.text).store = s.store := by
  have hempty : (Value.hash []).Data :=
    .hash Table.keyed_empty nofun nofun nofun
  have hzero : (Value.integer 0).Data := .integer (by decide) (by decide)
  have hlist : (Value.array [.boolean true, .integer 0]).Data :=
    .array (by simpa using ⟨.boolean true, hzero⟩)
  have hfirst : (Value.hash [(.integer (-3), .integer (-3),
      .array [.boolean true, .integer 0])]).Data :=
    hempty.put (Or.inl rfl) (.integer (by decide) (by decide)) hlist rfl
  have hdata : printedHash.Data :=
    hfirst.put (Or.inr rfl) (.boolean false) hempty rfl
  exact ⟨hdata, by decide +kernel, evaluate_text hdata⟩

end Session

end MonkeyLang

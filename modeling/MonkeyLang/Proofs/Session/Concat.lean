/-
Programs in two parts.

* `Session.parsed_line`: an input in a new line behind another one, parsed, and
  `Node.remainder_append`: its definitions taken out;
* `expandAll_append`: the second part of a program is expanded behind the
  first one;
* `eval_append`: so it is evaluated, if the first part does not return.
-/
import MonkeyLang.Proofs.Parser.Lines
import MonkeyLang.Proofs.Session.Phases

namespace MonkeyLang

/-! ### Parsing -/

namespace Node

/-- Programs of statements that are equal without places. -/
lemma bare_program {ss ss' : List Node} (h : ss.map bare = ss'.map bare) :
    (program ss).bare = (program ss').bare := by
  rw [bare, bare, bareList_eq_map, bareList_eq_map, h]

/-- What defines a macro does so in other places, too. -/
lemma macroDefinition?_bare (n : Node) : n.bare.macroDefinition? =
    n.macroDefinition?.map fun d =>
      (d.1, d.2.1.map bare, d.2.2.bare) := by
  cases n with
  | letStmt t name v =>
      cases v with
      | macroFn u ps b =>
          rw [bare, bare, bareList_eq_map]
          rfl
      | _ => rfl
  | _ => rfl

lemma isNone_macroDefinition?_bare (n : Node) :
    n.bare.macroDefinition?.isNone = n.macroDefinition?.isNone := by
  rw [macroDefinition?_bare, Option.isNone_map]

/-- Statements that are equal without places define the same macros, but for
places. -/
lemma definitions_bare {ss ss' : List Node} (h : ss.map bare = ss'.map bare) :
    (program ss).definitions.map (fun d => (d.1, d.2.1.map bare, d.2.2.bare)) =
      (program ss').definitions.map
        fun d => (d.1, d.2.1.map bare, d.2.2.bare) := by
  have hplaces : ∀ ts : List Node, (program ts).definitions.map
      (fun d => (d.1, d.2.1.map bare, d.2.2.bare)) =
        (ts.map bare).filterMap macroDefinition? := by
    intro ts
    rw [definitions, List.map_filterMap, List.filterMap_map]
    exact List.filterMap_congr fun n _ => (macroDefinition?_bare n).symm
  rw [hplaces, hplaces, h]

/-- What is left of them without these is equal without places, too. -/
lemma kept_bare {ss ss' : List Node} (h : ss.map bare = ss'.map bare) :
    (ss.filter fun n => n.macroDefinition?.isNone).map bare =
      (ss'.filter fun n => n.macroDefinition?.isNone).map bare := by
  have hplaces : ∀ ts : List Node,
      (ts.filter fun n => n.macroDefinition?.isNone).map bare =
        (ts.map bare).filter fun n => n.macroDefinition?.isNone := by
    intro ts
    rw [List.filter_map]
    refine congrArg (List.map bare) (List.filter_congr fun n _ => ?_)
    exact (isNone_macroDefinition?_bare n).symm
  rw [hplaces, hplaces, h]

lemma definitions_eq_nil {ss : List Node} :
    (program ss).definitions = [] ↔
      ∀ n ∈ ss, n.macroDefinition?.isNone = true := by
  simp only [definitions, List.filterMap_eq_nil_iff, Option.isNone_iff_eq_none]

lemma definitions_of_bare {ss ss' : List Node}
    (h : ss.map bare = ss'.map bare) (hss : (program ss).definitions = []) :
    (program ss').definitions = [] := by
  rw [definitions_eq_nil] at hss ⊢
  intro n hn
  obtain ⟨m, hm, hmn⟩ := List.mem_map.mp (h ▸ List.mem_map_of_mem hn)
  rw [← isNone_macroDefinition?_bare, ← hmn, isNone_macroDefinition?_bare]
  exact hss m hm

/-- Without definitions all of an input is left. -/
lemma remainder_eq {n : Node} (h : n.definitions = []) : n.remainder = n := by
  cases n with
  | program ss =>
      rw [remainder, List.filter_eq_self.mpr (definitions_eq_nil.mp h)]
  | _ => rfl

/-- Behind a program statements may stand none of which defines a macro. -/
lemma definitions_append (ss : List Node) {ws : List Node}
    (h : (program ws).definitions = []) :
    (program (ss ++ ws)).definitions = (program ss).definitions := by
  rw [definitions] at h ⊢
  rw [List.filterMap_append, h, List.append_nil]
  rfl

lemma remainder_append {ss ws : List Node}
    (h : (program ws).definitions = []) :
    (program (ss ++ ws)).remainder =
      .program (ss.filter (fun n => n.macroDefinition?.isNone) ++ ws) := by
  rw [remainder, List.filter_append,
    List.filter_eq_self.mpr (definitions_eq_nil.mp h)]

end Node

namespace Session

/-- **In the next line.**  Behind an input without faults that closes its
brackets and ends in a semicolon, the statements of the input in the next line
are the same as without it, but for their places. -/
lemma parsed_line {a b : String} {tracing : Bool} {m n : Node}
    (ha : parsed a tracing = .ok m)
    (hdue : Bracket.due (Token.beforeEnd (Token.stream a)) = some [])
    (hlast : ∀ t ∈ (Token.beforeEnd (Token.stream a)).getLast?,
      t.kind = .semicolon) (hb : parsed b tracing = .ok n) :
    ∃ ss vs ws, m = .program ss ∧ n = .program vs ∧
      parsed (a ++ "\n" ++ b) tracing = .ok (.program (ss ++ ws)) ∧
      vs.map Node.bare = ws.map Node.bare := by
  obtain ⟨ss, vs, ws, hss, hvs, hws, hbare, hfaults⟩ :=
    Parser.ofSource_line (parsed_clean a tracing ha) hdue hlast b tracing tracing
  refine ⟨ss, vs, ws, (parsed_eq_ok a tracing ha).trans hss,
    (parsed_eq_ok b tracing hb).trans hvs, ?_, hbare.symm⟩
  rw [parsed_clean b tracing hb, List.length_nil,
    List.length_eq_zero_iff] at hfaults
  simp only [parsed, hfaults, hws]
  rfl

/-- What is left of an input is expanded where its definitions are bound. -/
lemma expandAll_of_expand {depth : ℕ} {source : String} {s s' : Session}
    {n k : Node} (hn : parsed source s.tracing = .ok n)
    (h : s.expand depth source = some (.ok k, s')) :
    Expanding.expandAll depth n.remainder (s.prepared source n) =
      some (.ok k, s') := by
  rcases expand_inv h with ⟨f, -, hout, -⟩ | ⟨m, result, hm, hrun, hout⟩
  · cases hout
  · cases hn.symm.trans hm
    cases result with
    | error f => cases hout
    | ok k =>
        cases hout
        exact hrun

/-- Without definitions all of it is expanded at once. -/
lemma expandAll_of_plain {depth : ℕ} {source : String} {s s' : Session}
    {n k : Node} (hn : parsed source s.tracing = .ok n)
    (hdefinitions : n.definitions = [])
    (h : s.expand depth source = some (.ok k, s')) :
    Expanding.expandAll depth n (s.heard source) = some (.ok k, s') := by
  have hexpand := expandAll_of_expand hn h
  rw [prepared, hdefinitions, Node.remainder_eq hdefinitions] at hexpand
  exact hexpand

/-- What an input is expanded to is evaluated. -/
lemma evaluate_of_expand {depth : ℕ} {source : String} {s t : Session}
    {n : Node} (h : s.expand depth source = some (.ok n, t)) :
    s.evaluate depth source =
      (t.evaluateIn depth t.program n).map fun p => (.ok p.1, p.2) := by
  rw [evaluate, h]
  show (t.evaluateIn depth t.program n).bind _ = _
  cases t.evaluateIn depth t.program n <;> rfl

end Session

/-! ### Expansion -/

namespace Expanding

variable {depth : ℕ} {ss cs : List Node} {s s' : Session}

/-- The statements of a program are expanded one after the other. -/
lemma expandAll_statements (depth : ℕ) (ss : List Node) :
    expandAll depth (.program ss) =
      Node.transformList (expandNode depth) ss >>= fun cs =>
        pure (.program cs) := by
  have hprogram : Node.program ss ≠ .missing := nofun
  rw [expandAll, Node.transformM_eq _ hprogram]
  rfl

lemma transformList_of_expandAll
    (h : expandAll depth (.program ss) s = some (.ok (.program cs), s')) :
    Node.transformList (expandNode depth) ss s = some (.ok cs, s') := by
  rw [expandAll_statements] at h
  obtain ⟨ds, t, hds, hpure⟩ := bind_ok_inv h
  cases hpure
  exact hds

/-- No statement is lost. -/
lemma ne_nil_of_expandAll (hss : ss ≠ [])
    (h : expandAll depth (.program ss) s = some (.ok (.program cs), s')) :
    cs ≠ [] := by
  rintro rfl
  have hlength :=
    Node.length_of_transformList (transformList_of_expandAll h)
  exact hss (List.length_eq_zero_iff.mp hlength.symm)

/-- **Expansion in two parts.**  The second part of a program is expanded where
the expansion of the first one has come to. -/
theorem expandAll_append {ws ds : List Node} {s'' : Session}
    (hss : expandAll depth (.program ss) s = some (.ok (.program cs), s'))
    (hws : expandAll depth (.program ws) s' = some (.ok (.program ds), s'')) :
    expandAll depth (.program (ss ++ ws)) s =
      some (.ok (.program (cs ++ ds)), s'') := by
  rw [expandAll_statements, Node.transformList_append]
  have happend : (Node.transformList (expandNode depth) ss >>= fun cs =>
      Node.transformList (expandNode depth) ws >>= fun ds => pure (cs ++ ds))
        s = some (.ok (cs ++ ds), s'') := by
    rw [bind_ok (transformList_of_expandAll hss),
      bind_ok (transformList_of_expandAll hws)]
    rfl
  exact (bind_ok happend).trans rfl

end Expanding

/-! ### Evaluation -/

section

variable {depth : ℕ} {ss ws : List Node} {e : ℕ} {s s' : Store}
  {last : Option Value}

/-- What is delivered is delivered in the same store. -/
lemma Run.deliver_store (v? : Option Value) (s : Store) :
    ∃ result, deliver v? s = some (result, s) := by
  rcases deliver_cases v? with ⟨-, h⟩ | ⟨v, -, h⟩
  · exact ⟨_, congrFun h s⟩
  · rcases settle_cases (.ok v) with ⟨w, -, -, hw⟩ | ⟨f, hf⟩
    · exact ⟨_, (congrFun h s).trans (congrFun hw s)⟩
    · exact ⟨_, (congrFun h s).trans (congrFun hf s)⟩

/-- A program ends in the store in which its statements do. -/
lemma eval_of_sequence
    (h : sequence (eval depth) e none ss s = some (.ok last, s')) :
    ∃ result, eval (depth + 1) (.program ss) e s = some (result, s') := by
  obtain ⟨result, hresult⟩ := Run.deliver_store last s'
  exact ⟨result, (bind_ok h).trans hresult⟩

/-- **Evaluation in two parts.**  If no statement of the first part of a
program fails or returns, the second part is evaluated behind it. -/
theorem eval_append (hss : sequence (eval depth) e none ss s =
      some (.ok last, s'))
    (hlast : ∀ v, last ≠ some (.returned v)) (hws : ws ≠ []) :
    eval (depth + 1) (.program (ss ++ ws)) e s =
      eval (depth + 1) (.program ws) e s' := by
  have hnone : ∀ v, (none : Option Value) ≠ some (.returned v) := nofun
  have hsequence : sequence (eval depth) e none (ss ++ ws) s =
      sequence (eval depth) e none ws s' := by
    rw [sequence_append hnone hss hlast]
    -- the value of the last statement is not that of the first part
    cases ws with
    | nil => exact absurd rfl hws
    | cons n ws => rfl
  show (sequence (eval depth) e none (ss ++ ws) s).bind _ =
    (sequence (eval depth) e none ws s').bind _
  rw [hsequence]

end

end MonkeyLang

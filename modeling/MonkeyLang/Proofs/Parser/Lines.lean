/-
Parsing a text in a new line behind another one.

* `Derives.legal`: no illegal token belongs to a phrase;
* `Reader.alike_endAt`: the end token may be left out;
* `ofSource_line`: a text without faults that closes its brackets and ends in
  a semicolon is followed by the statements of the text in the next line, and
  the faults are as many as those of that one.
-/
import MonkeyLang.Proofs.Parser.Concat
import MonkeyLang.Proofs.Parser.Places
import MonkeyLang.Proofs.Token.Lines

namespace MonkeyLang

/-- No illegal token belongs to a phrase. -/
lemma Derives.legal {p : Phrase} {ts : List Token} {k : ℕ}
    (h : Derives p ts k) : ∀ t ∈ ts, t.kind ≠ .illegal := by
  have hclosing {k : ℕ} {us : List Token} (hus : Closing k us) :
      ∀ t ∈ us, t.kind ≠ .illegal := by
    cases hus with
    | bare => exact fun t ht => absurd ht List.not_mem_nil
    | semicolon hs => simp [hs]
  induction h with
  | prefixOp ht _ ihr =>
      refine List.forall_mem_cons.mpr ⟨fun hkind => ?_, ihr⟩
      rw [hkind] at ht
      cases ht
  | infixOp ht _ _ ihl ihr =>
      refine List.forall_mem_append.mpr
        ⟨ihl, List.forall_mem_cons.mpr ⟨fun hkind => ?_, ihr⟩⟩
      rw [hkind] at ht
      cases ht
  | exprStmt _ hus ihv =>
      rw [← List.cons_append]
      exact List.forall_mem_append.mpr ⟨ihv, hclosing hus⟩
  | letStmt ht hname hq _ hus ihv | returnStmt ht _ hus ihv =>
      have hend := hclosing hus
      simp_all [or_imp]
  | _ => simp_all [or_imp]

/-- A reader needs no end token behind its tokens. -/
lemma Reader.alike_endAt {ts : List Token} (hts : ∀ t ∈ ts, t.kind ≠ .eof)
    (p : Position) (tracing tracing' : Bool) :
    (Reader.ofTokens ts tracing).Alike []
      (Reader.ofTokens (ts ++ [Token.endAt p]) tracing') := by
  have hopen : ∀ t ∈ ts, Reader.isEnd t = false := fun t ht =>
    decide_eq_false (hts t ht)
  refine ⟨?_, ?_, rfl⟩
  · show (ts.takeWhile _).map _ = ((ts ++ [Token.endAt p]).takeWhile _).map _
    rw [List.takeWhile_append_of_pos (by simpa using hopen),
      List.takeWhile_eq_self_iff.mpr (by simpa using hopen)]
    exact congrArg _ (List.append_nil ts).symm
  · show ((ts.find? _).getD _).bare =
      (((ts ++ [Token.endAt p]).find? _).getD _).bare
    rw [List.find?_append, List.find?_eq_none.mpr (by simpa using hopen)]
    rfl

/-! ### Two texts -/

namespace Parser

variable {a : String} {tracing : Bool}

/-- **In the next line.**  Behind a text without faults that closes its brackets
and ends in a semicolon the parser finds the statements of the text in the
next line, places aside, and as many faults as in that one. -/
theorem ofSource_line (hclean : (Parser.ofSource a tracing).diagnostics = [])
    (hdue : Bracket.due (Token.beforeEnd (Token.stream a)) = some [])
    (hlast : ∀ t ∈ (Token.beforeEnd (Token.stream a)).getLast?,
      t.kind = .semicolon) (b : String) (tracing' tracing'' : Bool) :
    ∃ ss vs ws, (Parser.ofSource a tracing).program = .program ss ∧
      (Parser.ofSource b tracing').program = .program vs ∧
      (Parser.ofSource (a ++ "\n" ++ b) tracing'').program =
        .program (ss ++ ws) ∧
      ws.map Node.bare = vs.map Node.bare ∧
      (Parser.ofSource (a ++ "\n" ++ b) tracing'').diagnostics.length =
        (Parser.ofSource b tracing').diagnostics.length := by
  obtain ⟨_, _, _, hderives⟩ := exists_derives hclean
  obtain ⟨us, hstream, hus⟩ := Token.stream_line hderives.legal
    (fun t ht hkind => by rw [hlast t ht] at hkind; cases hkind) b
  have hopen := (Reader.at_ofTokens (Token.stream a) tracing).kind_ne_eof
  have hclean' : (Parser.ofTokens (Token.beforeEnd (Token.stream a))
      tracing).diagnostics = [] := by
    have hlength := (Parser.ofTokens_of_alike (Reader.alike_endAt hopen
      (Position.start.after a.toList) tracing tracing)).2
    rw [← Token.stream_eq] at hlength
    rw [Parser.ofSource] at hclean
    rw [hclean] at hlength
    exact List.length_eq_zero_iff.mp hlength
  -- the end token alone is a stream without statements
  obtain ⟨ss, none, hss, hnone, halone, -⟩ := ofTokens_border hopen hclean'
    hdue hlast [Token.endAt (Position.start.after a.toList)] tracing tracing
  obtain rfl : none = [] := Node.program.inj hnone.symm
  rw [← Token.stream_eq, List.append_nil] at halone
  obtain ⟨ss', ws, hss', hws, hboth, hfaults⟩ := ofTokens_border hopen hclean'
    hdue hlast us tracing' tracing''
  cases hss.symm.trans hss'
  rw [← hstream] at hboth hfaults
  obtain ⟨hprogram, hlength⟩ := Parser.ofTokens_alike hus tracing' tracing'
  rw [hws] at hprogram
  obtain ⟨vs, hvs, hbare⟩ : ∃ vs,
      (Parser.ofSource b tracing').program = .program vs ∧
        ws.map Node.bare = vs.map Node.bare := by
    rw [Parser.ofSource]
    generalize (Parser.ofTokens _ tracing').program = n at hprogram ⊢
    cases Node.matches_of_bare hprogram with
    | program hws => exact ⟨_, rfl, hws⟩
  exact ⟨ss, vs, ws, halone, hvs, hboth, hbare,
    (congrArg List.length hfaults).trans hlength⟩

end Parser

end MonkeyLang

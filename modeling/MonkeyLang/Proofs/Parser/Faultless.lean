/-
What a program without faults consists of.

* `Phrase.Whole`: the trees of a phrase are complete;
* `Derives.whole`: tokens derive nothing but such phrases, if their integers
  are digits;
* `Derives.parts`: statements divide the tokens that derive them;
* `ofSource_complete`: the program of a text without faults is complete, and
  each token of the text belongs to one of its statements.
-/
import MonkeyLang.Proofs.Parser.Balance
import MonkeyLang.Proofs.Parser.Complete
import MonkeyLang.Proofs.Tree.Literals

namespace MonkeyLang

open Node (Complete IsParam)

/-! ### Derived trees are complete -/

/-- Nothing is missing in the trees of a phrase. -/
def Phrase.Whole : Phrase → Prop
  | bare n | expression _ n => Complete .expression n
  | list ns | moreItems ns => ∀ n ∈ ns, Complete .expression n
  | params ns | moreParams ns => ∀ n ∈ ns, n.IsParam
  | entries ps => ∀ p ∈ ps, Complete .expression p.1 ∧ Complete .expression p.2
  | statement n => Complete .statement n
  | statements ns => ∀ n ∈ ns, Complete .statement n
  | block n => Complete .block n

/-- A token that is nothing but digits if it is an integer. -/
def Token.Legible (t : Token) : Prop :=
  t.kind = .int → ∀ c ∈ t.text.toList, Digit.isDigit c = true

/-- Tokens whose integers are digits derive nothing but complete trees. -/
theorem Derives.whole {p : Phrase} {ts : List Token} {k : ℕ}
    (h : Derives p ts k) (hts : ∀ t ∈ ts, t.Legible) : p.Whole := by
  -- the induction is on the derivation: what its rules ask of tokens is what a
  -- complete tree asks of them, and the tokens of a part are among those of the
  -- whole
  induction h with
  | ident ht => exact .ident ht
  | intLit ht hn hmax =>
      -- the grammar asks for a number that can be read; that its text spells it
      -- is what the digits are needed for
      obtain ⟨m, rfl, hm⟩ := Numeral.spells_of_read?
        (List.forall_mem_singleton.mp hts ht) hn
      exact .intLit ht hm hmax
  | trueLit ht => exact .trueLit ht
  | falseLit ht => exact .falseLit ht
  | strLit ht => exact .strLit ht
  | prefixOp ht _ ihr =>
      simp only [List.forall_mem_cons] at hts
      exact .prefixOp ht (ihr hts.2)
  | infixOp ht _ _ ihl ihr =>
      simp only [List.forall_mem_cons, List.forall_mem_append] at hts
      exact .infixOp ht (ihl hts.1) (ihr hts.2.2)
  | ifThen ht _ _ _ _ ihn iha =>
      simp only [List.forall_mem_cons, List.forall_mem_append] at hts
      exact .ifThen ht (ihn hts.2.2.1) (iha hts.2.2.2.2)
  | ifThenElse ht _ _ _ _ _ _ ihn iha ihb =>
      simp only [List.forall_mem_cons, List.forall_mem_append] at hts
      exact .ifThenElse ht (ihn hts.2.2.1) (iha hts.2.2.2.2.1)
        (ihb hts.2.2.2.2.2.2)
  | function ht _ _ _ _ ihns ihb =>
      simp only [List.forall_mem_cons, List.forall_mem_append] at hts
      exact .function ht (ihns hts.2.2.1) (ihb hts.2.2.2.2)
  | macroFn ht _ _ _ _ ihns ihb =>
      simp only [List.forall_mem_cons, List.forall_mem_append] at hts
      exact .macroFn ht (ihns hts.2.2.1) (ihb hts.2.2.2.2)
  | call ht _ _ _ ihf ihas =>
      simp only [List.forall_mem_cons, List.forall_mem_append] at hts
      exact .call ht (ihf hts.1) (ihas hts.2.2.1)
  | array ht _ _ ihes =>
      simp only [List.forall_mem_cons, List.forall_mem_append] at hts
      exact .array ht (ihes hts.2.1)
  | index ht _ _ _ ihl ihi =>
      simp only [List.forall_mem_cons, List.forall_mem_append] at hts
      exact .index ht (ihl hts.1) (ihi hts.2.2.1)
  | hash ht _ _ ihps =>
      simp only [List.forall_mem_cons, List.forall_mem_append] at hts
      have hentries := ihps hts.2.1
      exact .hash ht (fun p hp => (hentries p hp).1)
        fun p hp => (hentries p hp).2
  -- places and parentheses add nothing to a tree
  | plain _ _ ihn => exact ihn hts
  | group _ _ _ ihn =>
      simp only [List.forall_mem_cons, List.forall_mem_append] at hts
      exact ihn hts.2.1
  | noItems | itemsEnd | noParams | paramsEnd | noEntries | noStatements =>
      exact fun _ hn => absurd hn List.not_mem_nil
  | items _ _ ihn ihns =>
      rw [List.forall_mem_append] at hts
      exact List.forall_mem_cons.mpr ⟨ihn hts.1, ihns hts.2⟩
  | item _ _ _ ihn ihns =>
      simp only [List.forall_mem_cons, List.forall_mem_append] at hts
      exact List.forall_mem_cons.mpr ⟨ihn hts.2.1, ihns hts.2.2⟩
  | params ht _ ihns =>
      rw [List.forall_mem_cons] at hts
      exact List.forall_mem_cons.mpr ⟨⟨_, rfl, ht⟩, ihns hts.2⟩
  | param _ ht _ ihns =>
      simp only [List.forall_mem_cons] at hts
      exact List.forall_mem_cons.mpr ⟨⟨_, rfl, ht⟩, ihns hts.2.2⟩
  | lastEntry _ _ _ ihk ihv =>
      simp only [List.forall_mem_cons, List.forall_mem_append] at hts
      exact List.forall_mem_singleton.mpr ⟨ihk hts.1, ihv hts.2.2⟩
  | entry _ _ _ _ _ ihk ihv ihps =>
      simp only [List.forall_mem_cons, List.forall_mem_append] at hts
      exact List.forall_mem_cons.mpr
        ⟨⟨ihk hts.1, ihv hts.2.2.1⟩, ihps hts.2.2.2.2⟩
  | letStmt ht hname _ _ _ ihv =>
      simp only [List.forall_mem_cons, List.forall_mem_append] at hts
      exact .letStmt ht hname (ihv hts.2.2.2.1)
  | returnStmt ht _ _ ihv =>
      simp only [List.forall_mem_cons, List.forall_mem_append] at hts
      exact .returnStmt ht (ihv hts.2.1)
  | exprStmt _ _ ihv =>
      rw [← List.cons_append, List.forall_mem_append] at hts
      exact .exprStmt (ihv hts.1)
  | lastStatement _ ihn => exact List.forall_mem_singleton.mpr (ihn hts)
  | statements _ _ ihn ihns =>
      rw [List.forall_mem_append] at hts
      exact List.forall_mem_cons.mpr ⟨ihn hts.1, ihns hts.2⟩
  | block ho _ _ ihns =>
      simp only [List.forall_mem_cons, List.forall_mem_append] at hts
      exact .block ho (ihns hts.2.1)
  -- a block that ends with the tokens is as complete as one that is closed
  | openBlock ho _ ihns =>
      rw [List.forall_mem_cons] at hts
      exact .block ho (ihns hts.2)

/-! ### No statement is dropped -/

/-- Some tokens are those of a statement. -/
def Node.StatementOf (n : Node) (ts : List Token) : Prop :=
  ∃ k, Derives (.statement n) ts k

/-- Statements divide the tokens that derive them. -/
lemma Derives.parts {ns : List Node} {ts : List Token} {k : ℕ}
    (h : Derives (.statements ns) ts k) :
    ∃ parts : List (List Token), parts.flatten = ts ∧
      List.Forall₂ Node.StatementOf ns parts := by
  induction ns generalizing ts with
  | nil =>
      cases h
      exact ⟨[], rfl, .nil⟩
  | cons n ns ih =>
      cases h with
      | lastStatement hn => exact ⟨[ts], by simp, .cons ⟨k, hn⟩ .nil⟩
      | statements hn hns =>
          obtain ⟨parts, rfl, hparts⟩ := ih hns
          exact ⟨_ :: parts, rfl, .cons ⟨0, hn⟩ hparts⟩

/-! ### Texts without faults -/

/-- **No fault, nothing missing.**  If the parser reports nothing on a source
text, its program is complete: nothing is missing in it but alternatives of
conditionals, and each integer literal is the number that the digits of its
token denote, which is at most `maxInteger`.  The tokens of the text are those
of its statements, one after the other. -/
theorem ofSource_complete {source : String} {tracing : Bool}
    (h : (Parser.ofSource source tracing).diagnostics = []) :
    ∃ ss parts, (Parser.ofSource source tracing).program = .program ss ∧
      Complete .program (.program ss) ∧
      List.Forall₂ Node.StatementOf ss parts ∧
      parts.flatten = Token.beforeEnd (Token.stream source) := by
  obtain ⟨ss, k, hprogram, hderives⟩ := exists_derives h
  obtain ⟨parts, hflatten, hparts⟩ := hderives.parts
  have hlegible : ∀ t ∈ Token.beforeEnd (Token.stream source), t.Legible :=
    fun t ht =>
      Token.digits_of_mem_stream ((List.takeWhile_prefix _).subset ht)
  exact ⟨ss, parts, hprogram, .program (hderives.whole hlegible), hparts,
    hflatten⟩

/-- What `let a = [1, -2]; f(a)[0]` consists of. -/
theorem ofSource_complete_indexedCall :
    (Parser.ofSource "let a = [1, -2]; f(a)[0]" false).diagnostics = [] ∧
    ∃ ss parts,
      (Parser.ofSource "let a = [1, -2]; f(a)[0]" false).program =
        .program ss ∧
      Complete .program (.program ss) ∧
      List.Forall₂ Node.StatementOf ss parts ∧
      parts.flatten =
        Token.beforeEnd (Token.stream "let a = [1, -2]; f(a)[0]") :=
  have hclean :
      (Parser.ofSource "let a = [1, -2]; f(a)[0]" false).diagnostics = [] := by
    decide +kernel
  ⟨hclean, ofSource_complete hclean⟩

end MonkeyLang

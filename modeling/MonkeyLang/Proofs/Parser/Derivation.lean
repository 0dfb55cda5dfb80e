/-
Derivations of trees from tokens.

* `Derives`: some tokens derive a phrase; the semicolon behind a statement may
  be left out, and so may the braces that would close blocks where the tokens
  end, of which the derivation keeps count;
* `Derives.starts`: what the tokens that derive a phrase start with;
* `Writes.derives`: tokens that write a phrase derive it;
* `Node.tokens`: the tokens of the nodes of a tree in the order of the text;
* `Punctuated`: some tokens with punctuation in between;
* `Derives.punctuated`: the tokens that derive a tree are the tokens of its
  nodes with punctuation in between.
-/
import MonkeyLang.Proofs.Parser.Writing

namespace MonkeyLang

/-! ### Derivations -/

/-- What stands behind a statement at whose end some blocks are open: a
semicolon or nothing, and nothing if there is such a block. -/
inductive Closing : ℕ → List Token → Prop where
  | bare (k : ℕ) : Closing k []
  | semicolon {s : Token} (hs : s.kind = .semicolon) : Closing 0 [s]

/-- Some tokens derive a phrase, and as many blocks as the number says are
open where they end.  Nothing stands behind a phrase with an open block, so
that such a block reaches to the end of the tokens.  An operand without
parentheses of its own is one that its place does not demand them of. -/
inductive Derives : Phrase → List Token → ℕ → Prop where
  | ident {t : Token} (ht : t.kind = .ident) :
      Derives (.bare (.ident t)) [t] 0
  | intLit {t : Token} {n : Int} (ht : t.kind = .int)
      (hn : Numeral.read? t.text = some n) (hmax : n ≤ maxInteger) :
      Derives (.bare (.intLit t n)) [t] 0
  | trueLit {t : Token} (ht : t.kind = .trueKey) :
      Derives (.bare (.boolLit t true)) [t] 0
  | falseLit {t : Token} (ht : t.kind = .falseKey) :
      Derives (.bare (.boolLit t false)) [t] 0
  | strLit {t : Token} (ht : t.kind = .string) :
      Derives (.bare (.strLit t)) [t] 0
  | prefixOp {t : Token} {r : Node} {ts : List Token} {k : ℕ}
      (ht : t.kind.isPrefix = true)
      (hr : Derives (.expression .operand r) ts k) :
      Derives (.bare (.prefixOp t r)) (t :: ts) k
  | infixOp {t : Token} {l r : Node} {ts us : List Token} {k : ℕ}
      (ht : t.kind.isInfix = true)
      (hl : Derives (.expression (.left t.kind) l) ts 0)
      (hr : Derives (.expression (.right t.kind) r) us k) :
      Derives (.bare (.infixOp t l r)) (ts ++ t :: us) k
  | ifThen {t o c : Token} {n a : Node} {ts us : List Token} {k : ℕ}
      (ht : t.kind = .ifKey) (ho : o.kind = .lparen) (hc : c.kind = .rparen)
      (hn : Derives (.expression .free n) ts 0) (ha : Derives (.block a) us k) :
      Derives (.bare (.conditional t n a .missing)) (t :: o :: (ts ++ c :: us))
        k
  | ifThenElse {t o c s : Token} {n a b : Node} {ts us vs : List Token}
      {k : ℕ} (ht : t.kind = .ifKey) (ho : o.kind = .lparen)
      (hc : c.kind = .rparen) (hs : s.kind = .elseKey)
      (hn : Derives (.expression .free n) ts 0) (ha : Derives (.block a) us 0)
      (hb : Derives (.block b) vs k) :
      Derives (.bare (.conditional t n a b))
        (t :: o :: (ts ++ c :: (us ++ s :: vs))) k
  | function {t o c : Token} {ns : List Node} {b : Node} {ts us : List Token}
      {k : ℕ} (ht : t.kind = .function) (ho : o.kind = .lparen)
      (hc : c.kind = .rparen) (hns : Derives (.params ns) ts 0)
      (hb : Derives (.block b) us k) :
      Derives (.bare (.function t ns b)) (t :: o :: (ts ++ c :: us)) k
  | macroFn {t o c : Token} {ns : List Node} {b : Node} {ts us : List Token}
      {k : ℕ} (ht : t.kind = .macroKey) (ho : o.kind = .lparen)
      (hc : c.kind = .rparen) (hns : Derives (.params ns) ts 0)
      (hb : Derives (.block b) us k) :
      Derives (.bare (.macroFn t ns b)) (t :: o :: (ts ++ c :: us)) k
  | call {t c : Token} {f : Node} {as : List Node} {ts us : List Token}
      (ht : t.kind = .lparen) (hc : c.kind = .rparen)
      (hf : Derives (.expression .applied f) ts 0)
      (has : Derives (.list as) us 0) :
      Derives (.bare (.call t f as)) (ts ++ t :: (us ++ [c])) 0
  | array {t c : Token} {es : List Node} {ts : List Token}
      (ht : t.kind = .lbracket) (hc : c.kind = .rbracket)
      (hes : Derives (.list es) ts 0) :
      Derives (.bare (.array t es)) (t :: (ts ++ [c])) 0
  | index {t c : Token} {l i : Node} {ts us : List Token}
      (ht : t.kind = .lbracket) (hc : c.kind = .rbracket)
      (hl : Derives (.expression .applied l) ts 0)
      (hi : Derives (.expression .free i) us 0) :
      Derives (.bare (.index t l i)) (ts ++ t :: (us ++ [c])) 0
  | hash {t c : Token} {ps : List (Node × Node)} {ts : List Token}
      (ht : t.kind = .lbrace) (hc : c.kind = .rbrace)
      (hps : Derives (.entries ps) ts 0) :
      Derives (.bare (.hash t ps)) (t :: (ts ++ [c])) 0
  | plain {place : Place} {n : Node} {ts : List Token} {k : ℕ}
      (hplace : ¬ place.Demands n) (hn : Derives (.bare n) ts k) :
      Derives (.expression place n) ts k
  | group {place : Place} {o c : Token} {n : Node} {ts : List Token}
      (ho : o.kind = .lparen) (hc : c.kind = .rparen)
      (hn : Derives (.expression .free n) ts 0) :
      Derives (.expression place n) (o :: (ts ++ [c])) 0
  | noItems : Derives (.list []) [] 0
  | items {n : Node} {ns : List Node} {ts us : List Token}
      (hn : Derives (.expression .free n) ts 0)
      (hns : Derives (.moreItems ns) us 0) :
      Derives (.list (n :: ns)) (ts ++ us) 0
  | itemsEnd : Derives (.moreItems []) [] 0
  | item {s : Token} {n : Node} {ns : List Node} {ts us : List Token}
      (hs : s.kind = .comma) (hn : Derives (.expression .free n) ts 0)
      (hns : Derives (.moreItems ns) us 0) :
      Derives (.moreItems (n :: ns)) (s :: (ts ++ us)) 0
  | noParams : Derives (.params []) [] 0
  | params {t : Token} {ns : List Node} {ts : List Token}
      (ht : t.kind = .ident) (hns : Derives (.moreParams ns) ts 0) :
      Derives (.params (.ident t :: ns)) (t :: ts) 0
  | paramsEnd : Derives (.moreParams []) [] 0
  | param {s t : Token} {ns : List Node} {ts : List Token}
      (hs : s.kind = .comma) (ht : t.kind = .ident)
      (hns : Derives (.moreParams ns) ts 0) :
      Derives (.moreParams (.ident t :: ns)) (s :: t :: ts) 0
  | noEntries : Derives (.entries []) [] 0
  | lastEntry {s : Token} {k v : Node} {ts us : List Token}
      (hs : s.kind = .colon) (hk : Derives (.expression .free k) ts 0)
      (hv : Derives (.expression .free v) us 0) :
      Derives (.entries [(k, v)]) (ts ++ s :: us) 0
  | entry {s m : Token} {k v : Node} {ps : List (Node × Node)}
      {ts us vs : List Token} (hs : s.kind = .colon) (hm : m.kind = .comma)
      (hk : Derives (.expression .free k) ts 0)
      (hv : Derives (.expression .free v) us 0)
      (hps : Derives (.entries ps) vs 0) :
      Derives (.entries ((k, v) :: ps)) (ts ++ s :: (us ++ m :: vs)) 0
  | letStmt {t name q : Token} {v : Node} {ts us : List Token} {k : ℕ}
      (ht : t.kind = .letKey) (hname : name.kind = .ident)
      (hq : q.kind = .assign) (hv : Derives (.expression .free v) ts k)
      (hus : Closing k us) :
      Derives (.statement (.letStmt t name v)) (t :: name :: q :: (ts ++ us)) k
  | returnStmt {t : Token} {v : Node} {ts us : List Token} {k : ℕ}
      (ht : t.kind = .returnKey) (hv : Derives (.expression .free v) ts k)
      (hus : Closing k us) :
      Derives (.statement (.returnStmt t v)) (t :: (ts ++ us)) k
  | exprStmt {t : Token} {v : Node} {ts us : List Token} {k : ℕ}
      (hv : Derives (.expression .free v) (t :: ts) k) (hus : Closing k us) :
      Derives (.statement (.exprStmt t v)) (t :: (ts ++ us)) k
  | noStatements : Derives (.statements []) [] 0
  | lastStatement {n : Node} {ts : List Token} {k : ℕ}
      (hn : Derives (.statement n) ts k) : Derives (.statements [n]) ts k
  | statements {n : Node} {ns : List Node} {ts us : List Token} {k : ℕ}
      (hn : Derives (.statement n) ts 0) (hns : Derives (.statements ns) us k) :
      Derives (.statements (n :: ns)) (ts ++ us) k
  | block {o c : Token} {ns : List Node} {ts : List Token}
      (ho : o.kind = .lbrace) (hc : c.kind = .rbrace)
      (hns : Derives (.statements ns) ts 0) :
      Derives (.block (.block o ns)) (o :: (ts ++ [c])) 0
  | openBlock {o : Token} {ns : List Node} {ts : List Token} {k : ℕ}
      (ho : o.kind = .lbrace) (hns : Derives (.statements ns) ts k) :
      Derives (.block (.block o ns)) (o :: ts) (k + 1)

/-! ### First tokens -/

/-- An expression, a statement, a block and the rest of a list each start with
a token of their own. -/
theorem Derives.starts {p : Phrase} {ts : List Token} {k : ℕ}
    (h : Derives p ts k) : p.Starts ts := by
  -- operators, calls and indices start as what stands on their left does, all
  -- others with the token that names them
  induction h with
  | prefixOp ht =>
      exact ⟨_, _, rfl, Token.Kind.startsExpression_of_isPrefix ht⟩
  | infixOp _ _ _ ihl | call _ _ _ _ ihl | index _ _ _ _ ihl =>
      obtain ⟨t, us, rfl, ht⟩ := ihl
      exact ⟨t, _, rfl, ht⟩
  | plain _ _ ih => exact ih
  | exprStmt _ _ ih =>
      obtain ⟨t, us, hts, ht⟩ := ih
      obtain ⟨rfl, -⟩ := List.cons.inj hts
      exact ⟨_, _, rfl, Or.inl ht⟩
  | letStmt ht => exact ⟨_, _, rfl, Or.inr (Or.inl ht)⟩
  | returnStmt ht => exact ⟨_, _, rfl, Or.inr (Or.inr ht)⟩
  | itemsEnd | paramsEnd => exact Or.inl rfl
  | item hs | param hs => exact Or.inr ⟨_, _, rfl, hs⟩
  | block ho | openBlock ho => exact ⟨_, _, rfl, ho⟩
  | noItems | items | noParams | params | noEntries | lastEntry | entry
  | noStatements | lastStatement | statements => trivial
  | _ => exact ⟨_, _, rfl, by simp_all [Token.Kind.startsExpression]⟩

/-- Tokens that write a phrase derive it, and no block is open behind them. -/
theorem Writes.derives {p : Phrase} {ts : List Token} (h : Writes p ts) :
    Derives p ts 0 := by
  induction h with
  | intLit ht hn hmax => exact .intLit ht hn.read? hmax
  | group ho hc _ ihn => exact .group ho hc ihn
  | letStmt ht hname hq hs _ ihv =>
      exact .letStmt ht hname hq ihv (.semicolon hs)
  | returnStmt ht hs _ ihv => exact .returnStmt ht ihv (.semicolon hs)
  | exprStmt hs _ ihv => exact .exprStmt ihv (.semicolon hs)
  | _ => constructor <;> assumption

lemma Writes.starts {p : Phrase} {ts : List Token} (h : Writes p ts) :
    p.Starts ts :=
  h.derives.starts

/-- Expressions, at a place or not. -/
def Phrase.IsExpression : Phrase → Prop
  | bare _ | expression _ _ => True
  | _ => False

namespace Derives

/-- Expressions have tokens. -/
lemma ne_nil_of_expression {p : Phrase} {ts : List Token} {k : ℕ}
    (h : Derives p ts k) (hp : p.IsExpression) : ts ≠ [] := by
  cases p with
  | bare n | expression place n =>
      obtain ⟨t, us, rfl, -⟩ := h.starts
      exact List.cons_ne_nil _ _
  | _ => exact hp.elim

lemma ne_nil_of_statement {n : Node} {ts : List Token} {k : ℕ}
    (h : Derives (.statement n) ts k) : ts ≠ [] := by
  cases h <;> exact List.cons_ne_nil _ _

/-- No tokens derive no statements. -/
lemma statements_of_nil {ns : List Node} {k : ℕ}
    (h : Derives (.statements ns) [] k) : ns = [] ∧ k = 0 := by
  generalize hts : [] = ts at h
  cases h with
  | noStatements => exact ⟨rfl, rfl⟩
  | lastStatement hn => exact absurd hts.symm hn.ne_nil_of_statement
  | statements hn =>
      exact absurd (List.append_eq_nil_iff.mp hts.symm).1 hn.ne_nil_of_statement

/-- Statements that follow some that are over. -/
lemma append_statement {n : Node} {ns : List Node} {ts us : List Token}
    {j k : ℕ} (hn : Derives (.statement n) ts j) (hj : 0 < j → us = [])
    (hns : Derives (.statements ns) us k) :
    ∃ i, Derives (.statements (n :: ns)) (ts ++ us) i ∧
      (0 < i → 0 < j ∨ 0 < k) := by
  rcases Nat.eq_zero_or_pos j with rfl | hpos
  · exact ⟨k, hn.statements hns, Or.inr⟩
  · obtain rfl := hj hpos
    obtain ⟨rfl, -⟩ := hns.statements_of_nil
    rw [List.append_nil]
    exact ⟨j, hn.lastStatement, Or.inl⟩

end Derives

/-! ### The tokens of a tree -/

namespace Token.Kind

/-- The kinds of tokens that may go without a node: grouping parentheses and
other delimiters, separators, the equals sign and `else`. -/
def isPunctuation : Token.Kind → Bool
  | lparen | rparen | rbrace | rbracket | comma | semicolon | colon | assign
  | elseKey => true
  | _ => false

end Token.Kind

namespace Node

mutual

/-- The tokens of the nodes of a tree in the order of the text.  That of an
expression statement is one of its expression and not told twice. -/
def tokens : Node → List Token
  | missing => []
  | program ss => tokensList ss
  | letStmt t name v => t :: name :: tokens v
  | returnStmt t v => t :: tokens v
  | exprStmt _ v => tokens v
  | block t ss => t :: tokensList ss
  | ident t | intLit t _ | boolLit t _ | strLit t => [t]
  | prefixOp t r => t :: tokens r
  | infixOp t l r => tokens l ++ t :: tokens r
  | conditional t c a b => t :: (tokens c ++ (tokens a ++ tokens b))
  | function t ps b | macroFn t ps b => t :: (tokensList ps ++ tokens b)
  | call t c as => tokens c ++ t :: tokensList as
  | array t es => t :: tokensList es
  | index t l i => tokens l ++ t :: tokens i
  | hash t ps => t :: tokensPairs ps

/-- The tokens of several trees, one tree after the other. -/
def tokensList : List Node → List Token
  | [] => []
  | n :: ns => tokens n ++ tokensList ns

/-- The tokens of the entries of a hash. -/
def tokensPairs : List (Node × Node) → List Token
  | [] => []
  | (k, v) :: ps => tokens k ++ (tokens v ++ tokensPairs ps)

end

end Node

/-- The tokens of the nodes of a phrase. -/
def Phrase.tokens : Phrase → List Token
  | bare n | expression _ n | statement n | block n => n.tokens
  | list ns | moreItems ns | params ns | moreParams ns | statements ns =>
    Node.tokensList ns
  | entries ps => Node.tokensPairs ps

/-- The second tokens are the first ones, in their order, with punctuation in
between. -/
inductive Punctuated : List Token → List Token → Prop where
  | nil : Punctuated [] []
  | keep (t : Token) {ns ts : List Token} (h : Punctuated ns ts) :
      Punctuated (t :: ns) (t :: ts)
  | pass {t : Token} {ns ts : List Token} (ht : t.kind.isPunctuation = true)
      (h : Punctuated ns ts) : Punctuated ns (t :: ts)

namespace Punctuated

variable {ns ms ts us : List Token}

lemma append (h : Punctuated ns ts) (h' : Punctuated ms us) :
    Punctuated (ns ++ ms) (ts ++ us) := by
  induction h with
  | nil => exact h'
  | keep t _ ih => exact ih.keep t
  | pass ht _ ih => exact ih.pass ht

lemma append_nothing (h : Punctuated ns ts) : Punctuated (ns ++ []) ts := by
  rwa [List.append_nil]

/-- Punctuation behind the last token. -/
lemma concat {t : Token} (h : Punctuated ns ts)
    (ht : t.kind.isPunctuation = true) : Punctuated ns (ts ++ [t]) := by
  have happend := h.append (nil.pass ht)
  rwa [List.append_nil] at happend

lemma closing {k : ℕ} (h : Punctuated ns ts) (hus : Closing k us) :
    Punctuated ns (ts ++ us) := by
  cases hus with
  | bare => rwa [List.append_nil]
  | semicolon hs => exact h.concat (by rw [hs]; rfl)

end Punctuated

/-- The tokens that derive a phrase are those of its nodes, with punctuation
in between: none of them is dropped, doubled or moved. -/
theorem Derives.punctuated {p : Phrase} {ts : List Token} {k : ℕ}
    (h : Derives p ts k) : Punctuated p.tokens ts := by
  -- each token that a rule of the grammar names is either that of the node,
  -- which is kept, or punctuation, which is passed; the order is that of the
  -- rule
  induction h with
  | ident | intLit | trueLit | falseLit | strLit => exact .keep _ .nil
  | prefixOp _ _ ihr => exact ihr.keep _
  | infixOp _ _ _ ihl ihr => exact ihl.append (ihr.keep _)
  | ifThen _ ho hc _ _ ihn iha =>
      exact .keep _ (.pass (ho ▸ rfl) (ihn.append (.pass (hc ▸ rfl)
        iha.append_nothing)))
  | ifThenElse _ ho hc hs _ _ _ ihn iha ihb =>
      exact .keep _ (.pass (ho ▸ rfl) (ihn.append (.pass (hc ▸ rfl)
        (iha.append (.pass (hs ▸ rfl) ihb)))))
  | function _ ho hc _ _ ihns ihb | macroFn _ ho hc _ _ ihns ihb =>
      exact .keep _ (.pass (ho ▸ rfl) (ihns.append (.pass (hc ▸ rfl) ihb)))
  | call _ hc _ _ ihf ihas =>
      exact ihf.append (.keep _ (ihas.concat (hc ▸ rfl)))
  | array _ hc _ ihes => exact .keep _ (ihes.concat (hc ▸ rfl))
  | index _ hc _ _ ihl ihi =>
      exact ihl.append (.keep _ (ihi.concat (hc ▸ rfl)))
  | hash _ hc _ ihps => exact .keep _ (ihps.concat (hc ▸ rfl))
  | plain _ _ ihn => exact ihn
  | group ho hc _ ihn => exact .pass (ho ▸ rfl) (ihn.concat (hc ▸ rfl))
  | noItems | itemsEnd | noParams | paramsEnd | noEntries | noStatements =>
      exact .nil
  | items _ _ ihn ihns | statements _ _ ihn ihns => exact ihn.append ihns
  | item hs _ _ ihn ihns => exact .pass (hs ▸ rfl) (ihn.append ihns)
  | params _ _ ihns => exact ihns.keep _
  | param hs _ _ ihns => exact .pass (hs ▸ rfl) (ihns.keep _)
  | lastEntry hs _ _ ihk ihv =>
      exact ihk.append (.pass (hs ▸ rfl) ihv.append_nothing)
  | entry hs hm _ _ _ ihk ihv ihps =>
      exact ihk.append (.pass (hs ▸ rfl)
        (ihv.append (.pass (hm ▸ rfl) ihps)))
  | letStmt _ _ hq _ hus ihv =>
      exact .keep _ (.keep _ (.pass (hq ▸ rfl) (ihv.closing hus)))
  | returnStmt _ _ hus ihv => exact .keep _ (ihv.closing hus)
  | exprStmt _ hus ihv => exact ihv.closing hus
  | lastStatement _ ihn => exact ihn.append_nothing
  | block _ hc _ ihns => exact .keep _ (ihns.concat (hc ▸ rfl))
  | openBlock _ _ ihns => exact ihns.keep _

end MonkeyLang

/-
Complete trees, and that each of them can be written.

* `Node.shape`: a tree without the places of its tokens and without the
  tokens of its expression statements, which only show whether parentheses
  stood there;
* `Node.Complete`: a tree in which nothing is missing and each node has a
  token of its kind;
* `Node.WrittenAs`: some tokens write a tree of that shape;
* `Node.Complete.exists_writtenAs`: every complete tree can be written.
-/
import MonkeyLang.Proofs.Parser.Derivation
import MonkeyLang.Tree.Alike
import MonkeyLang.Tree.Transform

namespace MonkeyLang

namespace Node

/-! ### Shapes -/

/-- An expression statement with a token that says nothing. -/
def forgetStart : Node → Node
  | exprStmt _ v => exprStmt (.made .eof "") v
  | n => n

/-- A tree without the places of its tokens and without the tokens of its
expression statements. -/
def shape (n : Node) : Node := (n.transform forgetStart).bare

lemma bareList_eq_map (ns : List Node) : bareList ns = ns.map bare := by
  induction ns with
  | nil => rfl
  | cons n ns ih => rw [bareList, ih, List.map_cons]

lemma barePairs_eq_map (ps : List (Node × Node)) :
    barePairs ps = ps.map fun p => (p.1.bare, p.2.bare) := by
  induction ps with
  | nil => rfl
  | cons p ps ih => rw [barePairs, ih, List.map_cons]

lemma transformList_eq_map (f : Node → Node) (ns : List Node) :
    Id.run (transformList (fun n => pure (f n)) ns) = ns.map (transform f) := by
  induction ns with
  | nil => rfl
  | cons n ns ih => rw [List.map_cons, ← ih]; rfl

lemma transformPairs_eq_map (f : Node → Node) (ps : List (Node × Node)) :
    Id.run (transformPairs (fun n => pure (f n)) ps) =
      ps.map fun p => (transform f p.1, transform f p.2) := by
  induction ps with
  | nil => rfl
  | cons p ps ih => rw [List.map_cons, ← ih]; rfl

/-- The shapes of several trees. -/
lemma shape_list (ns : List Node) :
    bareList (Id.run (transformList (fun n => pure (forgetStart n)) ns)) =
      ns.map shape := by
  rw [transformList_eq_map, bareList_eq_map, List.map_map]
  rfl

/-- The shapes of the entries of a hash. -/
lemma shape_pairs (ps : List (Node × Node)) :
    barePairs (Id.run (transformPairs (fun n => pure (forgetStart n)) ps)) =
      ps.map fun p => (p.1.shape, p.2.shape) := by
  rw [transformPairs_eq_map, barePairs_eq_map, List.map_map]
  rfl

lemma shape_program (ss : List Node) :
    (program ss).shape = program (ss.map shape) := by
  rw [← shape_list]; rfl

lemma shape_block (t : Token) (ss : List Node) :
    (block t ss).shape = block t.bare (ss.map shape) := by
  rw [← shape_list]; rfl

lemma shape_exprStmt (t : Token) (v : Node) :
    (exprStmt t v).shape = exprStmt (.made .eof "") v.shape := rfl

lemma shape_function (t : Token) (ps : List Node) (b : Node) :
    (function t ps b).shape = function t.bare (ps.map shape) b.shape := by
  rw [← shape_list]; rfl

lemma shape_macroFn (t : Token) (ps : List Node) (b : Node) :
    (macroFn t ps b).shape = macroFn t.bare (ps.map shape) b.shape := by
  rw [← shape_list]; rfl

lemma shape_call (t : Token) (c : Node) (as : List Node) :
    (call t c as).shape = call t.bare c.shape (as.map shape) := by
  rw [← shape_list]; rfl

lemma shape_array (t : Token) (es : List Node) :
    (array t es).shape = array t.bare (es.map shape) := by
  rw [← shape_list]; rfl

lemma shape_hash (t : Token) (ps : List (Node × Node)) :
    (hash t ps).shape = hash t.bare (ps.map fun p => (p.1.shape, p.2.shape)) := by
  rw [← shape_pairs]; rfl

lemma shape_letStmt (t name : Token) (v : Node) :
    (letStmt t name v).shape = letStmt t.bare name.bare v.shape := rfl

lemma shape_returnStmt (t : Token) (v : Node) :
    (returnStmt t v).shape = returnStmt t.bare v.shape := rfl

lemma shape_prefixOp (t : Token) (r : Node) :
    (prefixOp t r).shape = prefixOp t.bare r.shape := rfl

lemma shape_infixOp (t : Token) (l r : Node) :
    (infixOp t l r).shape = infixOp t.bare l.shape r.shape := rfl

lemma shape_conditional (t : Token) (c a b : Node) :
    (conditional t c a b).shape =
      conditional t.bare c.shape a.shape b.shape := rfl

lemma shape_index (t : Token) (l i : Node) :
    (index t l i).shape = index t.bare l.shape i.shape := rfl

/-! ### Complete trees -/

/-- What a tree is: an expression, a statement, a block or a program. -/
inductive Role where
  | expression
  | statement
  | block
  | program

/-- A parameter with a token of its kind. -/
def IsParam (n : Node) : Prop := ∃ t, n = ident t ∧ t.kind = .ident

/-- Nothing is missing in a tree, and each node has a token of its kind.  The
tokens of expression statements are free. -/
inductive Complete : Role → Node → Prop where
  | ident {t : Token} (ht : t.kind = .ident) : Complete .expression (ident t)
  | intLit {t : Token} {n : ℕ} (ht : t.kind = .int)
      (hn : Numeral.Spells t.text n) (hmax : (n : Int) ≤ maxInteger) :
      Complete .expression (intLit t n)
  | trueLit {t : Token} (ht : t.kind = .trueKey) :
      Complete .expression (boolLit t true)
  | falseLit {t : Token} (ht : t.kind = .falseKey) :
      Complete .expression (boolLit t false)
  | strLit {t : Token} (ht : t.kind = .string) :
      Complete .expression (strLit t)
  | prefixOp {t : Token} {r : Node} (ht : t.kind.isPrefix = true)
      (hr : Complete .expression r) : Complete .expression (prefixOp t r)
  | infixOp {t : Token} {l r : Node} (ht : t.kind.isInfix = true)
      (hl : Complete .expression l) (hr : Complete .expression r) :
      Complete .expression (infixOp t l r)
  | ifThen {t : Token} {c a : Node} (ht : t.kind = .ifKey)
      (hc : Complete .expression c) (ha : Complete .block a) :
      Complete .expression (conditional t c a missing)
  | ifThenElse {t : Token} {c a b : Node} (ht : t.kind = .ifKey)
      (hc : Complete .expression c) (ha : Complete .block a)
      (hb : Complete .block b) : Complete .expression (conditional t c a b)
  | function {t : Token} {ps : List Node} {b : Node} (ht : t.kind = .function)
      (hps : ∀ p ∈ ps, p.IsParam) (hb : Complete .block b) :
      Complete .expression (function t ps b)
  | macroFn {t : Token} {ps : List Node} {b : Node} (ht : t.kind = .macroKey)
      (hps : ∀ p ∈ ps, p.IsParam) (hb : Complete .block b) :
      Complete .expression (macroFn t ps b)
  | call {t : Token} {c : Node} {as : List Node} (ht : t.kind = .lparen)
      (hc : Complete .expression c) (has : ∀ a ∈ as, Complete .expression a) :
      Complete .expression (call t c as)
  | array {t : Token} {es : List Node} (ht : t.kind = .lbracket)
      (hes : ∀ e ∈ es, Complete .expression e) :
      Complete .expression (array t es)
  | index {t : Token} {l i : Node} (ht : t.kind = .lbracket)
      (hl : Complete .expression l) (hi : Complete .expression i) :
      Complete .expression (index t l i)
  | hash {t : Token} {ps : List (Node × Node)} (ht : t.kind = .lbrace)
      (hks : ∀ p ∈ ps, Complete .expression p.1)
      (hvs : ∀ p ∈ ps, Complete .expression p.2) :
      Complete .expression (hash t ps)
  | letStmt {t name : Token} {v : Node} (ht : t.kind = .letKey)
      (hname : name.kind = .ident) (hv : Complete .expression v) :
      Complete .statement (letStmt t name v)
  | returnStmt {t : Token} {v : Node} (ht : t.kind = .returnKey)
      (hv : Complete .expression v) : Complete .statement (returnStmt t v)
  | exprStmt {t : Token} {v : Node} (hv : Complete .expression v) :
      Complete .statement (exprStmt t v)
  | block {t : Token} {ss : List Node} (ht : t.kind = .lbrace)
      (hss : ∀ s ∈ ss, Complete .statement s) : Complete .block (block t ss)
  | program {ss : List Node} (hss : ∀ s ∈ ss, Complete .statement s) :
      Complete .program (program ss)

/-! ### Trees and their writings -/

/-- Some tokens write a tree if they write one of the same shape. -/
def WrittenAs : Role → Node → List Token → Prop
  | .expression, n, ts =>
    ∃ m, m.shape = n.shape ∧ Writes (.expression .free m) ts
  | .statement, n, ts => ∃ m, m.shape = n.shape ∧ Writes (.statement m) ts
  | .block, n, ts => ∃ m, m.shape = n.shape ∧ Writes (.block m) ts
  | .program, n, ts =>
    ∃ ss, (program ss).shape = n.shape ∧ Writes (.statements ss) ts

end Node

/-- Whatever a place demands, parentheses meet it. -/
lemma Writes.at_place {n : Node} {ts : List Token}
    (h : Writes (.expression .free n) ts) (place : Place) :
    ∃ us, Writes (.expression place n) us :=
  ⟨_, Writes.group (o := .made .lparen "(") (c := .made .rparen ")") rfl rfl h⟩

namespace Node

/-- Trees that can be written one by one can be written in a row. -/
lemma exists_row {one : Node → Phrase} {row : List Node → Phrase}
    (hnil : Writes (row []) [])
    (hcons : ∀ {m ms ts us}, Writes (one m) ts → Writes (row ms) us →
      ∃ ws, Writes (row (m :: ms)) ws) {ns : List Node}
    (h : ∀ n ∈ ns, ∃ ts m, m.shape = n.shape ∧ Writes (one m) ts) :
    ∃ ms ts, ms.map shape = ns.map shape ∧ Writes (row ms) ts := by
  induction ns with
  | nil => exact ⟨[], [], rfl, hnil⟩
  | cons n ns ih =>
      obtain ⟨ts, m, hm, hts⟩ := h n (by simp)
      obtain ⟨ms, us, hms, hus⟩ := ih fun x hx => h x (by simp [hx])
      obtain ⟨ws, hws⟩ := hcons hts hus
      exact ⟨m :: ms, ws, by rw [List.map_cons, List.map_cons, hm, hms], hws⟩

lemma exists_moreItems {ns : List Node}
    (h : ∀ n ∈ ns, ∃ ts, WrittenAs .expression n ts) :
    ∃ ms ts, ms.map shape = ns.map shape ∧ Writes (.moreItems ms) ts :=
  exists_row .itemsEnd
    (fun hts hus => ⟨_, .item (s := .made .comma ",") rfl hts hus⟩) h

lemma exists_items {ns : List Node}
    (h : ∀ n ∈ ns, ∃ ts, WrittenAs .expression n ts) :
    ∃ ms ts, ms.map shape = ns.map shape ∧ Writes (.list ms) ts := by
  cases ns with
  | nil => exact ⟨[], [], rfl, .noItems⟩
  | cons n ns =>
      obtain ⟨ts, m, hm, hts⟩ := h n (by simp)
      obtain ⟨ms, us, hms, hus⟩ := exists_moreItems
        fun x (hx : x ∈ ns) => h x (by simp [hx])
      exact ⟨m :: ms, _, by rw [List.map_cons, List.map_cons, hm, hms],
        .items hts hus⟩

lemma exists_moreParams {ns : List Node} (h : ∀ p ∈ ns, p.IsParam) :
    ∃ ts, Writes (.moreParams ns) ts := by
  induction ns with
  | nil => exact ⟨[], .paramsEnd⟩
  | cons n ns ih =>
      obtain ⟨t, rfl, ht⟩ := h n (by simp)
      obtain ⟨ts, hts⟩ := ih fun x hx => h x (by simp [hx])
      exact ⟨_, .param (s := .made .comma ",") rfl ht hts⟩

lemma exists_params {ns : List Node} (h : ∀ p ∈ ns, p.IsParam) :
    ∃ ts, Writes (.params ns) ts := by
  cases ns with
  | nil => exact ⟨[], .noParams⟩
  | cons n ns =>
      obtain ⟨t, rfl, ht⟩ := h n (by simp)
      obtain ⟨ts, hts⟩ := exists_moreParams
        fun x (hx : x ∈ ns) => h x (by simp [hx])
      exact ⟨_, .params ht hts⟩

lemma exists_entries {ps : List (Node × Node)}
    (hks : ∀ p ∈ ps, ∃ ts, WrittenAs .expression p.1 ts)
    (hvs : ∀ p ∈ ps, ∃ ts, WrittenAs .expression p.2 ts) :
    ∃ qs ts, qs.map (fun q => (q.1.shape, q.2.shape)) =
      ps.map (fun p => (p.1.shape, p.2.shape)) ∧ Writes (.entries qs) ts := by
  induction ps with
  | nil => exact ⟨[], [], rfl, .noEntries⟩
  | cons p ps ih =>
      obtain ⟨ts, k, hk, hts⟩ := hks p (by simp)
      obtain ⟨us, v, hv, hus⟩ := hvs p (by simp)
      obtain ⟨qs, ws, hqs, hws⟩ := ih (fun x hx => hks x (by simp [hx]))
        fun x hx => hvs x (by simp [hx])
      exact ⟨(k, v) :: qs, _, by rw [List.map_cons, List.map_cons, hk, hv, hqs],
        .entry (s := .made .colon ":") (m := .made .comma ",") rfl rfl hts hus
          hws⟩

lemma exists_statements {ns : List Node}
    (h : ∀ n ∈ ns, ∃ ts, WrittenAs .statement n ts) :
    ∃ ms ts, ms.map shape = ns.map shape ∧ Writes (.statements ms) ts :=
  exists_row .noStatements (fun hts hus => ⟨_, .statements hts hus⟩) h

/-- An expression without parentheses of its own writes its tree. -/
lemma writtenAs_of_bare {m n : Node} {ts : List Token}
    (hshape : m.shape = n.shape) (h : Writes (.bare m) ts) :
    ∃ ts, WrittenAs .expression n ts :=
  ⟨ts, m, hshape, .plain id h⟩

/-- Every complete tree can be written. -/
theorem Complete.exists_writtenAs {role : Role} {n : Node}
    (h : Complete role n) : ∃ ts, WrittenAs role n ts := by
  -- the induction is on what makes the tree complete; each operand gets
  -- parentheses of its own, whether its place demands them or not, so that no
  -- case asks for precedences
  induction h with
  | ident ht => exact writtenAs_of_bare rfl (.ident ht)
  | intLit ht hn hmax => exact writtenAs_of_bare rfl (.intLit ht hn hmax)
  | trueLit ht => exact writtenAs_of_bare rfl (.trueLit ht)
  | falseLit ht => exact writtenAs_of_bare rfl (.falseLit ht)
  | strLit ht => exact writtenAs_of_bare rfl (.strLit ht)
  | prefixOp ht _ ih =>
      obtain ⟨ts, m, hm, hts⟩ := ih
      obtain ⟨us, hus⟩ := hts.at_place .operand
      exact writtenAs_of_bare (by rw [shape_prefixOp, hm, shape_prefixOp])
        (.prefixOp ht hus)
  | infixOp ht _ _ ihl ihr =>
      obtain ⟨ts, l, hl, hts⟩ := ihl
      obtain ⟨us, r, hr, hus⟩ := ihr
      obtain ⟨ts', hts'⟩ := hts.at_place (.left _)
      obtain ⟨us', hus'⟩ := hus.at_place (.right _)
      exact writtenAs_of_bare (by rw [shape_infixOp, hl, hr, shape_infixOp])
        (.infixOp ht hts' hus')
  | ifThen ht _ _ ihc iha =>
      obtain ⟨ts, c, hc, hts⟩ := ihc
      obtain ⟨us, a, ha, hus⟩ := iha
      exact writtenAs_of_bare
        (by rw [shape_conditional, hc, ha, shape_conditional])
        (.ifThen (o := .made .lparen "(") (c := .made .rparen ")") ht rfl rfl
          hts hus)
  | ifThenElse ht _ _ _ ihc iha ihb =>
      obtain ⟨ts, c, hc, hts⟩ := ihc
      obtain ⟨us, a, ha, hus⟩ := iha
      obtain ⟨vs, b, hb, hvs⟩ := ihb
      exact writtenAs_of_bare
        (by rw [shape_conditional, hc, ha, hb, shape_conditional])
        (.ifThenElse (o := .made .lparen "(") (c := .made .rparen ")")
          (s := .made .elseKey "else") ht rfl rfl rfl hts hus hvs)
  | function ht hps _ ihb =>
      obtain ⟨ts, hts⟩ := exists_params hps
      obtain ⟨us, b, hb, hus⟩ := ihb
      exact writtenAs_of_bare (by rw [shape_function, hb, shape_function])
        (.function (o := .made .lparen "(") (c := .made .rparen ")") ht rfl rfl
          hts hus)
  | macroFn ht hps _ ihb =>
      obtain ⟨ts, hts⟩ := exists_params hps
      obtain ⟨us, b, hb, hus⟩ := ihb
      exact writtenAs_of_bare (by rw [shape_macroFn, hb, shape_macroFn])
        (.macroFn (o := .made .lparen "(") (c := .made .rparen ")") ht rfl rfl
          hts hus)
  | call ht _ _ ihc ihas =>
      obtain ⟨ts, c, hc, hts⟩ := ihc
      obtain ⟨ts', hts'⟩ := hts.at_place .applied
      obtain ⟨as, us, has, hus⟩ := exists_items ihas
      exact writtenAs_of_bare (by rw [shape_call, hc, has, shape_call])
        (.call (c := .made .rparen ")") ht rfl hts' hus)
  | array ht _ ihes =>
      obtain ⟨es, ts, hes, hts⟩ := exists_items ihes
      exact writtenAs_of_bare (by rw [shape_array, hes, shape_array])
        (.array (c := .made .rbracket "]") ht rfl hts)
  | index ht _ _ ihl ihi =>
      obtain ⟨ts, l, hl, hts⟩ := ihl
      obtain ⟨ts', hts'⟩ := hts.at_place .applied
      obtain ⟨us, i, hi, hus⟩ := ihi
      exact writtenAs_of_bare (by rw [shape_index, hl, hi, shape_index])
        (.index (c := .made .rbracket "]") ht rfl hts' hus)
  | hash ht _ _ ihks ihvs =>
      obtain ⟨qs, ts, hqs, hts⟩ := exists_entries ihks ihvs
      exact writtenAs_of_bare (by rw [shape_hash, hqs, shape_hash])
        (.hash (c := .made .rbrace "\x7d") ht rfl hts)
  -- each statement is closed by a semicolon, so the next one never runs into it
  | letStmt ht hname _ ihv =>
      obtain ⟨ts, v, hv, hts⟩ := ihv
      exact ⟨_, _, by rw [shape_letStmt, hv, shape_letStmt],
        .letStmt (q := .made .assign "=") (s := .made .semicolon ";") ht hname
          rfl rfl hts⟩
  | returnStmt ht _ ihv =>
      obtain ⟨ts, v, hv, hts⟩ := ihv
      exact ⟨_, _, by rw [shape_returnStmt, hv, shape_returnStmt],
        .returnStmt (s := .made .semicolon ";") ht rfl hts⟩
  | exprStmt _ ihv =>
      obtain ⟨ts, v, hv, hts⟩ := ihv
      -- the statement has the first token of its expression for its own, so
      -- there has to be one
      obtain ⟨t, us, rfl, -⟩ := hts.starts
      exact ⟨_, _, by rw [shape_exprStmt, hv, shape_exprStmt],
        .exprStmt (s := .made .semicolon ";") rfl hts⟩
  | block ht _ ihss =>
      obtain ⟨ss, ts, hss, hts⟩ := exists_statements ihss
      exact ⟨_, _, by rw [shape_block, hss, shape_block],
        .block (c := .made .rbrace "\x7d") ht rfl hts⟩
  | program _ ihss =>
      obtain ⟨ss, ts, hss, hts⟩ := exists_statements ihss
      exact ⟨ts, ss, by rw [shape_program, hss, shape_program], hts⟩

end Node

end MonkeyLang

/-
Trees that are the same but for the places of their tokens.

* `Node.nodewise_bare`: places are forgotten node by node;
* `Node.text_bare`, `Node.lead_bare`: texts do not tell the places;
* `Node.Matches`: two trees have the same node on top, with children that are
  equal without places;
* `Node.matches_of_bare`: trees that are equal without places match.
-/
import MonkeyLang.Proofs.Parser.Complete
import MonkeyLang.Proofs.Tree.Children
import MonkeyLang.Tree.Text

namespace MonkeyLang

/-! ### Tokens -/

lemma Token.bare_eq_iff {t u : Token} :
    t.bare = u.bare ↔ t.kind = u.kind ∧ t.text = u.text :=
  Token.alike_iff.symm

namespace Node

/-! ### Node by node -/

/-- Places are forgotten node by node. -/
lemma nodewise_bare : Nodewise (fun _ => Token.bare) Token.bare bare := by
  intro n
  cases n with
  | program ss | block t ss | array t ss =>
      simp only [bare, retoken, children, withChildren, bareList_eq_map]
  | function t ps b =>
      simp only [bare, retoken, children, withChildren_map_function,
        bareList_eq_map]
  | macroFn t ps b =>
      simp only [bare, retoken, children, withChildren_map_macroFn,
        bareList_eq_map]
  | call t c as =>
      simp only [bare, retoken, children, withChildren, List.map_cons,
        bareList_eq_map]
  | hash t ps =>
      simp only [bare, retoken, children, withChildren_map_hash,
        barePairs_eq_map]
  | _ => rfl

lemma isMissing_bare (n : Node) : n.bare.isMissing = n.isMissing :=
  nodewise_bare.isMissing n

lemma kind_bare (n : Node) : n.bare.kind = n.kind := nodewise_bare.kind n

lemma children_bare (n : Node) : n.bare.children = n.children.map bare :=
  nodewise_bare.children n

/-- A node gets children without places by getting some and forgetting
places. -/
lemma bare_withChildren (n : Node) (cs : List Node) :
    (n.withChildren cs).bare = n.bare.withChildren (cs.map bare) :=
  nodewise_bare.withChildren n cs

/-! ### Texts -/

/-- The text that a tree starts with does not tell its places. -/
lemma lead_bare (n : Node) : n.bare.lead = n.lead := by
  induction n using Node.induct with
  | program ss ih =>
      cases ss with
      | nil => rfl
      | cons s ss => exact ih s List.mem_cons_self
  | _ => rfl

lemma name_bare (n : Node) : n.bare.name = n.name := lead_bare n

lemma texts_bare {ns : List Node} (h : ∀ n ∈ ns, n.bare.text = n.text) :
    texts (bareList ns) = texts ns := by
  rw [texts_eq_map, texts_eq_map, bareList_eq_map, List.map_map]
  exact List.map_congr_left h

lemma pairTexts_bare {ps : List (Node × Node)}
    (h : ∀ p ∈ ps, p.1.bare.text = p.1.text ∧ p.2.bare.text = p.2.text) :
    pairTexts (barePairs ps) = pairTexts ps := by
  induction ps with
  | nil => rfl
  | cons p ps ih =>
      obtain ⟨hp, hps⟩ := List.forall_mem_cons.mp h
      rw [barePairs, pairTexts, hp.1, hp.2, ih hps]
      rfl

/-- The text of a tree does not tell its places. -/
theorem text_bare (n : Node) : n.bare.text = n.text := by
  induction n using Node.induct with
  | program ss ih | block t ss ih | array t ss ih =>
      simp only [bare, text, texts_bare ih]
  | function t ps b ih ihb | macroFn t ps b ih ihb =>
      simp only [bare, text, texts_bare ih, ihb]
      rfl
  | call t c as ihc ih => simp only [bare, text, texts_bare ih, ihc]
  | hash t ps ih => simp only [bare, text, pairTexts_bare ih]
  | missing => rfl
  | _ => simp_all only [bare, text, isMissing_bare, Token.bare, Token.made]

/-- Trees that are equal without places have one text. -/
lemma text_of_bare {m n : Node} (h : m.bare = n.bare) : m.text = n.text := by
  rw [← text_bare, h, text_bare]

lemma map_text_of_bare {ms ns : List Node} (h : ms.map bare = ns.map bare) :
    ms.map text = ns.map text := by
  have htext := congrArg (List.map text) h
  simpa only [List.map_map, Function.comp_def, text_bare] using htext

lemma map_name_of_bare {ms ns : List Node} (h : ms.map bare = ns.map bare) :
    ms.map name = ns.map name := by
  have hname := congrArg (List.map name) h
  simpa only [List.map_map, Function.comp_def, name_bare] using hname

/-! ### The node on top -/

/-- Two trees have the same node on top, and children that are equal without
places. -/
inductive Matches : Node → Node → Prop where
  | missing : Matches missing missing
  | program {ss ss' : List Node} (hss : ss.map bare = ss'.map bare) :
      Matches (program ss) (program ss')
  | letStmt {t t' name name' : Token} {v v' : Node}
      (hname : name.text = name'.text) (hv : v.bare = v'.bare) :
      Matches (letStmt t name v) (letStmt t' name' v')
  | returnStmt {t t' : Token} {v v' : Node} (hv : v.bare = v'.bare) :
      Matches (returnStmt t v) (returnStmt t' v')
  | exprStmt {t t' : Token} {v v' : Node} (hv : v.bare = v'.bare) :
      Matches (exprStmt t v) (exprStmt t' v')
  | block {t t' : Token} {ss ss' : List Node}
      (hss : ss.map bare = ss'.map bare) :
      Matches (block t ss) (block t' ss')
  | ident {t t' : Token} (ht : t.text = t'.text) :
      Matches (ident t) (ident t')
  | intLit {t t' : Token} (n : Int) : Matches (intLit t n) (intLit t' n)
  | boolLit {t t' : Token} (b : Bool) : Matches (boolLit t b) (boolLit t' b)
  | strLit {t t' : Token} (ht : t.text = t'.text) :
      Matches (strLit t) (strLit t')
  | prefixOp {t t' : Token} {r r' : Node} (ht : t.text = t'.text)
      (hr : r.bare = r'.bare) : Matches (prefixOp t r) (prefixOp t' r')
  | infixOp {t t' : Token} {l l' r r' : Node} (ht : t.text = t'.text)
      (hl : l.bare = l'.bare) (hr : r.bare = r'.bare) :
      Matches (infixOp t l r) (infixOp t' l' r')
  | conditional {t t' : Token} {c c' a a' b b' : Node} (hc : c.bare = c'.bare)
      (ha : a.bare = a'.bare) (hb : b.bare = b'.bare) :
      Matches (conditional t c a b) (conditional t' c' a' b')
  | function {t t' : Token} {ps ps' : List Node} {b b' : Node}
      (hps : ps.map bare = ps'.map bare) (hb : b.bare = b'.bare) :
      Matches (function t ps b) (function t' ps' b')
  | macroFn {t t' : Token} {ps ps' : List Node} {b b' : Node}
      (hps : ps.map bare = ps'.map bare) (hb : b.bare = b'.bare) :
      Matches (macroFn t ps b) (macroFn t' ps' b')
  | call {t t' : Token} {c c' : Node} {as as' : List Node}
      (hc : c.bare = c'.bare) (has : as.map bare = as'.map bare) :
      Matches (call t c as) (call t' c' as')
  | array {t t' : Token} {es es' : List Node}
      (hes : es.map bare = es'.map bare) : Matches (array t es) (array t' es')
  | index {t t' : Token} {l l' i i' : Node} (hl : l.bare = l'.bare)
      (hi : i.bare = i'.bare) : Matches (index t l i) (index t' l' i')
  | hash {t t' : Token} {ps ps' : List (Node × Node)}
      (hps : ps.map (fun p => (p.1.bare, p.2.bare)) =
        ps'.map fun p => (p.1.bare, p.2.bare)) :
      Matches (hash t ps) (hash t' ps')

/-- Trees that are equal without places match. -/
theorem matches_of_bare {m n : Node} (h : m.bare = n.bare) : m.Matches n := by
  have hkind : m.kind = n.kind := by rw [← kind_bare, h, kind_bare]
  cases m <;> cases n <;> cases hkind
  case missing => exact .missing
  all_goals
    simp only [bare, bareList_eq_map, barePairs_eq_map, Node.program.injEq,
      Node.letStmt.injEq, Node.returnStmt.injEq, Node.exprStmt.injEq,
      Node.block.injEq, Node.ident.injEq, Node.intLit.injEq,
      Node.boolLit.injEq, Node.strLit.injEq, Node.prefixOp.injEq,
      Node.infixOp.injEq, Node.conditional.injEq, Node.function.injEq,
      Node.macroFn.injEq, Node.call.injEq, Node.array.injEq,
      Node.index.injEq, Node.hash.injEq, Token.bare_eq_iff] at h
  case program => exact .program h
  case letStmt => exact .letStmt h.2.1.2 h.2.2
  case returnStmt => exact .returnStmt h.2
  case exprStmt => exact .exprStmt h.2
  case block => exact .block h.2
  case ident => exact .ident h.2
  case intLit => exact h.2 ▸ .intLit _
  case boolLit => exact h.2 ▸ .boolLit _
  case strLit => exact .strLit h.2
  case prefixOp => exact .prefixOp h.1.2 h.2
  case infixOp => exact .infixOp h.1.2 h.2.1 h.2.2
  case conditional => exact .conditional h.2.1 h.2.2.1 h.2.2.2
  case function => exact .function h.2.1 h.2.2
  case macroFn => exact .macroFn h.2.1 h.2.2
  case call => exact .call h.2.1 h.2.2
  case array => exact .array h.2
  case index => exact .index h.2.1 h.2.2
  case hash => exact .hash h.2

end Node

end MonkeyLang

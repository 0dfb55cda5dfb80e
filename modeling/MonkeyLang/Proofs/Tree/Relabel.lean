/-
Trees with other names.

* `Spares π`: a permutation of names that keeps those with a meaning of their
  own: the names of the functions of the language, `quote` and `unquote`;
* `Node.relabel π`: a tree with `π` applied to all identifiers;
* `nodewise_relabel`: trees are relabelled node by node;
* `relabel_relabel_symm`, `alike_relabel`: nothing gets lost by that;
* `Node.Named`: the parameters of all functions and macros in a tree are
  identifiers;
* `rebuilds_named`: changing trees keeps this if it makes nothing else of an
  identifier;
* `Parser.named_ofSource`: it holds of all that is read from a source.
-/
import MonkeyLang.Proofs.Eval.Ends
import MonkeyLang.Proofs.Parser.Yields
import MonkeyLang.Proofs.Tree.Bare
import Mathlib.Data.List.Forall2
import Mathlib.Logic.Equiv.Defs

namespace MonkeyLang

open List (Forall₂)

/-! ### Permutations of names -/

/-- A permutation of names that keeps the names of the functions that the
language comes with and those of the special forms. -/
structure Spares (π : Equiv.Perm String) : Prop where
  builtin : ∀ b : Builtin, π b.name = b.name
  quote : π "quote" = "quote"
  unquote : π "unquote" = "unquote"

namespace Spares

variable {π : Equiv.Perm String} (hπ : Spares π)

include hπ

/-- What names a function of the language still names it. -/
lemma ofName? (name : String) :
    Builtin.ofName? (π name) = Builtin.ofName? name := by
  have hname : ∀ (b : Builtin) (s : String), Builtin.ofName? s = some b →
      s = b.name := by
    intro b s h
    have heq := List.find?_some h
    exact (beq_iff_eq.mp heq).symm
  cases h : Builtin.ofName? name with
  | some b => rw [hname b name h, hπ.builtin, Builtin.ofName?_name]
  | none =>
      cases h' : Builtin.ofName? (π name) with
      | none => rfl
      | some b =>
          have hsame : name = b.name := π.injective (by
            rw [hname b _ h', hπ.builtin])
          rw [hsame, Builtin.ofName?_name] at h
          cases h

/-- So does the inverse permutation. -/
lemma symm : Spares π.symm where
  builtin b := by rw [Equiv.symm_apply_eq, hπ.builtin]
  quote := by rw [Equiv.symm_apply_eq, hπ.quote]
  unquote := by rw [Equiv.symm_apply_eq, hπ.unquote]

end Spares

/-! ### Tokens -/

namespace Token

variable (π : Equiv.Perm String)

/-- The token of an identifier under its new name. -/
def relabel (t : Token) : Token := { t with text := π t.text }

/-- The token that a statement starts with, which may be that of an
identifier. -/
def relabelStart (t : Token) : Token :=
  if t.kind = .ident then t.relabel π else t

lemma relabel_relabel_symm (t : Token) : (t.relabel π).relabel π.symm = t := by
  simp [relabel]

lemma relabelStart_relabelStart_symm (t : Token) :
    (t.relabelStart π).relabelStart π.symm = t := by
  by_cases ht : t.kind = .ident
  · have hstart : t.relabelStart π = t.relabel π := if_pos ht
    rw [hstart, relabelStart, if_pos (by exact ht), relabel_relabel_symm]
  · have hstart : t.relabelStart π = t := if_neg ht
    rw [hstart, relabelStart, if_neg ht]

lemma bare_relabel (t : Token) : (t.relabel π).bare = t.bare.relabel π := rfl

lemma bare_relabelStart (t : Token) :
    (t.relabelStart π).bare = t.bare.relabelStart π := by
  by_cases ht : t.kind = .ident <;>
    simp [relabelStart, ht, relabel, Token.bare, Token.made]

end Token

namespace Node

/-! ### Trees -/

mutual

/-- The tree with other names for its identifiers: for parameters, for what
`let` binds and wherever names are used. -/
def relabel (π : Equiv.Perm String) : Node → Node
  | missing => missing
  | program ss => program (relabelList π ss)
  | letStmt t name v => letStmt t (name.relabel π) (relabel π v)
  | returnStmt t v => returnStmt t (relabel π v)
  | exprStmt t v => exprStmt (t.relabelStart π) (relabel π v)
  | block t ss => block t (relabelList π ss)
  | ident t => ident (t.relabel π)
  | intLit t n => intLit t n
  | boolLit t b => boolLit t b
  | strLit t => strLit t
  | prefixOp t r => prefixOp t (relabel π r)
  | infixOp t l r => infixOp t (relabel π l) (relabel π r)
  | conditional t c a b =>
    conditional t (relabel π c) (relabel π a) (relabel π b)
  | function t ps b => function t (relabelList π ps) (relabel π b)
  | macroFn t ps b => macroFn t (relabelList π ps) (relabel π b)
  | call t c as => call t (relabel π c) (relabelList π as)
  | array t es => array t (relabelList π es)
  | index t l i => index t (relabel π l) (relabel π i)
  | hash t ps => hash t (relabelPairs π ps)

/-- The same for several trees. -/
def relabelList (π : Equiv.Perm String) : List Node → List Node
  | [] => []
  | n :: ns => relabel π n :: relabelList π ns

/-- The same for the entries of a hash literal. -/
def relabelPairs (π : Equiv.Perm String) :
    List (Node × Node) → List (Node × Node)
  | [] => []
  | (k, v) :: ps => (relabel π k, relabel π v) :: relabelPairs π ps

end

variable (π : Equiv.Perm String)

lemma relabelList_eq_map (ns : List Node) :
    relabelList π ns = ns.map (relabel π) := by
  induction ns with
  | nil => rfl
  | cons n ns ih => rw [relabelList, ih, List.map_cons]

lemma relabelPairs_eq_map (ps : List (Node × Node)) :
    relabelPairs π ps = ps.map fun p => (p.1.relabel π, p.2.relabel π) := by
  induction ps with
  | nil => rfl
  | cons p ps ih => rw [relabelPairs, ih, List.map_cons]

/-- Trees are relabelled node by node. -/
lemma nodewise_relabel : Nodewise
    (fun k => if k = .ident then Token.relabel π
      else if k = .exprStmt then Token.relabelStart π else id)
    (Token.relabel π) (relabel π) := by
  intro n
  cases n with
  | program ss | block t ss | array t ss =>
      simp only [relabel, children, relabelList_eq_map]
      rfl
  | function t ps b =>
      simp only [relabel, relabelList_eq_map]
      exact (withChildren_map_function t ps b).symm
  | macroFn t ps b =>
      simp only [relabel, relabelList_eq_map]
      exact (withChildren_map_macroFn t ps b).symm
  | call t c as =>
      simp only [relabel, children, relabelList_eq_map]
      rfl
  | hash t ps =>
      simp only [relabel, relabelPairs_eq_map]
      exact (withChildren_map_hash t ps).symm
  | _ => rfl

lemma kind_relabel (n : Node) : (n.relabel π).kind = n.kind :=
  (nodewise_relabel π).kind n

lemma relabel_ne_missing {n : Node} (hn : n ≠ missing) :
    n.relabel π ≠ missing := (nodewise_relabel π).ne_missing hn

lemma isMissing_relabel (n : Node) : (n.relabel π).isMissing = n.isMissing :=
  (nodewise_relabel π).isMissing n

lemma children_relabel (n : Node) :
    (n.relabel π).children = n.children.map (relabel π) :=
  (nodewise_relabel π).children n

/-- A node with other children is relabelled node by node. -/
lemma relabel_withChildren (n : Node) (cs : List Node) :
    (n.withChildren cs).relabel π =
      (n.relabel π).withChildren (cs.map (relabel π)) :=
  (nodewise_relabel π).withChildren n cs

/-! ### Nothing gets lost -/

/-- Lists of trees that get their names back one by one. -/
lemma relabelList_symm {ns : List Node}
    (h : ∀ n ∈ ns, (n.relabel π).relabel π.symm = n) :
    relabelList π.symm (relabelList π ns) = ns := by
  rw [relabelList_eq_map, relabelList_eq_map, List.map_map]
  exact (List.map_congr_left h).trans (List.map_id ns)

/-- The inverse permutation gives the names back. -/
theorem relabel_relabel_symm (n : Node) :
    (n.relabel π).relabel π.symm = n := by
  induction n using Node.induct with
  | program ss ih | block t ss ih | array t ss ih =>
      rw [relabel, relabel, relabelList_symm π ih]
  | function t ps b ih ihb | macroFn t ps b ih ihb =>
      rw [relabel, relabel, relabelList_symm π ih, ihb]
  | call t c as ihc ih => rw [relabel, relabel, ihc, relabelList_symm π ih]
  | hash t ps ih =>
      have hpairs : (ps.map fun p => (p.1.relabel π, p.2.relabel π)).map
          (fun p => (p.1.relabel π.symm, p.2.relabel π.symm)) = ps := by
        rw [List.map_map]
        refine (List.map_congr_left fun p hp => ?_).trans (List.map_id ps)
        exact Prod.ext (ih p hp).1 (ih p hp).2
      rw [relabel, relabel, relabelPairs_eq_map, relabelPairs_eq_map, hpairs]
  | _ =>
      simp_all [relabel, Token.relabel_relabel_symm,
        Token.relabelStart_relabelStart_symm]

lemma relabel_injective : Function.Injective (relabel π) :=
  Function.LeftInverse.injective (relabel_relabel_symm π)

lemma bareList_relabelList {ns : List Node}
    (h : ∀ n ∈ ns, (n.relabel π).bare = n.bare.relabel π) :
    bareList (relabelList π ns) = relabelList π (bareList ns) := by
  simp only [bareList_eq_map, relabelList_eq_map, List.map_map]
  exact List.map_congr_left h

/-- Forgetting places and relabelling do not get in each other's way. -/
lemma bare_relabel (n : Node) : (n.relabel π).bare = n.bare.relabel π := by
  induction n using Node.induct with
  | program ss ih | block t ss ih | array t ss ih =>
      rw [relabel, bare, bareList_relabelList π ih]
      rfl
  | function t ps b ih ihb | macroFn t ps b ih ihb =>
      rw [relabel, bare, bareList_relabelList π ih, ihb]
      rfl
  | call t c as ihc ih =>
      rw [relabel, bare, ihc, bareList_relabelList π ih]
      rfl
  | hash t ps ih =>
      have hpairs : (ps.map fun p => (p.1.relabel π, p.2.relabel π)).map
            (fun p => (p.1.bare, p.2.bare)) =
          (ps.map fun p => (p.1.bare, p.2.bare)).map
            fun p => (p.1.relabel π, p.2.relabel π) := by
        rw [List.map_map, List.map_map]
        refine List.map_congr_left fun p hp => ?_
        exact Prod.ext (ih p hp).1 (ih p hp).2
      rw [relabel, bare, bare, relabel, relabelPairs_eq_map, barePairs_eq_map,
        barePairs_eq_map, relabelPairs_eq_map, hpairs]
  | _ =>
      simp_all [relabel, bare, Token.bare_relabel, Token.bare_relabelStart]

/-- Relabelled trees are alike as they were before. -/
theorem alike_relabel (m n : Node) :
    (m.relabel π).alike (n.relabel π) = m.alike n := by
  rw [Bool.eq_iff_iff, alike_iff, alike_iff, bare_relabel, bare_relabel]
  exact (relabel_injective π).eq_iff

/-! ### Parameters -/

/-- The parameters of a function or a macro. -/
def params : Node → List Node
  | function _ ps _ | macroFn _ ps _ => ps
  | _ => []

/-- The parameters of all functions and macros in a tree are identifiers. -/
inductive Named : Node → Prop where
  | node {n : Node} (hparams : ∀ p ∈ n.params, p.kind = .ident)
      (hchildren : ∀ m ∈ n.children, Named m) : Named n

lemma Named.params {n : Node} (h : n.Named) :
    ∀ p ∈ n.params, p.kind = .ident := by
  cases h with
  | node hparams => exact hparams

lemma Named.child {n m : Node} (h : n.Named) (hm : m ∈ n.children) :
    m.Named := by
  cases h with
  | node _ hchildren => exact hchildren m hm

/-- The keys and the values of a hash literal. -/
lemma Named.entry {t : Token} {ps : List (Node × Node)} (h : (hash t ps).Named)
    {p : Node × Node} (hp : p ∈ ps) : p.1.Named ∧ p.2.Named :=
  ⟨h.child (List.mem_flatMap.mpr ⟨p, hp, by simp⟩),
    h.child (List.mem_flatMap.mpr ⟨p, hp, by simp⟩)⟩

/-- Relabelled parameters are identifiers, too. -/
lemma Named.relabel {n : Node} (h : n.Named) : (n.relabel π).Named := by
  induction h with
  | @node n hparams _ ih =>
      refine .node (fun p hp => ?_) fun m hm => ?_
      · have hsame : (n.relabel π).params = n.params.map (Node.relabel π) := by
          cases n with
          | function t ps b | macroFn t ps b => exact relabelList_eq_map π ps
          | _ => rfl
        rw [hsame] at hp
        obtain ⟨r, hr, rfl⟩ := List.mem_map.mp hp
        rw [kind_relabel, hparams r hr]
      · rw [children_relabel] at hm
        obtain ⟨c, hc, rfl⟩ := List.mem_map.mp hm
        exact ih c hc

/-- An identifier has its name under the permutation. -/
lemma name_relabel {p : Node} (hp : p.kind = .ident) :
    (p.relabel π).name = π p.name := by
  cases p <;> cases hp
  rfl

/-- Of a node without parameters only the children count. -/
lemma named_of_children {n : Node} (hparams : n.params = [])
    (hchildren : ∀ m ∈ n.children, m.Named) : n.Named :=
  .node (by rw [hparams]; nofun) hchildren

/-- Other parameters are identifiers, too, if they replace identifiers. -/
lemma kind_params_withChildren {n p : Node} {cs : List Node} (hn : n.Named)
    (hcs : Forall₂ (fun m c => m.kind = .ident → c.kind = .ident) n.children cs)
    (hp : p ∈ (n.withChildren cs).params) : p.kind = .ident := by
  have hdrop : Forall₂ (fun m c => m.kind = .ident → c.kind = .ident)
      n.children.dropLast cs.dropLast := by
    rw [List.dropLast_eq_take, List.dropLast_eq_take, ← hcs.length_eq]
    exact List.forall₂_take _ hcs
  have hparams : n.children.dropLast = n.params →
      ∀ c ∈ cs.dropLast, c.kind = .ident := by
    intro hsplit
    rw [hsplit] at hdrop
    have hboth := List.forall₂_and_left _ _ |>.mpr ⟨hn.params, hdrop⟩
    exact forall_of_forall₂ hboth fun _ _ h => h.2 h.1
  unfold withChildren at hp
  split at hp
  case h_9 => exact hparams List.dropLast_concat p hp
  case h_10 => exact hparams List.dropLast_concat p hp
  case h_15 => exact hn.params p hp
  all_goals cases hp

/-- Changing trees keeps that parameters are identifiers, if it makes nothing
else of an identifier. -/
lemma rebuilds_named :
    Rebuilds Named fun n m => n.kind = .ident → m.kind = .ident where
  children _ hn _ := hn.child
  refl _ := id
  trans h h' hn := h' (h hn)
  rebuild := by
    intro n cs hn hcs
    have hkept := hcs.imp fun _ _ h => h.2
    refine ⟨.node (fun p => kind_params_withChildren hn hkept) fun m hm => ?_,
      fun hkind => by rw [kind_withChildren, hkind]⟩
    rcases mem_children_withChildren hm with hm | hm | rfl
    · exact forall_of_forall₂ hcs (fun _ _ h => h.1) m hm
    · exact hn.child hm
    · exact named_of_children rfl nofun

/-- What the grammar makes has identifiers for parameters. -/
lemma builds_named (T : Token → Prop) : Grammar.Builds T Named := by
  refine .of_children fun n _ hparams hchildren => .node (fun p hp => ?_) hchildren
  cases n with
  | function t ps b =>
      obtain ⟨u, rfl⟩ := hparams t ps b (Or.inl rfl) p hp
      rfl
  | macroFn t ps b =>
      obtain ⟨u, rfl⟩ := hparams t ps b (Or.inr rfl) p hp
      rfl
  | _ => cases hp

end Node

/-- **Parameters are identifiers.**  So it is in all that the parser gives for a
source. -/
theorem Parser.named_ofSource (source : String) (tracing : Bool) :
    (Parser.ofSource source tracing).program.Named := by
  have hall : ∀ t ∈ Token.stream source, True := fun _ _ => trivial
  obtain ⟨ss, hss, hnamed⟩ :=
    (Node.builds_named fun _ => True).ofTokens trivial hall tracing
  rw [Parser.ofSource, hss]
  exact Node.named_of_children rfl hnamed

/-! ### Special forms -/

/-- Special forms are told by names that stay. -/
lemma SpecialForm.ofCallee?_relabel {π : Equiv.Perm String} (hπ : Spares π)
    (n : Node) : ofCallee? (n.relabel π) = ofCallee? n := by
  cases n with
  | ident t =>
      have hquote : π t.text = "quote" ↔ t.text = "quote" := by
        rw [← hπ.quote, π.apply_eq_iff_eq, hπ.quote]
      have hunquote : π t.text = "unquote" ↔ t.text = "unquote" := by
        rw [← hπ.unquote, π.apply_eq_iff_eq, hπ.unquote]
      have hform : ∀ u : Token, ofCallee? (.ident u) =
          if u.text = "quote" then some .quote
          else if u.text = "unquote" then some .unquote else none := by
        intro u
        simp only [ofCallee?]
        split <;> simp_all
      rw [Node.relabel, hform, hform]
      simp only [Token.relabel, hquote, hunquote]
  | _ => rfl

end MonkeyLang

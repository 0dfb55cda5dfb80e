/-
Trees that are quoted in the same way under other names.

* `Node.Replaced π n m m'`: a tree in place of another one, in two runs;
* `Node.Sealed π`: a tree in which only arguments of `unquote` mention names that
  `π` moves;
* `Node.Discreet π`: a tree that quotes only such trees;
* `Sealed.filled`: filled with other trees, a sealed tree has their names and
  `π` keeps all others.
-/
import MonkeyLang.Proofs.Eval.Quoting
import MonkeyLang.Proofs.Tree.Respell

namespace MonkeyLang.Node

open List (Forall₂)

variable {π : Equiv.Perm String} {n m arg : Node} {ks : List Node}

/-! ### Trees in place of others -/

/-- A tree in the place of another one, and the same with the names that `π`
gives. -/
structure Replaced (π : Equiv.Perm String) (n m m' : Node) : Prop where
  eq : m' = m.respell π
  named : m.Named
  settled : m.Settled π
  ident : n.kind = .ident → m.kind = .ident

/-- A node that mentions no name that is moved has the other names in its children
only. -/
lemma respell_rebuilt (h : ∀ name, n.Mentions name → π name = name)
    {cs : List Node} (hlength : cs.length = n.children.length) :
    (n.withChildren cs).respell π = n.withChildren (cs.map (respell π)) := by
  by_cases hn : n.kind = .ident
  · cases n with
    | ident t => exact congrArg ident (if_pos (h _ rfl))
    | _ => cases hn
  · rw [respell_eq π (by rwa [kind_withChildren]), children_withChildren hlength,
      withChildren_withChildren hlength (by rw [List.length_map, hlength])]

/-- What goes from a node to its children goes to the arguments of `unquote` in
it. -/
lemma of_mem_unquotes {N : Node → Prop}
    (hN : ∀ n, N n → ∀ m ∈ n.children, N m) (hn : N n)
    (harg : arg ∈ n.unquotes) : N arg := by
  induction n using children_induct with
  | step n ih =>
    cases hunquoted : n.unquoted? with
    | none =>
        rw [unquotes_eq hunquoted] at harg
        obtain ⟨c, hc, harg⟩ := List.mem_flatMap.mp harg
        exact ih c hc (hN n hn c hc) harg
    | some a =>
        have ha : a ∈ n.children := by
          obtain ⟨t, c, rfl, -⟩ := unquoted?_inv hunquoted
          exact List.mem_cons_of_mem c List.mem_cons_self
        rw [unquotes_of_unquoted hunquoted] at harg
        rcases List.mem_append.mp harg with harg | harg
        · exact ih a ha (hN n hn a ha) harg
        · rw [List.mem_singleton.mp harg]
          exact hN n hn a ha

/-! ### Sealed trees -/

/-- A tree that is quoted alike whatever other names its frame is read with: but
for arguments of `unquote` it mentions only names that `π` keeps, such calls are
not nested, and none is a callee. -/
inductive Sealed (π : Equiv.Perm String) : Node → Prop where
  | unquote {n arg : Node} (hn : n.unquoted? = some arg)
      (harg : arg.unquotes = []) : Sealed π n
  | node {n : Node} (hn : n.unquoted? = none)
      (hname : ∀ name, n.Mentions name → π name = name)
      (hcallee : ∀ t callee args, n = call t callee args →
        callee.unquoted? = none)
      (hchildren : ∀ m ∈ n.children, Sealed π m) : Sealed π n

/-- A tree that quotes sealed trees only. -/
def Discreet (π : Equiv.Perm String) (n : Node) : Prop :=
  ∀ t c arg, call t c [arg] ∈ n.postorder →
    SpecialForm.ofCallee? c = some .quote → arg.Sealed π

lemma Discreet.child (h : n.Discreet π) (hm : m ∈ n.children) :
    m.Discreet π :=
  fun t c arg hmem => h t c arg (mem_postorder_child hm hmem)

/-- What a call of `quote` quotes is sealed. -/
lemma Discreet.sealed {t : Token} {c : Node} (h : (call t c [arg]).Discreet π)
    (hc : SpecialForm.ofCallee? c = some .quote) : arg.Sealed π := by
  refine h t c arg (mem_postorder_self ?_) hc
  rintro ⟨⟩

namespace Sealed

/-- A node that is no call and mentions no name is sealed if its children are. -/
lemma of_children (hcall : n.kind ≠ .call) (hname : n.mentioned? = none)
    (h : ∀ m ∈ n.children, m.Sealed π) : n.Sealed π := by
  refine .node ?_ (fun name hn => ?_) ?_ h
  · rcases hn : n.unquoted? with _ | arg
    · rfl
    · obtain ⟨t, c, rfl, -⟩ := unquoted?_inv hn
      exact absurd rfl hcall
  · rw [Mentions, hname] at hn
    cases hn
  · rintro t callee args rfl
    exact absurd rfl hcall

lemma plainCallees (h : n.Sealed π) : n.PlainCallees := by
  induction h with
  | unquote hn harg =>
      obtain ⟨t, c, rfl, hc⟩ := unquoted?_inv hn
      obtain ⟨u, rfl⟩ := exists_ident hc
      refine .node ?_ (List.forall_mem_cons.mpr ⟨.node nofun nofun,
        List.forall_mem_singleton.mpr (plainCallees_of_unquotes harg)⟩)
      rintro _ _ _ ⟨⟩
      rfl
  | node _ _ hcallee _ ih => exact .node hcallee ih

/-- Arguments of `unquote` contain no such calls. -/
lemma unquotes_eq_nil (h : n.Sealed π) (harg : arg ∈ n.unquotes) :
    arg.unquotes = [] := by
  induction h with
  | unquote hn hnone =>
      rw [unquotes_of_unquoted hn, hnone, List.nil_append,
        List.mem_singleton] at harg
      rwa [harg]
  | node hn _ _ _ ih =>
      rw [unquotes_eq hn] at harg
      obtain ⟨c, hc, harg⟩ := List.mem_flatMap.mp harg
      exact ih c hc harg

/-- Several trees are filled one after the other. -/
lemma filledList {ns : List Node}
    (hns : ∀ n ∈ ns, ∀ ks : List Node, ks.length = n.unquotes.length →
      (∀ k ∈ ks, k.Named ∧ k.Settled π) →
      Replaced π n (n.filled ks) (n.filled (ks.map (respell π))))
    (hks : ks.length = (ns.flatMap unquotes).length)
    (hnames : ∀ k ∈ ks, k.Named ∧ k.Settled π) :
    Node.filledList ns (ks.map (respell π)) =
        (Node.filledList ns ks).map (respell π) ∧
      Forall₂ (fun n m => Replaced π n m (m.respell π)) ns
        (Node.filledList ns ks) := by
  induction ns generalizing ks with
  | nil => exact ⟨rfl, .nil⟩
  | cons n ns ih =>
      obtain ⟨hn, hns⟩ := List.forall_mem_cons.mp hns
      rw [List.flatMap_cons, List.length_append] at hks
      obtain ⟨as, bs, rfl, has, hbs⟩ := exists_split hks
      obtain ⟨hnas, hnbs⟩ := List.forall_mem_append.mp hnames
      have hfirst := hn as has hnas
      obtain ⟨heq, hrest⟩ := ih hns hbs hnbs
      rw [List.map_append, filledList_cons (by rw [List.length_map, has]),
        filledList_cons has, heq, hfirst.eq]
      exact ⟨rfl, .cons (hfirst.eq ▸ hfirst) hrest⟩

/-- **Filling.**  Filled with trees that have other names, a sealed tree has
these other names and no others. -/
theorem filled (h : n.Sealed π) (hnamed : n.Named)
    (hks : ks.length = n.unquotes.length)
    (hnames : ∀ k ∈ ks, k.Named ∧ k.Settled π) :
    Replaced π n (n.filled ks) (n.filled (ks.map (respell π))) := by
  induction h generalizing ks with
  | @unquote n arg hn harg =>
      have hkind : n.kind = .ident → False := by
        obtain ⟨t, c, rfl, -⟩ := unquoted?_inv hn
        nofun
      rw [unquotes_of_unquoted hn, harg] at hks
      obtain ⟨k, rfl⟩ := List.length_eq_one_iff.mp hks
      have hnone : ([] : List Node).length = arg.unquotes.length := by rw [harg]
      have hfilled (k : Node) : n.filled [k] = k :=
        filled_of_unquoted hn hnone k
      obtain ⟨hk, hsettled⟩ := hnames k List.mem_cons_self
      rw [List.map_singleton, hfilled, hfilled]
      exact ⟨rfl, hk, hsettled, fun h => (hkind h).elim⟩
  | @node n hn hname _ _ ih =>
      rw [unquotes_eq hn] at hks
      obtain ⟨heq, hchildren⟩ := filledList (fun m hm ks hks hnames =>
        ih m hm (hnamed.child hm) hks hnames) hks hnames
      have hlength := hchildren.length_eq.symm
      rw [filled_eq hn, filled_eq hn, heq]
      exact {
        eq := (respell_rebuilt hname hlength).symm
        named := (rebuilds_named.rebuild n _ hnamed
          (hchildren.imp fun _ _ h => ⟨h.named, h.ident⟩)).1
        settled := settled_withChildren
          (fun name h => hname name (mentions_of_binds h)) hlength
          (forall_of_forall₂ hchildren fun _ _ h => h.settled)
        ident := (kind_withChildren n _).trans }

end Sealed

end MonkeyLang.Node

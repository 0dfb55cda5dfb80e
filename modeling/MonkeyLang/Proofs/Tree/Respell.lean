/-
Trees in which identifiers have other names, and `let` statements keep theirs.

* `Node.respell π`: a tree with `π` applied to its identifiers; what `let` binds
  is no identifier and stays;
* `nodewise_respell`, `respell_refl`: trees are respelled node by node, and by
  nothing if `π` changes nothing;
* `alike_respell`: nothing gets lost by that;
* `Node.Settled π`: a tree whose `let` statements bind names that `π` keeps;
* `Node.Avoids name`: a tree that does not mention a name;
* `Node.rename_eq`: the rule that puts one name for another one is such a
  respelling, where the other one is not mentioned before.
-/
import MonkeyLang.Proofs.Parser.Printed
import MonkeyLang.Proofs.Tree.Postorder
import MonkeyLang.Proofs.Tree.Relabel
import Mathlib.Logic.Equiv.Basic

namespace MonkeyLang

/-! ### Rules without effects -/

namespace Node

variable {f : Node → Node}

/-- A tree is changed by changing its children and then the node with these. -/
lemma transform_eq {n : Node} (hn : n ≠ missing) :
    n.transform f = f (n.withChildren (n.children.map (transform f))) := by
  have hlist := transformList_eq_map f n.children
  rw [← hlist, transform, transformM_eq _ hn]
  rfl

end Node

/-! ### Tokens -/

namespace Token

variable (π : Equiv.Perm String)

/-- The token of an identifier under another name, in no text, or as it is if it
keeps its name. -/
def respell (t : Token) : Token :=
  if π t.text = t.text then t else .made t.kind (π t.text)

@[simp] lemma text_respell (t : Token) : (t.respell π).text = π t.text := by
  by_cases ht : π t.text = t.text <;> simp [respell, ht, made]

@[simp] lemma kind_respell (t : Token) : (t.respell π).kind = t.kind := by
  by_cases ht : π t.text = t.text <;> simp [respell, ht, made]

lemma bare_respell (t : Token) : (t.respell π).bare = t.bare.respell π := by
  by_cases ht : π t.text = t.text <;> simp [respell, ht, bare, made]

lemma bare_respell_symm (t : Token) :
    ((t.respell π).respell π.symm).bare = t.bare := by
  simp [bare_eq_iff]

end Token

namespace Node

/-! ### Trees -/

/-- Puts the other name for an identifier. -/
def Rule.respell (π : Equiv.Perm String) : Node → Node
  | ident t => ident (t.respell π)
  | n => n

/-- The tree with other names for its identifiers, parameters among them. -/
def respell (π : Equiv.Perm String) (n : Node) : Node :=
  n.transform (Rule.respell π)

section

variable (π : Equiv.Perm String)

lemma respell_ident (t : Token) : (ident t).respell π = ident (t.respell π) :=
  rfl

/-- But for identifiers the node on top stays. -/
lemma respell_eq {n : Node} (hn : n.kind ≠ .ident) :
    n.respell π = n.withChildren (n.children.map (respell π)) := by
  by_cases hmissing : n = missing
  · subst hmissing
    rfl
  have hrule : ∀ m : Node, m.kind ≠ .ident → Rule.respell π m = m := by
    intro m hm
    cases m with
    | ident t => exact absurd rfl hm
    | _ => rfl
  exact (transform_eq hmissing).trans
    (hrule _ (by rwa [kind_withChildren]))

/-- Trees are respelled node by node. -/
lemma nodewise_respell : Nodewise
    (fun k => if k = .ident then Token.respell π else id) id (respell π) := by
  intro n
  by_cases hn : n.kind = .ident
  · cases n <;> cases hn
    rfl
  · rw [respell_eq π hn]
    cases n with
    | ident t => exact absurd rfl hn
    | _ => rfl

lemma kind_respell (n : Node) : (n.respell π).kind = n.kind :=
  (nodewise_respell π).kind n

lemma isMissing_respell (n : Node) : (n.respell π).isMissing = n.isMissing :=
  (nodewise_respell π).isMissing n

lemma children_respell (n : Node) :
    (n.respell π).children = n.children.map (respell π) :=
  (nodewise_respell π).children n

/-- A node with other children is respelled node by node. -/
lemma respell_withChildren (n : Node) (cs : List Node) :
    (n.withChildren cs).respell π =
      (n.respell π).withChildren (cs.map (respell π)) :=
  (nodewise_respell π).withChildren n cs

/-! ### Each kind of node -/

lemma respell_function (t : Token) (ps : List Node) (b : Node) :
    (function t ps b).respell π =
      function t (ps.map (respell π)) (b.respell π) :=
  (respell_eq π (by simp [kind])).trans (withChildren_map_function t ps b)

lemma respell_macroFn (t : Token) (ps : List Node) (b : Node) :
    (macroFn t ps b).respell π =
      macroFn t (ps.map (respell π)) (b.respell π) :=
  (respell_eq π (by simp [kind])).trans (withChildren_map_macroFn t ps b)

lemma respell_call (t : Token) (c : Node) (as : List Node) :
    (call t c as).respell π = call t (c.respell π) (as.map (respell π)) := by
  rw [respell_eq π (by simp [kind]), children, List.map_cons, withChildren]

lemma respell_hash (t : Token) (ps : List (Node × Node)) :
    (hash t ps).respell π =
      hash t (ps.map fun p => (p.1.respell π, p.2.respell π)) :=
  (respell_eq π (by simp [kind])).trans (withChildren_map_hash t ps)

/-! ### Nothing gets lost -/

lemma respell_refl (n : Node) : n.respell (Equiv.refl String) = n := by
  have hrule : Rule.respell (Equiv.refl String) = id := by
    funext m
    cases m with
    | ident t => exact congrArg ident (if_pos rfl)
    | _ => rfl
  rw [respell, hrule, transform_id]

/-- Forgetting places and respelling do not get in each other's way. -/
lemma bare_respell (n : Node) : (n.respell π).bare = n.bare.respell π := by
  induction n using children_induct with
  | step n ih =>
    by_cases hn : n.kind = .ident
    · cases n <;> cases hn
      exact congrArg ident (Token.bare_respell π _)
    · rw [respell_eq π hn, bare_withChildren,
        respell_eq π (by rwa [kind_bare]), children_bare, List.map_map,
        List.map_map]
      exact congrArg _ (List.map_congr_left ih)

/-- The inverse permutation gives the names back. -/
lemma bare_respell_symm (n : Node) :
    ((n.respell π).respell π.symm).bare = n.bare := by
  induction n using children_induct with
  | step n ih =>
    by_cases hn : n.kind = .ident
    · cases n <;> cases hn
      exact congrArg ident (Token.bare_respell_symm π _)
    · have hback : (((n.children.map (respell π)).map (respell π.symm)).map
          bare) = n.bare.children := by
        rw [List.map_map, List.map_map, children_bare]
        exact List.map_congr_left ih
      rw [respell_eq π hn, respell_withChildren,
        respell_eq _ hn, withChildren_withChildren (List.length_map _) (by simp),
        bare_withChildren, hback, withChildren_children]

/-- Respelled trees are alike as they were before. -/
theorem alike_respell (m n : Node) :
    (m.respell π).alike (n.respell π) = m.alike n := by
  rw [Bool.eq_iff_iff, alike_iff, alike_iff]
  refine ⟨fun h => ?_, fun h => by rw [bare_respell, h, ← bare_respell]⟩
  rw [← bare_respell_symm π m, bare_respell, h, ← bare_respell,
    bare_respell_symm]

end

/-! ### What a tree consists of -/

/-- The name that a `let` statement binds. -/
def bound? : Node → Option String
  | letStmt _ u _ => some u.text
  | _ => none

/-- The name that an identifier has or that a `let` statement binds. -/
def mentioned? : Node → Option String
  | ident t => some t.text
  | n => n.bound?

/-- Whether a node is a `let` statement that binds a name. -/
abbrev Binds (name : String) (n : Node) : Prop := n.bound? = some name

/-- Whether a node is an identifier with a name or binds it. -/
abbrev Mentions (name : String) (n : Node) : Prop := n.mentioned? = some name

/-- A tree does not mention a name, be it to bind it or to use it. -/
def Avoids (name : String) (n : Node) : Prop :=
  ∀ m ∈ n.postorder, ¬ m.Mentions name

/-- The permutation keeps the names that `let` binds in a tree. -/
def Settled (π : Equiv.Perm String) (n : Node) : Prop :=
  ∀ m ∈ n.postorder, ∀ name, m.Binds name → π name = name

section

variable {π : Equiv.Perm String} {n m : Node} {x y : String}

lemma Settled.child (h : n.Settled π) (hm : m ∈ n.children) : m.Settled π :=
  fun k hk => h k (mem_postorder_child hm hk)

lemma Settled.self (h : n.Settled π) (name : String) (hname : n.Binds name) :
    π name = name := by
  refine h n (mem_postorder_self ?_) name hname
  rintro rfl
  cases hname

lemma Settled.name {t u : Token} {v : Node} (h : (letStmt t u v).Settled π) :
    π u.text = u.text := h.self _ rfl

/-- What a statement binds is not among its children. -/
lemma bound?_withChildren (n : Node) (cs : List Node) :
    (n.withChildren cs).bound? = n.bound? := by
  have hkind := kind_withChildren n cs
  cases n with
  | letStmt t u v => rcases cs with _ | ⟨c, _ | ⟨d, ds⟩⟩ <;> rfl
  | _ =>
      generalize withChildren _ cs = k at hkind
      cases k <;> cases hkind
      all_goals rfl

/-- A tree of one node that binds nothing. -/
lemma settled_of_postorder (h : n.postorder = [n])
    (hn : ∀ name, ¬ n.Binds name) : n.Settled π := by
  intro m hm name hname
  rw [h, List.mem_singleton] at hm
  exact absurd (hm ▸ hname) (hn name)

/-- With such children a node that binds no other name is such a tree. -/
lemma settled_withChildren (h : ∀ name, n.Binds name → π name = name)
    {cs : List Node} (hlength : cs.length = n.children.length)
    (hcs : ∀ c ∈ cs, c.Settled π) : (n.withChildren cs).Settled π := by
  by_cases hn : n = missing
  · subst hn
    exact nofun
  intro m hm name hname
  rw [postorder_eq (withChildren_ne_missing hn cs),
    children_withChildren hlength] at hm
  rcases List.mem_append.mp hm with hm | hm
  · obtain ⟨c, hc, hm⟩ := List.mem_flatMap.mp hm
    exact hcs c hc m hm name hname
  · rw [List.mem_singleton.mp hm, Binds, bound?_withChildren] at hname
    exact h name hname

/-- A tree with names that the permutation keeps stays as it is. -/
lemma respell_fixed
    (h : ∀ t, ident t ∈ n.postorder → π t.text = t.text) :
    n.respell π = n := by
  induction n using children_induct with
  | step n ih =>
    by_cases hn : n.kind = .ident
    · cases n with
      | ident t =>
          exact congrArg ident (if_pos (h t (mem_postorder_self nofun)))
      | _ => cases hn
    · have hchildren : n.children.map (respell π) = n.children :=
        (List.map_congr_left fun c hc => ih c hc fun t ht =>
          h t (mem_postorder_child hc ht)).trans (List.map_id _)
      rw [respell_eq π hn, hchildren, withChildren_children]

/-- Exchanging two names that a tree does not mention leaves it alone. -/
lemma Avoids.respell_swap (hx : n.Avoids x) (hy : n.Avoids y) :
    n.respell (Equiv.swap x y) = n :=
  respell_fixed fun _ ht =>
    Equiv.swap_apply_of_ne_of_ne (fun h => hx _ ht (congrArg some h))
      fun h => hy _ ht (congrArg some h)

lemma mentions_of_binds {name : String} (h : n.Binds name) :
    n.Mentions name := by
  cases n with
  | ident t => cases h
  | _ => exact h

/-- Nor does it touch what `let` binds where that is neither of them. -/
lemma settled_swap (hx : ∀ m ∈ n.postorder, ¬ m.Binds x)
    (hy : ∀ m ∈ n.postorder, ¬ m.Binds y) : n.Settled (Equiv.swap x y) := by
  intro m hm name hname
  refine Equiv.swap_apply_of_ne_of_ne ?_ ?_
  · rintro rfl
    exact hx m hm hname
  · rintro rfl
    exact hy m hm hname

end

/-! ### The rule that renames -/

/-- **Renaming.**  In a complete tree without the name `y` the rule that puts `y`
for `x` exchanges the two among the identifiers. -/
theorem rename_eq {x y : String} {n : Node}
    (hn : n = missing ∨ ∃ role, Complete role n) (hy : n.Avoids y) :
    n.transform (Rule.rename x y) = n.respell (Equiv.swap x y) := by
  induction n using children_induct with
  | step n ih =>
    rcases hn with rfl | ⟨role, hn⟩
    · rfl
    -- at identifiers the rule and the exchange agree, as none of them is `y`;
    -- elsewhere the rule does nothing and the children decide
    by_cases hident : n.kind = .ident
    · cases hn with
      | @ident t ht =>
          have hty : t.text ≠ y := fun h =>
            hy _ (mem_postorder_self nofun) (congrArg some h)
          by_cases htx : t.text = x
          · subst htx
            show ite _ _ _ = ident (ite _ _ _)
            rw [if_pos rfl, Equiv.swap_apply_left, if_neg hty.symm, ht]
            rfl
          · show ite _ _ _ = ident (ite _ _ _)
            rw [if_neg htx, if_pos (Equiv.swap_apply_of_ne_of_ne htx hty)]
      | _ => cases hident
    · have hmissing : n ≠ missing := by
        rintro rfl
        cases hn
      have hchildren : n.children.map (transform (Rule.rename x y)) =
          n.children.map (respell (Equiv.swap x y)) :=
        List.map_congr_left fun c hc =>
          ih c hc (hn.of_child hc) fun m hm => hy m (mem_postorder_child hc hm)
      -- what has been rebuilt is of its form, so that the rule leaves it alone
      have hrule : ∀ m : Node, m.kind ≠ .ident → Rule.rename x y m = m := by
        intro m hm
        cases m with
        | ident t => exact absurd rfl hm
        | _ => rfl
      rw [transform_eq hmissing, hchildren, respell_eq _ hident]
      exact hrule _ (by rwa [kind_withChildren])

end Node

/-! ### Special forms -/

namespace SpecialForm

lemma ofCallee?_of_kind {n : Node} (hn : n.kind ≠ .ident) :
    ofCallee? n = none := by
  cases n with
  | ident t => exact absurd rfl hn
  | _ => rfl

/-- Special forms are told by names that stay. -/
lemma ofCallee?_respell {π : Equiv.Perm String} (hπ : Spares π) (n : Node) :
    ofCallee? (n.respell π) = ofCallee? n := by
  by_cases hn : n.kind = .ident
  · cases n with
    | ident t =>
        rw [← ofCallee?_relabel hπ (.ident t), Node.respell_ident]
        simp only [ofCallee?, Node.relabel, Token.relabel,
          Token.text_respell]
    | _ => cases hn
  · rw [ofCallee?_of_kind hn,
      ofCallee?_of_kind (by rwa [Node.kind_respell])]

end SpecialForm

end MonkeyLang

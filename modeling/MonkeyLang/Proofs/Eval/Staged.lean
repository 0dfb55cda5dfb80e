/-
Constants that are worked out while a tree is quoted.

* `Node.Constant`: literals under operators, which have the same result
  wherever they are evaluated; `Constant.settles`: so they give a value if they
  have one;
* `Node.Direct`: trees without literals of functions and macros and without
  calls of special forms;
* `Node.Wraps n q`: the tree `q` is `n` with some constants under `unquote`;
* `Node.Staged`: what quoting such a tree makes of it, and how that is
  evaluated; `exists_staged_node`: it goes up from the children of a node;
* `Wraps.eval_quoted`: the quoted tree is evaluated as the one without
  `unquote`.
-/
import MonkeyLang.Proofs.Eval.Refines
import MonkeyLang.Proofs.Eval.Unquoting

namespace MonkeyLang

open List (Forall₂)

/-! ### Constants -/

/-- The answer to a result depends on no store. -/
lemma Run.exists_settle (r : Except Fault Value) :
    ∃ out, ∀ s, settle r s = some (out, s) := by
  rcases settle_cases r with ⟨v, -, -, hr⟩ | ⟨f, hr⟩
  · exact ⟨.ok (some v), fun s => by rw [hr]; rfl⟩
  · exact ⟨.error f, fun s => by rw [hr]; rfl⟩

namespace Node

/-- Literals of integers, truth values and strings, and operators on them. -/
inductive Constant : Node → Prop where
  | intLit (t : Token) (k : Int) : Constant (.intLit t k)
  | boolLit (t : Token) (b : Bool) : Constant (.boolLit t b)
  | strLit (t : Token) : Constant (.strLit t)
  | prefixOp (t : Token) {r : Node} (hr : Constant r) :
      Constant (.prefixOp t r)
  | infixOp (t : Token) {l r : Node} (hl : Constant l) (hr : Constant r) :
      Constant (.infixOp t l r)

/-- From some bound on a node has one outcome in every frame of every store,
and changes nothing. -/
def Settles (n : Node) (out : Except Fault (Option Value)) : Prop :=
  ∃ height, ∀ depth e s, height ≤ depth → eval depth n e s = some (out, s)

/-- Whatever a node comes to within some bound is this outcome. -/
lemma Settles.eq {n : Node} {out : Except Fault (Option Value)}
    (h : n.Settles out) {depth e : ℕ} {s : Store}
    {x : Except Fault (Option Value) × Store}
    (hrun : eval depth n e s = some x) : x = (out, s) := by
  obtain ⟨height, h⟩ := h
  have hhigh := eval_mono (Nat.le_max_left depth height) n e s x hrun
  exact Option.some.inj (hhigh.symm.trans (h _ e s (Nat.le_max_right _ _)))

lemma settles_of_step {n : Node} {out : Except Fault (Option Value)}
    {height : ℕ} (h : ∀ depth e s, height ≤ depth →
      evalWith (eval depth) n e s = some (out, s)) : n.Settles out := by
  refine ⟨height + 1, fun depth e s hdepth => ?_⟩
  obtain ⟨depth, rfl⟩ : ∃ d, depth = d + 1 := ⟨depth - 1, by omega⟩
  exact h depth e s (by omega)

/-- A part that has a value, before what comes of it. -/
lemma Settles.operand_ok {n : Node} {v? : Option Value}
    (hn : n.Settles (.ok v?)) {k : Value → ℕ → ℕ → Run (Option Value)}
    {out : Except Fault (Option Value)} {height : ℕ}
    (hk : ∀ depth e s, height ≤ depth →
      k (v?.getD .null) depth e s = some (out, s)) :
    ∃ height, ∀ depth e s, height ≤ depth →
      (operand (eval depth) e n >>= fun v => k v depth e) s = some (out, s) := by
  obtain ⟨height', hn⟩ := hn
  refine ⟨max height' height, fun depth e s hdepth => ?_⟩
  have hv : MonkeyLang.operand (eval depth) e n s =
      some (.ok (v?.getD .null), s) :=
    (bind_ok (hn depth e s (by omega))).trans rfl
  exact (bind_ok hv).trans (hk depth e s (by omega))

/-- A part that faults, before what would come of its value. -/
lemma Settles.operand_error {n : Node} {f : Fault} (hn : n.Settles (.error f))
    (k : Value → ℕ → ℕ → Run (Option Value)) :
    ∃ height, ∀ depth e s, height ≤ depth →
      (operand (eval depth) e n >>= fun v => k v depth e) s =
        some (.error f, s) := by
  obtain ⟨height, hn⟩ := hn
  exact ⟨height, fun depth e s hdepth =>
    bind_error (bind_error (hn depth e s hdepth))⟩

/-- A part that has one outcome, before what comes of its value. -/
lemma Settles.operand {n : Node} {out : Except Fault (Option Value)}
    (hn : n.Settles out) {k : Value → ℕ → ℕ → Run (Option Value)}
    (hk : ∀ v, ∃ out' height, ∀ depth e s, height ≤ depth →
      k v depth e s = some (out', s)) :
    ∃ out' height, ∀ depth e s, height ≤ depth →
      (operand (eval depth) e n >>= fun v => k v depth e) s =
        some (out', s) := by
  cases out with
  | error f => exact ⟨.error f, hn.operand_error k⟩
  | ok v? =>
      obtain ⟨out', height, hk⟩ := hk (v?.getD .null)
      exact ⟨out', hn.operand_ok hk⟩

namespace Constant

variable {n : Node}

/-- **Constants.**  A constant has one outcome wherever it is evaluated. -/
theorem settles (h : n.Constant) : ∃ out, n.Settles out := by
  have hsettle : ∀ r : Except Fault Value, ∃ out height,
      ∀ (depth e : ℕ) s, height ≤ depth → Run.settle r s = some (out, s) :=
    fun r => (Run.exists_settle r).imp fun out h => ⟨0, fun _ _ s _ => h s⟩
  -- by induction over the constant: its operands have one outcome from some
  -- height on, and the operator then settles at the larger of the two
  induction h with
  | intLit | boolLit | strLit =>
      exact ⟨_, settles_of_step fun _ _ _ (_ : 0 ≤ _) => rfl⟩
  | prefixOp t _ ih =>
      obtain ⟨out, hr⟩ := ih
      obtain ⟨out', height, hstep⟩ := hr.operand fun v =>
        hsettle (Value.prefixOp t.text v)
      exact ⟨out', settles_of_step hstep⟩
  | infixOp t _ _ ihl ihr =>
      obtain ⟨out, hl⟩ := ihl
      obtain ⟨out', hr⟩ := ihr
      obtain ⟨out'', height, hstep⟩ := hl.operand fun v =>
        hr.operand fun w => hsettle (Value.infixOp t.text v w)
      exact ⟨out'', settles_of_step hstep⟩

/-- A value that it has somewhere it has everywhere. -/
lemma settles_of_eval (h : n.Constant) {depth e : ℕ} {s s' : Store}
    {v? : Option Value} (hrun : eval depth n e s = some (.ok v?, s')) :
    n.Settles (.ok v?) := by
  obtain ⟨out, hout⟩ := h.settles
  obtain ⟨rfl, -⟩ := Prod.mk.inj (hout.eq hrun)
  exact hout

/-- A quote leaves it as it is. -/
lemma quoteWith_eq (h : n.Constant) (rec : Node → ℕ → Run (Option Value))
    (e : ℕ) (s : Store) : quoteWith rec e n s = some (.ok n, s) := by
  induction h with
  | intLit | boolLit | strLit => rfl
  | prefixOp t _ ih => exact bind_ok ih
  | infixOp t _ _ ihl ihr => exact (bind_ok ihl).trans (bind_ok ihr)

lemma isMissing (h : n.Constant) : n.isMissing = false := by
  cases h <;> rfl

lemma ofCallee? (h : n.Constant) : SpecialForm.ofCallee? n = none := by
  cases h <;> rfl

end Constant

/-! ### Trees with constants under `unquote` -/

/-- Trees without literals of functions and macros, and without calls of
special forms. -/
inductive Direct : Node → Prop where
  | node {n : Node} (hn : n.isDirect = true)
      (hchildren : ∀ m ∈ n.children, Direct m) : Direct n

/-- A tree and the same with some constants, none inside another one, each as
the argument of a call of `unquote`; they have integers or truth values. -/
inductive Wraps : Node → Node → Prop where
  | unquote {n : Node} (hn : n.Constant) {depth e : ℕ} {s s' : Store}
      {v : Value} (hv : eval depth n e s = some (.ok (some v), s'))
      (hkind : v.kind = .integer ∨ v.kind = .boolean) (t : Token)
      {callee : Node} (hcallee : SpecialForm.ofCallee? callee = some .unquote) :
      Wraps n (.call t callee [n])
  | node (n : Node) {cs : List Node} (hlength : n.children.length = cs.length)
      (hcs : ∀ {c d}, (c, d) ∈ n.children.zip cs → Wraps c d) :
      Wraps n (n.withChildren cs)

/-- Quoting `q` gives `r`, whatever is bound, and `r` is evaluated as `n`;
with a bound on how much deeper `n` is evaluated. -/
structure Staged (height : ℕ) (n q r : Node) : Prop where
  quoted : ∀ depth e s, height ≤ depth →
    quoteWith (eval depth) e q s = some (.ok r, s)
  forth : ∀ depth, n.Serves (eval depth) (eval depth) r
  back : ∀ depth, r.Serves (eval depth) (eval (depth + height)) n

namespace Staged

lemma mono {n q r : Node} {height height' : ℕ} (h : Staged height n q r)
    (hle : height ≤ height') : Staged height' n q r where
  quoted depth e s hdepth := h.quoted depth e s (Nat.le_trans hle hdepth)
  forth := h.forth
  back depth := (h.back depth).mono (eval_mono (by omega))

end Staged

/-- The literals of integers and truth values. -/
lemma exists_literal {v : Value}
    (hkind : v.kind = .integer ∨ v.kind = .boolean) :
    ∃ k, v.toNode? = some k ∧ k.Constant ∧
      ∀ depth e s, eval (depth + 1) k e s = some (.ok (some v), s) := by
  cases v with
  | integer n => exact ⟨_, rfl, .intLit _ n, fun _ _ _ => rfl⟩
  | boolean b =>
      cases b with
      | true => exact ⟨_, rfl, .boolLit _ true, fun _ _ _ => rfl⟩
      | false => exact ⟨_, rfl, .boolLit _ false, fun _ _ _ => rfl⟩
  | _ => rcases hkind with hkind | hkind <;> cases hkind

/-- A constant under `unquote` is quoted as the literal of its value. -/
lemma exists_staged_unquote {n callee : Node} {v : Value} (hn : n.Constant)
    (hv : n.Settles (.ok (some v)))
    (hkind : v.kind = .integer ∨ v.kind = .boolean) (t : Token)
    (hcallee : SpecialForm.ofCallee? callee = some .unquote) :
    ∃ height k, Staged height n (.call t callee [n]) k := by
  obtain ⟨k, hk, hconstant, hliteral⟩ := exists_literal hkind
  obtain ⟨height, heval⟩ := hv
  -- three things: the quote holds the literal, the literal is good for the
  -- constant, and the constant for it
  refine ⟨height, k, fun depth e s hdepth => ?_,
    fun depth => ⟨fun e s x hx => ?_, ?_, ?_⟩,
    fun depth => ⟨fun e s x hx => ?_, ?_, ?_⟩⟩
  · obtain ⟨u, rfl⟩ := exists_ident hcallee
    have hargs : transformList (replaceUnquote (eval depth) e) [n] s =
        some (.ok [n], s) := bind_ok (hn.quoteWith_eq _ e s)
    have hrule : replaceUnquote (eval depth) e (.call t (.ident u) [n]) =
        unquoteWith (eval depth) e n := if_pos hcallee
    have hunquote : unquoteWith (eval depth) e n s = some (.ok k, s) :=
      unquoteWith_eq_ok.mpr ⟨v, heval depth e s hdepth, hk⟩
    refine (bind_ok (a := Node.ident u) rfl).trans ((bind_ok hargs).trans ?_)
    rw [hrule, hunquote]
  · obtain rfl := Settles.eq ⟨height, heval⟩ hx
    cases depth with
    | zero => cases hx
    | succ depth => exact hliteral depth e s
  · rw [hn.isMissing, hconstant.isMissing]
  · rw [hn.ofCallee?, hconstant.ofCallee?]
  · cases depth with
    | zero => cases hx
    | succ depth =>
        rw [← hx, hliteral]
        exact heval _ e s (by omega)
  · rw [hn.isMissing, hconstant.isMissing]
  · rw [hn.ofCallee?, hconstant.ofCallee?]

/-- Several trees are quoted one after the other. -/
lemma exists_staged_list {ns qs : List Node}
    (h : Forall₂ (fun n q => ∃ height r, Staged height n q r) ns qs) :
    ∃ height rs, (∀ depth e s, height ≤ depth →
        transformList (replaceUnquote (eval depth) e) qs s =
          some (.ok rs, s)) ∧
      (∀ depth, Forall₂ (Serves (eval depth) (eval depth)) ns rs) ∧
      ∀ depth, Forall₂ (Serves (eval depth) (eval (depth + height))) rs ns := by
  induction h with
  | nil => exact ⟨0, [], fun _ _ _ _ => rfl, fun _ => .nil, fun _ => .nil⟩
  | cons hn _ ih =>
      obtain ⟨height, r, hr⟩ := hn
      obtain ⟨height', rs, hquoted, hforth, hback⟩ := ih
      have hr := hr.mono (Nat.le_max_left height height')
      refine ⟨max height height', r :: rs, fun depth e s hdepth => ?_,
        fun depth => .cons (hr.forth depth) (hforth depth),
        fun depth => .cons (hr.back depth) ((hback depth).imp fun _ _ hm =>
          hm.mono (eval_mono (by omega)))⟩
      have hrest := hquoted depth e s (by omega)
      exact (bind_ok (hr.quoted depth e s hdepth)).trans (bind_ok hrest)

lemma isMissing_withChildren (n : Node) (cs : List Node) :
    (n.withChildren cs).isMissing = n.isMissing := by
  unfold withChildren
  split <;> rfl

lemma ofCallee?_withChildren (n : Node) (cs : List Node) :
    SpecialForm.ofCallee? (n.withChildren cs) = SpecialForm.ofCallee? n := by
  unfold withChildren
  split <;> rfl

lemma unquoted?_of_isDirect {n : Node} (h : n.isDirect = true) :
    n.unquoted? = none := by
  rcases hn : n.unquoted? with _ | arg
  · rfl
  · obtain ⟨t, callee, rfl, hcallee⟩ := unquoted?_inv hn
    have hplain : SpecialForm.ofCallee? callee = none := of_decide_eq_true h
    rw [hplain] at hcallee
    cases hcallee

/-- From its children it goes up to a node. -/
lemma exists_staged_node {n : Node} {qs : List Node}
    (hdirect : n.isDirect = true) (hlength : qs.length = n.children.length)
    (h : Forall₂ (fun c q => ∃ height r, Staged height c q r) n.children qs) :
    ∃ height r, Staged height n (n.withChildren qs) r := by
  by_cases hmissing : n = .missing
  · subst hmissing
    exact ⟨0, .missing, fun _ _ _ _ => rfl,
      fun _ => ⟨fun _ => .refl _, rfl, rfl⟩,
      fun _ => ⟨fun _ => .refl _, rfl, rfl⟩⟩
  -- the children are staged, which gives the trees that the quoted node has in
  -- their places
  obtain ⟨height, rs, hquoted, hforth, hback⟩ := exists_staged_list h
  have hlength' : rs.length = n.children.length := (hforth 0).length_eq.symm
  have hsame := withChildren_children n
  have hdirect' : (n.withChildren rs).isDirect = true :=
    isDirect_of_serves (by rwa [hsame]) rfl (hforth 0)
  refine ⟨height, n.withChildren rs, fun depth e s hdepth => ?_,
    fun depth => ⟨fun e => ?_, ?_, ?_⟩, fun depth => ⟨fun e => ?_, ?_, ?_⟩⟩
  · have hne : n.withChildren qs ≠ .missing := by
      intro hnone
      have hkind := kind_withChildren n qs
      rw [hnone] at hkind
      cases n <;> cases hkind
      exact hmissing rfl
    -- the quote rebuilds the node from its children, and the node is no
    -- `unquote` itself
    rw [quoteWith, transformM_eq _ hne, children_withChildren hlength,
      bind_ok (hquoted depth e s hdepth),
      withChildren_withChildren hlength hlength',
      replaceUnquote_of_none (unquoted?_of_isDirect hdirect')]
    rfl
  · cases depth with
    | zero => exact fun s x hx => by cases hx
    | succ depth =>
        have hstep := evalWith_serves (fun b e => .refl (eval depth b e))
          (by rwa [hsame]) rfl (hforth depth) e
        rwa [hsame] at hstep
  · exact (isMissing_withChildren n rs).symm
  · exact (ofCallee?_withChildren n rs).symm
  · cases depth with
    | zero => exact fun s x hx => by cases hx
    | succ depth =>
        have hstep := evalWith_serves
          (eval_mono (Nat.le_add_right depth height)) hdirect' hlength'
          (hback depth) e
        rw [hsame] at hstep
        -- the constants take at most that much more depth than the literals for
        -- them
        rw [Nat.add_right_comm]
        exact hstep
  · exact isMissing_withChildren n rs
  · exact ofCallee?_withChildren n rs

/-- **Quoting and evaluating.**  A tree of which some constants are under
`unquote` is quoted as a tree that is evaluated as itself. -/
theorem Wraps.exists_staged {n q : Node} (h : n.Wraps q) (hn : n.Direct) :
    ∃ height r, Staged height n q r := by
  induction h with
  | unquote hconstant hv hkind t hcallee =>
      exact exists_staged_unquote hconstant (hconstant.settles_of_eval hv)
        hkind t hcallee
  | node n hlength _ ih =>
      cases hn with
      | node hdirect hchildren =>
          refine exists_staged_node hdirect hlength.symm
            (List.forall₂_iff_zip.mpr ⟨hlength, fun hcd => ?_⟩)
          exact ih hcd (hchildren _ (List.of_mem_zip hcd).1)

/-- **Staging.**  Let a tree without literals of functions and macros and
without calls of `quote` and `unquote` be quoted with some of its constants
under `unquote`, which have integers or truth values.  This gives the same
quote in every frame of every store, which it leaves as it is; and wherever the
quoted tree is evaluated it comes to what the tree itself comes to there, with
the same values, faults, bindings and printed texts. -/
theorem Wraps.eval_quoted {n q : Node} (h : n.Wraps q) (hn : n.Direct)
    (t : Token) {callee : Node}
    (hcallee : SpecialForm.ofCallee? callee = some .quote) :
    ∃ r,
      (∃ height, ∀ depth e s, height ≤ depth →
        eval depth (.call t callee [q]) e s =
          some (.ok (some (.quote r)), s)) ∧
      ∀ e s out s', (∃ depth, eval depth r e s = some (out, s')) ↔
        ∃ depth, eval depth n e s = some (out, s') := by
  obtain ⟨height, r, hr⟩ := h.exists_staged hn
  refine ⟨r, ⟨height + 1, fun depth e s hdepth => ?_⟩, fun e s out s' => ?_⟩
  · obtain ⟨depth, rfl⟩ : ∃ d, depth = d + 1 := ⟨depth - 1, by omega⟩
    show callWith (eval depth) e callee [q] s = _
    rw [callWith_quote _ _ hcallee,
      bind_ok (hr.quoted depth e s (by omega))]
    rfl
  · constructor
    · rintro ⟨depth, hrun⟩
      exact ⟨depth + height, (hr.back depth).refines e s _ hrun⟩
    · rintro ⟨depth, hrun⟩
      exact ⟨depth, (hr.forth depth).refines e s _ hrun⟩

/-- The expression `2 - 7`. -/
def twoMinusSeven : Node :=
  .infixOp (.made .minus "-") (.ofInt 2) (.ofInt 7)

/-- The expression `!true`. -/
def notTrue : Node := .prefixOp (.made .bang "!") (.ofBool true)

/-- The expression `puts(a, b)`. -/
def putsBoth (a b : Node) : Node :=
  .call (.made .lparen "(") (.ofName "puts") [a, b]

/-- The expression `unquote(n)`. -/
def unquoteCall (n : Node) : Node :=
  .call (.made .lparen "(") (.ofName "unquote") [n]

/-- Quoting `puts(unquote(2 - 7), unquote(!true))` gives `puts(-5, false)`,
with a literal that no text has, and both print the same. -/
theorem Wraps.eval_quoted_putsBoth :
    (putsBoth twoMinusSeven notTrue).Wraps
      (putsBoth (unquoteCall twoMinusSeven) (unquoteCall notTrue)) ∧
    (putsBoth twoMinusSeven notTrue).Direct ∧
    eval 9 (.call (.made .lparen "(") (.ofName "quote")
        [putsBoth (unquoteCall twoMinusSeven) (unquoteCall notTrue)]) 0 .empty =
      some (.ok (some (.quote (putsBoth (.ofInt (-5)) (.ofBool false)))),
        .empty) ∧
    ∃ depth s, eval depth (putsBoth (.ofInt (-5)) (.ofBool false)) 0 .empty =
        some (.ok (some .null), s) ∧ s.printed = #["-5", "false"] := by
  have htwo : twoMinusSeven.Wraps (unquoteCall twoMinusSeven) :=
    .unquote (.infixOp _ (.intLit _ 2) (.intLit _ 7))
      (rfl : eval 2 twoMinusSeven 0 .empty =
        some (.ok (some (.integer (-5))), .empty)) (Or.inl rfl) _ rfl
  have hnot : notTrue.Wraps (unquoteCall notTrue) :=
    .unquote (.prefixOp _ (.boolLit _ true))
      (rfl : eval 2 notTrue 0 .empty =
        some (.ok (some (.boolean false)), .empty)) (Or.inr rfl) _ rfl
  have hputs : (Node.ofName "puts").Wraps (.ofName "puts") :=
    .node (.ofName "puts") (rfl : _ = ([] : List Node).length) nofun
  have hwraps : (putsBoth twoMinusSeven notTrue).Wraps
      (putsBoth (unquoteCall twoMinusSeven) (unquoteCall notTrue)) := by
    refine .node (putsBoth twoMinusSeven notTrue) (rfl : _ =
      [.ofName "puts", unquoteCall twoMinusSeven, unquoteCall notTrue].length)
      fun hcd => ?_
    have hzip : Forall₂ Wraps (putsBoth twoMinusSeven notTrue).children
        [.ofName "puts", unquoteCall twoMinusSeven, unquoteCall notTrue] :=
      .cons hputs (.cons htwo (.cons hnot .nil))
    exact (List.forall₂_iff_zip.mp hzip).2 hcd
  have hleaf : ∀ {n : Node}, n.isDirect = true → n.children = [] → n.Direct :=
    fun hn hchildren => .node hn (by rw [hchildren]; nofun)
  have hdirect : (putsBoth twoMinusSeven notTrue).Direct := by
    refine .node rfl ?_
    simp only [putsBoth, children, List.forall_mem_cons]
    refine ⟨hleaf rfl rfl, .node rfl ?_, .node rfl ?_, nofun⟩
    · exact List.forall_mem_cons.mpr ⟨hleaf rfl rfl,
        List.forall_mem_singleton.mpr (hleaf rfl rfl)⟩
    · exact List.forall_mem_singleton.mpr (hleaf rfl rfl)
  have hquote : eval 9 (.call (.made .lparen "(") (.ofName "quote")
      [putsBoth (unquoteCall twoMinusSeven) (unquoteCall notTrue)]) 0 .empty =
      some (.ok (some (.quote (putsBoth (.ofInt (-5)) (.ofBool false)))),
        .empty) := rfl
  obtain ⟨s, hrun, hprinted⟩ : ∃ s,
      eval 9 (putsBoth twoMinusSeven notTrue) 0 .empty =
        some (.ok (some .null), s) ∧ s.printed = #["-5", "false"] :=
    ⟨_, rfl, by decide⟩
  -- the theorem gives the quoted tree at some depth; it is the one of depth
  -- nine, as deeper runs agree
  obtain ⟨r, ⟨height, hr⟩, hsame⟩ :=
    hwraps.eval_quoted hdirect (.made .lparen "(")
      (rfl : SpecialForm.ofCallee? (.ofName "quote") = some .quote)
  have hagree := eval_mono (Nat.le_max_left 9 height) _ 0 _ _ hquote
  rw [hr _ 0 .empty (Nat.le_max_right _ _)] at hagree
  obtain rfl : r = putsBoth (.ofInt (-5)) (.ofBool false) := by
    simpa using hagree
  obtain ⟨depth, hliterals⟩ := (hsame 0 .empty _ s).mpr ⟨9, hrun⟩
  exact ⟨hwraps, hdirect, hquote, depth, s, hliterals, hprinted⟩

end Node

end MonkeyLang

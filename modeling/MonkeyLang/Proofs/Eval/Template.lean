/-
Evaluation of a block that quotes a template.

* `Run.Stays r s a`: from `s` the run `r` has no other outcome than the answer
  `a`, and it leaves the store as it is;
* `Node.Template.stays_quoteWith`: where each name of a template is bound to a
  quote, quoting the template fills it with what they quote;
* `Node.Quotes`, `Node.Quotes.stays_eval`: so does the block that does nothing
  but quote it;
* `Node.Quoting`, `Moment.quoting_of_calls`: of all nodes only the block, its
  statement, the quote and those names are evaluated for it.
-/
import MonkeyLang.Proofs.Eval.Moments
import MonkeyLang.Proofs.Tree.Template

namespace MonkeyLang

open Relation (ReflTransGen)

/-! ### Runs that change nothing -/

/-- From a store a run has no other outcome than an answer, and it leaves the
store as it is. -/
def Run.Stays {α : Type} (r : Run α) (s : Store) (a : α) : Prop :=
  ∀ out s', r s = some (out, s') → out = .ok a ∧ s' = s

namespace Run.Stays

variable {α β : Type} {s : Store}

lemma pure (a : α) : Stays (Pure.pure a) s a := by
  rintro out s' ⟨⟩
  exact ⟨rfl, rfl⟩

lemma bind {r : Run α} {k : α → Run β} {a : α} {b : β} (hr : r.Stays s a)
    (hk : (k a).Stays s b) : (r >>= k).Stays s b := by
  intro out s' h
  rcases bind_inv h with ⟨f, -, hf⟩ | ⟨c, s₁, hc, hrest⟩
  · cases (hr _ _ hf).1
  · obtain ⟨hanswer, rfl⟩ := hr _ _ hc
    cases hanswer
    exact hk _ _ hrest

/-- Several trees that are changed without an effect. -/
lemma transformList {f : Node → Run Node} {g : Node → Node} {ns : List Node}
    (h : ∀ n ∈ ns, (n.transformM f).Stays s (g n)) :
    (Node.transformList f ns).Stays s (ns.map g) := by
  induction ns with
  | nil => exact pure _
  | cons n ns ih =>
      obtain ⟨hn, hns⟩ := List.forall_mem_cons.mp h
      exact hn.bind ((ih hns).bind (pure _))

end Run.Stays

/-! ### Quoting a template -/

namespace Node.Template

variable {rec : Node → ℕ → Run (Option Value)} {e : ℕ} {names : List String}
  {σ : String → Node} {s : Store} {T : Node}
  (hrec : ∀ t : Token, t.text ∈ names →
    (rec (.ident t) e).Stays s (some (.quote (σ t.text))))
  (hσ : ∀ p ∈ names, SpecialForm.ofCallee? (σ p) ≠ some .unquote)

include hrec hσ

/-- **Quoting.**  Where its names give quotes, a template is filled with what
they quote. -/
theorem stays_quoteWith (h : T.Template names) :
    (quoteWith rec e T).Stays s (T.fill σ) := by
  induction h with
  | @node n hn hchildren ih =>
      by_cases hmissing : n = .missing
      · rw [hmissing]
        exact Run.Stays.pure _
      rw [quoteWith, transformM_eq _ hmissing]
      refine (Run.Stays.transformList ih).bind ?_
      rcases rebuilt (.node hn hchildren) hσ with
        ⟨hunquote, hsame⟩ | ⟨hhole, hrebuilt⟩
      · obtain ⟨p, hp, hhole⟩ := hn hunquote
        rw [hsame, fill_of_hole hhole]
        obtain ⟨t, callee, u, rfl, rfl, hcallee⟩ := hole?_inv hhole
        -- at a hole the name is evaluated, and it gives a quote of its filling
        have hrule : replaceUnquote rec e (.call t callee [.ident u]) =
            unquoteWith rec e (.ident u) := if_pos hcallee
        rw [hrule]
        exact (hrec u hp).bind (Run.Stays.pure _)
      · rw [fill_eq hhole]
        rcases replaceUnquote_cases (n.withChildren (n.children.map (fill σ)))
          with ⟨t, callee, arg, hcall, hcallee, -⟩ | hrule
        · rw [hcall] at hrebuilt
          simp [isUnquote, hcallee] at hrebuilt
        · rw [hrule]
          exact Run.Stays.pure _

/-- Quoting a template comes to no other calls of `unquote` than its holes, and
leaves the store as it is up to there. -/
lemma hole_of_comes {m : Node} {s' : Store} (h : T.Template names)
    (hm : Comes (replaceUnquote rec e) T s m s') :
    s' = s ∧ (m.isUnquote = true → ∃ p ∈ names, m.hole? = some p) := by
  induction hm with
  | @here n cs s s' hn hcs =>
      have hstays := Run.Stays.transformList fun c hc =>
        stays_quoteWith hrec hσ (h.child hc)
      obtain ⟨hanswer, rfl⟩ := hstays _ _ hcs
      cases hanswer
      refine ⟨rfl, fun hunquote => ?_⟩
      rcases h.rebuilt hσ with ⟨hn, hsame⟩ | ⟨-, hnone⟩
      · rw [hsame]
        exact h.hole hn
      · rw [hnone] at hunquote
        cases hunquote
  | @inside n c m pre post cs s s₁ s₂ hc hpre _ ih =>
      have hmem : ∀ k ∈ pre, k ∈ n.children := fun k hk =>
        hc ▸ List.mem_append_left _ hk
      have hstays := Run.Stays.transformList fun k hk =>
        stays_quoteWith hrec hσ (h.child (hmem k hk))
      obtain ⟨-, rfl⟩ := hstays _ _ hpre
      exact ih hrec (h.child (hc ▸ List.mem_append_right _ List.mem_cons_self))

end Node.Template

/-! ### The block that quotes it -/

/-- A block that does nothing but quote a tree. -/
def Node.Quotes (body T : Node) : Prop :=
  ∃ b x c q, body = .block b [.exprStmt x (.call c q [T])] ∧
    SpecialForm.ofCallee? q = some .quote

/-- The nodes that are evaluated for such a block: names, the quote, and the
statement and the block around it. -/
inductive Node.Quoting (names : List String) (T : Node) : Node → Prop where
  | name {t : Token} (ht : t.text ∈ names) : Quoting names T (.ident t)
  | quote (c : Token) {q : Node} (hq : SpecialForm.ofCallee? q = some .quote) :
      Quoting names T (.call c q [T])
  | statement (x : Token) {n : Node} (hn : Quoting names T n) :
      Quoting names T (.exprStmt x n)
  | block (b : Token) {n : Node} (hn : Quoting names T n) :
      Quoting names T (.block b [n])

section

variable {e : ℕ} {names : List String} {σ : String → Node} {s : Store}
  {T body : Node}

lemma Node.Quotes.quoting (h : body.Quotes T) (names : List String) :
    Node.Quoting names T body := by
  obtain ⟨b, x, c, q, rfl, hq⟩ := h
  exact .block b (.statement x (.quote c hq))

/-- A name that is bound to a quote gives it. -/
lemma stays_ident {t : Token} {n : Node}
    (h : s.lookup e t.text = some (.quote n)) (depth : ℕ) :
    (eval depth (.ident t) e).Stays s (some (.quote n)) := by
  intro out s' hrun
  cases depth with
  | zero => cases hrun
  | succ depth =>
      have hnamed : eval (depth + 1) (.ident t) e s =
          some (.ok (some (.quote n)), s) := named_some h
      cases hnamed.symm.trans hrun
      exact ⟨rfl, rfl⟩

variable (hnames : ∀ p ∈ names, s.lookup e p = some (.quote (σ p)))
  (hσ : ∀ p ∈ names, SpecialForm.ofCallee? (σ p) ≠ some .unquote)
  (hT : T.Template names)

include hnames hσ hT

/-- A block that quotes a template fills it with what its names quote. -/
theorem Node.Quotes.stays_eval (h : body.Quotes T) (depth : ℕ) :
    (eval depth body e).Stays s (some (.quote (T.fill σ))) := by
  obtain ⟨b, x, c, q, rfl, hq⟩ := h
  -- from the inside out: the quote, the statement that it is, and the block of
  -- that statement; too small a depth gives no outcome at all
  have hcall : ∀ d, (eval d (.call c q [T]) e).Stays s
      (some (.quote (T.fill σ))) := by
    rintro (_ | d)
    · rintro out s' ⟨⟩
    · show (callWith (eval d) e q [T]).Stays s _
      rw [callWith_quote _ _ hq]
      exact (hT.stays_quoteWith (fun t ht => stays_ident (hnames _ ht) d)
        hσ).bind (Run.Stays.pure _)
  have hstatement : ∀ d, (eval d (.exprStmt x (.call c q [T])) e).Stays s
      (some (.quote (T.fill σ))) := by
    rintro (_ | d)
    · rintro out s' ⟨⟩
    · exact hcall d
  cases depth with
  | zero => rintro out s' ⟨⟩
  | succ depth => exact (hstatement depth).bind (Run.Stays.pure _)

/-- What such an evaluation asks for first is the statement of the block, the
expression of the statement, and the names in the holes of the template. -/
lemma Node.Quoting.of_asks {l : Node} {i : Job} {s' : Store} {depth : ℕ}
    (hl : Node.Quoting names T l)
    (hi : Asks (eval depth) (.eval l e) s i s') :
    s' = s ∧ ∃ m, i = .eval m e ∧ Node.Quoting names T m := by
  have hsingle : ∀ {n m : Node} {pre post : List Node},
      [n] = pre ++ m :: post → pre = [] ∧ m = n := by
    intro n m pre post h
    cases pre with
    | nil => exact ⟨rfl, (List.cons.inj h).1.symm⟩
    | cons k pre => exact absurd (List.cons.inj h).2.symm (by simp)
  have hempty : ∀ {m : Node} {pre post : List Node}, [] ≠ pre ++ m :: post :=
    fun h => absurd h.symm (by simp)
  -- what is asked for first is a part or a statement, or the argument of an
  -- `unquote` that the quote comes to
  cases hl with
  | name =>
      cases hi with
      | part hm | statement hm => exact absurd hm hempty
  | @quote c q hq =>
      cases hi with
      | part hm =>
          rw [Node.parts, if_neg (by simp [hq])] at hm
          exact absurd hm hempty
      | statement hm => exact absurd hm hempty
      | @unquote t u callee inner n arg _ _ _ _ hcomes hinner =>
          -- every `unquote` in a template is one of its holes, and what is
          -- evaluated there is a name
          obtain ⟨rfl, hhole⟩ := hT.hole_of_comes
            (fun t ht => stays_ident (hnames _ ht) depth) hσ hcomes
          obtain ⟨p, hp, hname⟩ := hhole (decide_eq_true hinner)
          obtain ⟨t, callee, w, hcall, rfl, -⟩ := Node.hole?_inv hname
          cases hcall
          exact ⟨rfl, _, rfl, .name hp⟩
      | call hcallee =>
          rw [hq] at hcallee
          cases hcallee
  | @statement x n hn =>
      cases hi with
      | part hm hpre =>
          obtain ⟨rfl, rfl⟩ := hsingle hm
          cases hpre
          exact ⟨rfl, _, rfl, hn⟩
      | statement hm => exact absurd hm hempty
  | @block b n hn =>
      cases hi with
      | part hm => exact absurd hm hempty
      | statement hm hpre =>
          obtain ⟨rfl, rfl⟩ := hsingle hm
          cases hpre
          exact ⟨rfl, _, rfl, hn⟩

/-- **Nothing else is evaluated.**  In an evaluation of a block that quotes a
template no other node is evaluated than the block, its statement, the quote
and the names of the template, each in the same store. -/
theorem Moment.quoting_of_calls {l : Node} {depth : ℕ} {q : Moment}
    (hl : Node.Quoting names T l)
    (hq : ReflTransGen Moment.Calls ⟨depth, .eval l e, s⟩ q) :
    q.store = s ∧ ∃ m, q.job = .eval m e ∧ Node.Quoting names T m := by
  induction hq with
  | refl => exact ⟨rfl, l, rfl, hl⟩
  | tail _ hstep ih =>
      obtain ⟨hstore, m, hjob, hm⟩ := ih
      cases hstep with
      | ofEval hi =>
          cases hjob
          cases hstore
          exact hm.of_asks hnames hσ hT hi
      | ofApply => cases hjob

end

end MonkeyLang

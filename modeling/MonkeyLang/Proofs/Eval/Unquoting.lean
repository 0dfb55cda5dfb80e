/-
What a quote evaluates.

* `Unquoted`: some arguments of `unquote` are evaluated one after the other, and
  each value has a tree; `Refused`: one results in an error or has no tree;
* `unquoteAll_eq_ok`, `unquoteAll_eq_stopped`: all arguments have trees, or the
  first that has none ends it;
* `asks_quote_iff_unquoted`: a quote asks for nothing but these arguments;
* `quote_evaluates`: the outcomes of a quote and all that is evaluated for it.
-/
import MonkeyLang.Proofs.Eval.Quoting
import Mathlib.Data.List.Induction

namespace MonkeyLang

section

variable (rec : Node → ℕ → Run (Option Value)) (e : ℕ)

/-! ### Arguments -/

/-- From a store some arguments are evaluated in the frame `e`, one after the
other, each with the trees so far in place of the calls inside it, and every
value has a tree. -/
inductive Unquoted (s : Store) : List Node → List Node → Store → Prop where
  | none : Unquoted s [] [] s
  | next {args ks : List Node} {arg k : Node} {v : Value} {s₁ s₂ : Store}
      (hargs : Unquoted s args ks s₁)
      (harg : rec (arg.filledLast ks) e s₁ = some (.ok (some v), s₂))
      (hk : v.toNode? = some k) : Unquoted s (args ++ [arg]) (ks ++ [k]) s₂

/-- An argument is refused: it results in an error, or it has no value or one
without a tree. -/
inductive Refused (arg : Node) (s : Store) : Fault → Store → Prop where
  | error {f : Fault} {s' : Store}
      (harg : rec arg e s = some (.error f, s')) : Refused arg s f s'
  | other {v? : Option Value} {s' : Store}
      (harg : rec arg e s = some (.ok v?, s'))
      (hv : ∀ v, v? = some v → v.toNode? = Option.none) :
      Refused arg s (.notSyntax (v?.map Value.kind)) s'

end

section

variable {rec : Node → ℕ → Run (Option Value)} {e : ℕ} {n arg : Node}
  {ks args : List Node} {s s' : Store}

/-! ### Outcomes -/

/-- How a run ends that has no answer: with a fault, or not at all. -/
def Run.stopped {α : Type} (stop : Option (Fault × Store)) :
    Option (Except Fault α × Store) :=
  stop.map fun (f, s) => (.error f, s)

/-- Two runs in a row stop where the first does, or behind its answer where the
second does. -/
lemma Run.bind_eq_stopped {α β : Type} {x : Run α} {k : α → Run β}
    {stop : Option (Fault × Store)} :
    (x >>= k) s = stopped stop ↔
      x s = stopped stop ∨
      ∃ a s₁, x s = some (.ok a, s₁) ∧ k a s₁ = stopped stop := by
  rcases hx : x s with _ | ⟨g | a, s₁⟩
  · have hnone : (x >>= k) s = none := by
      show (x s).bind _ = none
      rw [hx]
      rfl
    rw [hnone]
    cases stop <;> simp [stopped]
  · rw [bind_error hx]
    cases stop <;> simp [stopped]
  · rw [bind_ok hx]
    constructor
    · exact fun h => Or.inr ⟨a, s₁, rfl, h⟩
    · rintro (h | ⟨b, s₂, hb, h⟩)
      · cases stop <;> cases h
      · cases hb
        exact h

/-- An answer is no end without one. -/
lemma Run.pure_ne_stopped {α : Type} (a : α) (stop : Option (Fault × Store)) :
    (pure a : Run α) s ≠ stopped stop := by
  cases stop <;> exact nofun

/-- The value of an argument has a tree, or it is refused. -/
lemma unquoteWith_cases (rec : Node → ℕ → Run (Option Value)) (e : ℕ)
    (arg : Node) (v? : Option Value) :
    (∃ v k, v? = some v ∧ v.toNode? = some k ∧
      ∀ s s', rec arg e s = some (.ok v?, s') →
        unquoteWith rec e arg s = some (.ok k, s')) ∨
    (∀ v, v? = some v → v.toNode? = none) ∧
      ∀ s s', rec arg e s = some (.ok v?, s') →
        unquoteWith rec e arg s =
          some (.error (.notSyntax (v?.map Value.kind)), s') := by
  rcases hv : v? >>= Value.toNode? with _ | k
  · refine Or.inr ⟨fun v hsome => ?_, fun s s' h => ?_⟩
    · rw [hsome] at hv
      exact hv
    · rw [unquoteWith, bind_ok h, hv]
      rfl
  · obtain ⟨v, rfl, hk⟩ := Option.bind_eq_some_iff.mp hv
    refine Or.inl ⟨v, k, rfl, hk, fun s s' h => ?_⟩
    rw [unquoteWith, bind_ok h, hv]
    rfl

lemma unquoteWith_eq_ok {k : Node} :
    unquoteWith rec e arg s = some (.ok k, s') ↔
      ∃ v, rec arg e s = some (.ok (some v), s') ∧ v.toNode? = some k := by
  constructor
  · intro h
    obtain ⟨v?, s₁, hv, -⟩ := bind_ok_inv h
    rcases unquoteWith_cases rec e arg v? with
      ⟨v, m, rfl, hm, hrun⟩ | ⟨-, hrun⟩
    · cases (hrun _ _ hv).symm.trans h
      exact ⟨v, hv, hm⟩
    · cases (hrun _ _ hv).symm.trans h
  · rintro ⟨v, hv, hk⟩
    rcases unquoteWith_cases rec e arg (some v) with
      ⟨w, m, ⟨⟩, hm, hrun⟩ | ⟨hnone, -⟩
    · cases hm.symm.trans hk
      exact hrun _ _ hv
    · cases (hnone v rfl).symm.trans hk

lemma unquoteWith_eq_error {f : Fault} :
    unquoteWith rec e arg s = some (.error f, s') ↔
      Refused rec e arg s f s' := by
  constructor
  · intro h
    rcases bind_inv h with ⟨g, hg, herror⟩ | ⟨v?, s₁, hv, -⟩
    · cases hg
      exact .error herror
    · rcases unquoteWith_cases rec e arg v? with
        ⟨v, m, rfl, hm, hrun⟩ | ⟨hnone, hrun⟩
      · cases (hrun _ _ hv).symm.trans h
      · cases (hrun _ _ hv).symm.trans h
        exact .other hv hnone
  · intro h
    cases h with
    | error harg => exact bind_error harg
    | @other v? _ harg hv =>
        rcases unquoteWith_cases rec e arg v? with
          ⟨v, m, rfl, hm, -⟩ | ⟨-, hrun⟩
        · cases (hv v rfl).symm.trans hm
        · exact hrun _ _ harg

lemma unquoteWith_eq_none :
    unquoteWith rec e arg s = none ↔ rec arg e s = none := by
  constructor
  · intro h
    rcases hrun : rec arg e s with _ | ⟨f | v?, s₁⟩
    · rfl
    · cases (bind_error hrun).symm.trans h
    · rcases unquoteWith_cases rec e arg v? with
        ⟨v, m, -, -, hv⟩ | ⟨-, hv⟩
      · cases (hv _ _ hrun).symm.trans h
      · cases (hv _ _ hrun).symm.trans h
  · intro h
    show (rec arg e s).bind _ = none
    rw [h]
    rfl

/-- All arguments have trees. -/
lemma unquoteAll_eq_ok :
    unquoteAll rec e [] args s = some (.ok ks, s') ↔
      Unquoted rec e s args ks s' := by
  constructor
  · intro h
    induction args using List.reverseRecOn generalizing ks s' with
    | nil =>
        cases h
        exact .none
    | append_singleton args arg ih =>
        rw [unquoteAll_concat] at h
        obtain ⟨ms, s₁, hms, hrest⟩ := bind_ok_inv h
        obtain ⟨k, s₂, hk, hpure⟩ := bind_ok_inv hrest
        cases hpure
        obtain ⟨v, harg, hv⟩ := unquoteWith_eq_ok.mp hk
        exact .next (ih hms) harg hv
  · intro h
    induction h with
    | none => rfl
    | next _ harg hk ih =>
        rw [unquoteAll_concat, bind_ok ih,
          bind_ok (unquoteWith_eq_ok.mpr ⟨_, harg, hk⟩)]
        rfl

/-- At the first argument that stops the others are left. -/
lemma unquoteAll_eq_stopped {stop : Option (Fault × Store)} :
    unquoteAll rec e [] args s = Run.stopped stop ↔
      ∃ before arg after ks s₁, args = before ++ arg :: after ∧
        Unquoted rec e s before ks s₁ ∧
        unquoteWith rec e (arg.filledLast ks) s₁ = Run.stopped stop := by
  constructor
  · intro h
    induction args using List.reverseRecOn with
    | nil => exact absurd h (Run.pure_ne_stopped _ _)
    | append_singleton args arg ih =>
        rw [unquoteAll_concat] at h
        rcases Run.bind_eq_stopped.mp h with h | ⟨ks, s₁, hks, hrest⟩
        · obtain ⟨before, arg', after, ks, s₁, rfl, hks, hstop⟩ := ih h
          exact ⟨before, arg', after ++ [arg], ks, s₁, by simp, hks, hstop⟩
        · rcases Run.bind_eq_stopped.mp hrest with hstop | ⟨k, s₂, -, hpure⟩
          · exact ⟨args, arg, [], ks, s₁, rfl, unquoteAll_eq_ok.mp hks, hstop⟩
          · exact absurd hpure (Run.pure_ne_stopped _ _)
  · rintro ⟨before, arg, after, ks, s₁, rfl, hks, hstop⟩
    have hsplit : before ++ arg :: after = before ++ [arg] ++ after := by simp
    rw [hsplit, unquoteAll_append, unquoteAll_concat, bind_assoc,
      bind_ok (unquoteAll_eq_ok.mpr hks), bind_assoc]
    exact Run.bind_eq_stopped.mpr (Or.inl hstop)

/-! ### Nothing else is evaluated -/

/-- Several trees are quoted one after the other. -/
lemma Node.CalleesStay.transformList_eq {pre post : List Node}
    (h : n.CalleesStay rec e s) (hc : n.children = pre ++ post)
    (ks : List Node) :
    Node.transformList (replaceUnquote rec e) pre s =
      (unquoteAll rec e ks (pre.flatMap Node.unquotes) >>= fun ls =>
        pure (Node.filledList pre (ls.drop ks.length))) s := by
  refine MonkeyLang.transformList_eq (fun as c bs cs s₁ hsplit has ks => ?_) ks
  have hchildren : n.children = as ++ c :: (bs ++ post) := by
    rw [hc, hsplit, List.append_assoc]
    rfl
  exact quoteWith_eq (h.child hchildren has) ks

/-- The arguments in the children of a node come first. -/
lemma Node.exists_unquotes (n : Node) :
    ∃ rest, n.unquotes = n.children.flatMap unquotes ++ rest := by
  rcases hn : n.unquoted? with _ | arg
  · exact ⟨[], by rw [unquotes_eq hn, List.append_nil]⟩
  · obtain ⟨t, callee, rfl, hcallee⟩ := unquoted?_inv hn
    obtain ⟨u, rfl⟩ := exists_ident hcallee
    refine ⟨[arg], ?_⟩
    rw [unquotes_of_unquoted hn]
    simp [children, unquotes]

/-- The callee of a call of `unquote` stays as it is. -/
lemma Node.transformList_unquoted {u : Token} {cs : List Node}
    (h : transformList (replaceUnquote rec e) [ident u, arg] s =
      some (.ok cs, s')) :
    ∃ k, cs = [ident u, k] ∧ quoteWith rec e arg s = some (.ok k, s') := by
  obtain ⟨c, ds, s₁, rfl, hc, hds⟩ := transformList_cons_inv h
  cases hc
  obtain ⟨k, bs, s₂, rfl, hk, hbs⟩ := transformList_cons_inv hds
  cases hbs
  exact ⟨k, rfl, hk⟩

/-- Where a quote comes to a call of `unquote`, the arguments before it have
their trees, and its own argument is filled with those for the calls inside. -/
lemma Node.Comes.split {m a : Node}
    (hm : Node.Comes (replaceUnquote rec e) n s m s')
    (ha : m.unquoted? = some a) (h : n.CalleesStay rec e s) (ks : List Node) :
    ∃ before arg after ls, n.unquotes = before ++ arg :: after ∧
      unquoteAll rec e ks before s = some (.ok ls, s') ∧
      a = arg.filledLast ls := by
  -- by induction over the way there, for all trees that are there already; what
  -- is passed on the way has its arguments before all others
  induction hm generalizing ks with
  | @here n cs s s' hn hcs =>
      -- the call may be written as it is, or be what a node becomes; callees
      -- stay, so the second does not happen
      rcases hwritten : n.unquoted? with _ | arg
      · rw [h.rebuilt hwritten hcs] at ha
        cases ha
      · obtain ⟨t, callee, rfl, hcallee⟩ := unquoted?_inv hwritten
        obtain ⟨u, rfl⟩ := exists_ident hcallee
        obtain ⟨k, rfl, hk⟩ := transformList_unquoted hcs
        have hsame : some k = some a := (if_pos hcallee).symm.trans ha
        have harg : arg.CalleesStay rec e s := h.argument
        rw [quoteWith_eq harg ks] at hk
        obtain ⟨ls, s₁, hls, hpure⟩ := bind_ok_inv hk
        obtain ⟨as, rfl, has⟩ := unquoteAll_inv hls
        rw [List.drop_left] at hpure
        cases hpure
        cases hsame
        exact ⟨arg.unquotes, arg, [], ks ++ as, unquotes_of_unquoted hwritten,
          hls, (filledLast_append ks has).symm⟩
  | @inside n c m pre post cs s s₁ s₂ hc hpre _ ih =>
      have hpre' := hpre
      rw [h.transformList_eq hc ks] at hpre'
      obtain ⟨ls, s₃, hls, hpure⟩ := bind_ok_inv hpre'
      cases hpure
      obtain ⟨before, arg, after, ms, hsplit, hms, rfl⟩ :=
        ih ha (h.child hc hpre) ls
      obtain ⟨rest, hrest⟩ := n.exists_unquotes
      refine ⟨pre.flatMap unquotes ++ before, arg,
        after ++ post.flatMap unquotes ++ rest, ms, ?_, ?_, rfl⟩
      · rw [hrest, hc, List.flatMap_append, List.flatMap_cons, hsplit]
        simp only [List.append_assoc, List.cons_append]
      · rw [unquoteAll_append, bind_ok hls, hms]

/-- A member of several lists put together is one of one of them. -/
lemma exists_of_flatMap {α β : Type} {f : α → List β} {as : List α} {b : β}
    {before after : List β} (h : as.flatMap f = before ++ b :: after) :
    ∃ pre a post bs ds, as = pre ++ a :: post ∧ f a = bs ++ b :: ds ∧
      before = pre.flatMap f ++ bs := by
  induction as generalizing before with
  | nil => simp at h
  | cons a as ih =>
      have hlater : ∀ bs, before = f a ++ bs →
          as.flatMap f = bs ++ b :: after →
          ∃ pre a' post bs ds, a :: as = pre ++ a' :: post ∧
            f a' = bs ++ b :: ds ∧ before = pre.flatMap f ++ bs := by
        intro bs hbefore hbs
        obtain ⟨pre, a', post, cs, ds, rfl, ha, rfl⟩ := ih hbs
        exact ⟨a :: pre, a', post, cs, ds, rfl, ha, by simp [hbefore]⟩
      rw [List.flatMap_cons] at h
      rcases List.append_eq_append_iff.mp h with
        ⟨bs, hbefore, hbs⟩ | ⟨bs, ha, hbs⟩
      · exact hlater bs hbefore hbs
      · cases bs with
        | nil => exact hlater [] (by simpa using ha.symm) hbs.symm
        | cons c bs =>
            obtain ⟨rfl, -⟩ := List.cons.inj hbs
            exact ⟨[], a, as, before, bs, rfl, ha, rfl⟩

/-- A quote comes to every call of `unquote` once the arguments before that of
the call have their trees. -/
lemma Node.CalleesStay.comes {before after : List Node}
    (h : n.CalleesStay rec e s) {ks ls : List Node}
    (hsplit : n.unquotes = before ++ arg :: after)
    (hls : unquoteAll rec e ks before s = some (.ok ls, s')) :
    ∃ m, Node.Comes (replaceUnquote rec e) n s m s' ∧
      m.unquoted? = some (arg.filledLast ls) := by
  -- by induction over the tree, whose calls are those of its children in order,
  -- and a call behind the calls in its argument
  induction n using Node.children_induct generalizing before after ks s with
  | step n ih =>
      rcases hwritten : n.unquoted? with _ | a
      · rw [Node.unquotes_eq hwritten] at hsplit
        obtain ⟨pre, c, post, bs, ds, hc, hcsplit, rfl⟩ :=
          exists_of_flatMap hsplit
        have hmem : c ∈ n.children := by
          rw [hc]
          exact List.mem_append_right _ List.mem_cons_self
        rw [unquoteAll_append] at hls
        obtain ⟨ms, s₁, hms, hbs⟩ := bind_ok_inv hls
        have hpre := (h.transformList_eq hc ks).trans (bind_ok hms)
        obtain ⟨m, hm, harg⟩ := ih c hmem (h.child hc hpre) hcsplit hbs
        exact ⟨m, .inside hc hpre hm, harg⟩
      · obtain ⟨t, callee, rfl, hcallee⟩ := Node.unquoted?_inv hwritten
        obtain ⟨u, rfl⟩ := exists_ident hcallee
        have ha : a.CalleesStay rec e s := h.argument
        rw [Node.unquotes_of_unquoted hwritten] at hsplit
        rcases List.eq_nil_or_concat after with rfl | ⟨after, b, rfl⟩
        · -- it is the argument of the call itself
          obtain ⟨rfl, hsame⟩ := List.append_inj' hsplit rfl
          cases hsame
          obtain ⟨as, rfl, has⟩ := unquoteAll_inv hls
          have hk := (quoteWith_eq ha ks).trans (bind_ok hls)
          rw [List.drop_left] at hk
          refine ⟨_, .here nofun ((bind_ok rfl).trans
            (bind_ok ((bind_ok hk).trans rfl))), ?_⟩
          rw [Node.filledLast_append ks has]
          exact if_pos hcallee
        · -- it is inside that argument
          have hinside : a.unquotes = before ++ arg :: after := by
            rw [List.concat_eq_append, ← List.cons_append,
              ← List.append_assoc] at hsplit
            exact (List.append_inj' hsplit rfl).1
          obtain ⟨m, hm, harg⟩ := ih a (by simp [Node.children]) ha hinside hls
          have hchildren : (Node.call t (.ident u) [a]).children =
              [.ident u] ++ a :: [] := rfl
          exact ⟨m, .inside hchildren rfl hm, harg⟩

/-- What a quote asks for is the argument of a call of `unquote` that it comes
to. -/
lemma asks_quote_iff {t : Token} {callee : Node} {i : Job}
    (hcallee : SpecialForm.ofCallee? callee = some .quote) :
    Asks rec (.eval (.call t callee [n]) e) s i s' ↔
      ∃ m arg, Node.Comes (replaceUnquote rec e) n s m s' ∧
        m.unquoted? = some arg ∧ i = .eval arg e := by
  constructor
  · intro h
    cases h with
    | part hm =>
        rw [Node.parts, if_neg (by simp [hcallee])] at hm
        simp at hm
    | statement hm => simp [Node.statements] at hm
    | unquote _ hcomes hinner => exact ⟨_, _, hcomes, if_pos hinner, rfl⟩
    | call hplain =>
        rw [hcallee] at hplain
        cases hplain
  · rintro ⟨m, arg, hcomes, harg, rfl⟩
    obtain ⟨u, inner, rfl, hinner⟩ := Node.unquoted?_inv harg
    exact .unquote hcallee hcomes hinner

end

section

variable {depth e : ℕ} {t : Token} {callee n : Node} {s : Store}
  (hcallee : SpecialForm.ofCallee? callee = some .quote)
  (hstays : n.CalleesStay (eval depth) e s)

include hcallee hstays

lemma eval_quote : eval (depth + 1) (.call t callee [n]) e s =
    (unquoteAll (eval depth) e [] n.unquotes >>= fun ks =>
      pure (some (.quote (n.filled ks)))) s := by
  show callWith (eval depth) e callee [n] s = _
  rw [callWith_quote _ _ hcallee]
  refine (bind_congr (quoteWith_eq hstays []) fun _ _ _ => rfl).trans ?_
  rw [bind_assoc]
  rfl

/-- A quote stops where an argument does. -/
lemma eval_quote_eq_stopped (stop : Option (Fault × Store)) :
    eval (depth + 1) (.call t callee [n]) e s = Run.stopped stop ↔
      ∃ before arg after ks s₁, n.unquotes = before ++ arg :: after ∧
        Unquoted (eval depth) e s before ks s₁ ∧
        unquoteWith (eval depth) e (arg.filledLast ks) s₁ =
          Run.stopped stop := by
  rw [eval_quote hcallee hstays, Run.bind_eq_stopped, ← unquoteAll_eq_stopped]
  constructor
  · rintro (h | ⟨ks, s₁, -, hpure⟩)
    · exact h
    · exact absurd hpure (Run.pure_ne_stopped _ _)
  · exact Or.inl

lemma eval_quote_eq_ok {v? : Option Value} {s' : Store} :
    eval (depth + 1) (.call t callee [n]) e s = some (.ok v?, s') ↔
      ∃ ks, Unquoted (eval depth) e s n.unquotes ks s' ∧
        v? = some (.quote (n.filled ks)) := by
  rw [eval_quote hcallee hstays]
  constructor
  · intro h
    obtain ⟨ks, s₁, hks, hpure⟩ := bind_ok_inv h
    cases hpure
    exact ⟨ks, unquoteAll_eq_ok.mp hks, rfl⟩
  · rintro ⟨ks, hks, rfl⟩
    rw [bind_ok (unquoteAll_eq_ok.mpr hks)]
    rfl

/-- A quote asks for nothing but arguments of `unquote`. -/
lemma asks_quote_iff_unquoted {i : Job} {s' : Store} :
    Asks (eval depth) (.eval (.call t callee [n]) e) s i s' ↔
      ∃ before arg after ks, n.unquotes = before ++ arg :: after ∧
        Unquoted (eval depth) e s before ks s' ∧
        i = .eval (arg.filledLast ks) e := by
  rw [asks_quote_iff hcallee]
  constructor
  · rintro ⟨m, a, hcomes, ha, rfl⟩
    obtain ⟨before, arg, after, ks, hsplit, hks, rfl⟩ :=
      hcomes.split ha hstays []
    exact ⟨before, arg, after, ks, hsplit, unquoteAll_eq_ok.mp hks, rfl⟩
  · rintro ⟨before, arg, after, ks, hsplit, hks, rfl⟩
    obtain ⟨m, hcomes, harg⟩ :=
      hstays.comes hsplit (unquoteAll_eq_ok.mpr hks)
    exact ⟨m, _, hcomes, harg, rfl⟩

end

/-- **What a quote evaluates.**  Where a quote puts the name `unquote` into no
place of a callee, it evaluates the arguments of the calls of `unquote` on one
argument, from left to right and inner ones first, each once, with the calls
inside it replaced and in the frame of the quote, and nothing else.  If all have
values with trees, the result is the tree with these in place of the calls.  At
the first one that results in an error, or has no value or one without a tree,
the result is that error or the one which says so, and no later one is
evaluated.  Without such calls the tree is quoted as it is. -/
theorem quote_evaluates {depth e : ℕ} {t : Token} {callee n : Node} {s : Store}
    (hcallee : SpecialForm.ofCallee? callee = some .quote) :
    (n.CalleesStay (eval depth) e s →
      (∀ v? s', eval (depth + 1) (.call t callee [n]) e s =
          some (.ok v?, s') ↔
        ∃ ks, Unquoted (eval depth) e s n.unquotes ks s' ∧
          v? = some (.quote (n.filled ks))) ∧
      (∀ f s', eval (depth + 1) (.call t callee [n]) e s =
          some (.error f, s') ↔
        ∃ before arg after ks s₁, n.unquotes = before ++ arg :: after ∧
          Unquoted (eval depth) e s before ks s₁ ∧
          Refused (eval depth) e (arg.filledLast ks) s₁ f s') ∧
      (eval (depth + 1) (.call t callee [n]) e s = none ↔
        ∃ before arg after ks s₁, n.unquotes = before ++ arg :: after ∧
          Unquoted (eval depth) e s before ks s₁ ∧
          eval depth (arg.filledLast ks) e s₁ = none) ∧
      ∀ i s', Asks (eval depth) (.eval (.call t callee [n]) e) s i s' ↔
        ∃ before arg after ks, n.unquotes = before ++ arg :: after ∧
          Unquoted (eval depth) e s before ks s' ∧
          i = .eval (arg.filledLast ks) e) ∧
    (n.unquotes = [] → eval (depth + 1) (.call t callee [n]) e s =
      some (.ok (some (.quote n)), s)) := by
  refine ⟨fun hstays => ⟨fun v? s' => eval_quote_eq_ok hcallee hstays,
    fun f s' => ?_, ?_, fun i s' => asks_quote_iff_unquoted hcallee hstays⟩,
    fun hnone => ?_⟩
  · have h := eval_quote_eq_stopped (t := t) hcallee hstays (some (f, s'))
    simp only [Run.stopped, Option.map_some, unquoteWith_eq_error] at h
    exact h
  · have h := eval_quote_eq_stopped (t := t) hcallee hstays none
    simp only [Run.stopped, Option.map_none, unquoteWith_eq_none] at h
    exact h
  · have hplain := Node.plainCallees_of_unquotes hnone
    rw [eval_quote hcallee (hplain.calleesStay _ _ _), hnone]
    show some (Except.ok (some (Value.quote (n.filled []))), s) = _
    rw [Node.filled_nil hnone]

/-- The expression `unquote(unquote(2)) + x`. -/
def nestedUnquote : Node :=
  .infixOp (.made .plus "+")
    (.call (.made .lparen "(") (.ofName "unquote")
      [.call (.made .lparen "(") (.ofName "unquote") [.ofInt 2]])
    (.ofName "x")

/-- Quoting it evaluates two arguments, the inner one and then the tree that
stands for it; the name `x`, which nothing is bound to, is not evaluated. -/
theorem quote_evaluates_nestedUnquote :
    SpecialForm.ofCallee? (.ofName "quote") = some .quote ∧
    nestedUnquote.CalleesStay (eval 3) 0 .empty ∧
    ∃ ks, Unquoted (eval 3) 0 .empty nestedUnquote.unquotes ks .empty ∧
      nestedUnquote.filled ks =
        .infixOp (.made .plus "+") (.ofInt 2) (.ofName "x") := by
  have hname : ∀ name, (Node.ofName name).PlainCallees := fun name =>
    .node (by rintro _ _ _ ⟨⟩) fun m hm => absurd hm List.not_mem_nil
  have htwo : (Node.ofInt 2).PlainCallees :=
    .node (by rintro _ _ _ ⟨⟩) fun m hm => absurd hm List.not_mem_nil
  have hcall : ∀ arg : Node, arg.PlainCallees →
      (Node.call (.made .lparen "(") (.ofName "unquote")
        [arg]).PlainCallees := by
    intro arg harg
    refine .node ?_ ?_
    · rintro t callee args ⟨⟩
      rfl
    · simpa [Node.children] using ⟨hname "unquote", harg⟩
  have hplain : nestedUnquote.PlainCallees := by
    refine .node (by rintro _ _ _ ⟨⟩) ?_
    simpa [nestedUnquote, Node.children] using
      ⟨hcall _ (hcall _ htwo), hname "x"⟩
  have hstays := hplain.calleesStay (eval 3) 0 .empty
  have hrun : eval 4
      (.call (.made .lparen "(") (.ofName "quote") [nestedUnquote]) 0 .empty =
      some (.ok (some (.quote (.infixOp (.made .plus "+") (.ofInt 2)
        (.ofName "x")))), .empty) := rfl
  obtain ⟨ks, hks, hfilled⟩ :=
    (((quote_evaluates rfl).1 hstays).1 _ _).mp hrun
  refine ⟨rfl, hstays, ks, hks, ?_⟩
  exact (Value.quote.inj (Option.some.inj hfilled)).symm

end MonkeyLang

/-
The order of function definitions in an input.

* `Session.Grows`: a session that came of another one by expansions alone, and
  `Grows.renamed`: such sessions are the same if those that they came of are;
* `Session.ExpandsTo`: what a tree is expanded to, and
  `exists_transformList`, `exists_expandsTo`: several trees are expanded each as
  if it were the first one, so that their order does not count
  (`expandsTo_perm`);
* `Session.EndAlike`: two inputs end with values that are alike, or none has a
  value; `endAlike_expanded`: so they do when they are expanded;
* `Session.Rearranged`: inputs that differ in the order of function definitions,
  and `Session.Led.definitions_perm`: they end alike when they are evaluated and
  print the same once they are expanded, and before that, too, if no macro prints
  when these definitions are expanded;
* `Session.definitions_perm_prints`: if one does, the order shows.
-/
import MonkeyLang.Proofs.Eval.Definitions
import MonkeyLang.Proofs.Session.Script

namespace MonkeyLang

open List (Forall₂)
open FunctionDefinition

namespace Session

variable {p q : Array String} {ρ : Renaming} {depth : ℕ}

/-! ### Sessions that grow -/

/-- A session that came of another one by expansions alone: all frames that
there were are as they were, and no closure was taken away. -/
structure Grows (s t : Session) : Prop where
  whole : t.Whole
  apart : t.Apart
  program : t.program = s.program
  macros : t.macros = s.macros
  frames : ∀ d, d < s.store.frames.size →
    t.store.frames[d]? = s.store.frames[d]?
  closures : s.store.closures ≤ t.store.closures

namespace Grows

variable {s t u : Session}

lemma refl (hwhole : s.Whole) (hapart : s.Apart) : s.Grows s :=
  ⟨hwhole, hapart, rfl, rfl, fun _ _ => rfl, Nat.le_refl _⟩

/-- A tree may be expanded. -/
lemma expandAll (h : s.Grows t) {n : Node} {out : Except MacroFault Node}
    (hrun : Expanding.expandAll depth n t = some (out, u)) : s.Grows u := by
  obtain ⟨hwhole, hfollows⟩ := h.whole.expandAll hrun
  obtain ⟨hprogram, hmacros, hframes, hapart⟩ := h.apart.expandAll hrun
  refine ⟨hwhole, hapart, hprogram.trans h.program, hmacros.trans h.macros,
    fun d hd => ?_, h.closures.trans hfollows.1.2⟩
  have hframe := (h.frames d hd).trans (Array.getElem?_eq_getElem hd)
  have hd' : d < t.store.frames.size :=
    (Array.getElem?_eq_some_iff.mp hframe).1
  exact (hframes d hd').trans (h.frames d hd)

/-- So may several ones. -/
lemma transformList (h : s.Grows t) {ns ks : List Node}
    (hrun : Node.transformList (Expanding.expandNode depth) ns t =
      some (.ok ks, u)) : s.Grows u := by
  have hprogram : Expanding.expandAll depth (.program ns) t =
      some (.ok (.program ks), u) := by
    rw [Expanding.expandAll_statements]
    exact bind_ok hrun
  exact h.expandAll hprogram

/-- What came of sessions that are the same is the same as far as they are. -/
lemma renamed {s' t' : Session} (h : s.Renamed p q ρ t) (hs : s.Grows s')
    (ht : t.Grows t') :
    s'.Renamed s'.store.printed t'.store.printed ρ t' := by
  have hbelow := h.store.below
  refine ⟨h.store.transfer (fun d d' hd => ⟨hs.frames d (hbelow d d' hd).1,
    ht.frames d' (hbelow d d' hd).2⟩) (h.store.closures.mono hs.closures
      ht.closures) ⟨hs.whole.store.nested.1, ht.whole.store.nested.1⟩
      ⟨#[], by simp, by simp⟩, ?_⟩
  rw [hs.macros, ht.macros]
  exact h.macros

end Grows

/-! ### Trees that are expanded one after the other -/

/-- A tree is expanded to another one. -/
def ExpandsTo (depth : ℕ) (s : Session) (n k : Node) : Prop :=
  ∃ t, Expanding.expandAll depth n s = some (.ok k, t)

/-- Nothing is printed when a tree is expanded, whatever comes of it. -/
def ExpandsSilently (depth : ℕ) (s : Session) (n : Node) : Prop :=
  ∀ out t, Expanding.expandAll depth n s = some (out, t) →
    t.store.printed = s.store.printed

instance (s : Session) (n : Node) : Decidable (s.ExpandsSilently depth n) :=
  decidable_of_iff
    (∀ x ∈ Expanding.expandAll depth n s, x.2.store.printed = s.store.printed)
    Prod.forall

section

variable {s t t' : Session} {ms ns ks : List Node}

/-- Trees in another order are expanded to the same ones in another order. -/
lemma expandsTo_perm (h : Forall₂ (s.ExpandsTo depth) ms ks)
    (hperm : ns.Perm ms) :
    ∃ ls, Forall₂ (s.ExpandsTo depth) ns ls ∧ ls.Perm ks :=
  List.perm_comp_forall₂ hperm h

variable (h : s.Renamed p q ρ t) (hs : s.Grows s)

include h hs

/-- If each of some trees is expanded in one session, they are expanded one after
the other in what came of a session that is the same. -/
lemma exists_transformList (hks : Forall₂ (s.ExpandsTo depth) ms ks)
    (hns : ms.map Node.bare = ns.map Node.bare) (ht : t.Grows t') :
    ∃ ls u, Node.transformList (Expanding.expandNode depth) ns t' =
      some (.ok ls, u) ∧ ks.map Node.bare = ls.map Node.bare := by
  induction hks generalizing ns t' with
  | nil =>
      obtain rfl : ns = [] := by simpa using hns.symm
      exact ⟨[], t', rfl, rfl⟩
  | @cons m k ms ks hk _ ih =>
      obtain ⟨n, ns, rfl, hn, hns'⟩ := List.map_eq_cons_iff.mp hns.symm
      obtain ⟨s₁, hm⟩ := hk
      -- the other trees were expanded before, but no frame is another one
      obtain ⟨l, u, -, hl, -, -, hkl⟩ :=
        (Expanding.expandAll_renamed hn.symm).ok_inv (hs.renamed h ht) hm
      obtain ⟨ls, u', hls, hkls⟩ := ih hns'.symm (ht.expandAll hl)
      refine ⟨l :: ls, u', (bind_ok hl).trans ((bind_ok hls).trans rfl), ?_⟩
      rw [List.map_cons, List.map_cons, hkl, hkls]

/-- And if they are expanded one after the other, each of them is. -/
lemma exists_expandsTo (hns : ms.map Node.bare = ns.map Node.bare)
    (ht : t.Grows t') {ls : List Node} {u : Session}
    (hls : Node.transformList (Expanding.expandNode depth) ns t' =
      some (.ok ls, u)) : ∃ ks, Forall₂ (s.ExpandsTo depth) ms ks := by
  replace hns := forall₂_map_eq.mpr hns
  induction hns generalizing ls t' with
  | nil => exact ⟨[], .nil⟩
  | cons hn _ ih =>
      obtain ⟨l, ls, u₁, rfl, hl, hls⟩ := Node.transformList_cons_inv hls
      obtain ⟨k, s₁, hk⟩ :=
        (Expanding.expandAll_renamed hn).exists_ok (hs.renamed h ht) hl
      obtain ⟨ks, hks⟩ := ih (ht.expandAll hl) hls
      exact ⟨k :: ks, .cons ⟨s₁, hk⟩ hks⟩

/-- If nothing is printed when each of them is expanded, nothing is when all
are, as far as that goes. -/
lemma printed_transformList (hms : ∀ m ∈ ms, s.ExpandsSilently depth m)
    (hns : ms.map Node.bare = ns.map Node.bare) (ht : t.Grows t')
    {out : Except MacroFault (List Node)} {u : Session}
    (hrun : Node.transformList (Expanding.expandNode depth) ns t' =
      some (out, u)) : u.store.printed = t'.store.printed := by
  replace hns := forall₂_map_eq.mpr hns
  induction hns generalizing out t' with
  | nil =>
      cases hrun
      rfl
  | @cons m n ms ns hn _ ih =>
      obtain ⟨hm, hms⟩ := List.forall_mem_cons.mp hms
      -- the first of them prints here what it prints where it is alone
      have hfirst : ∀ out u, Expanding.expandAll depth n t' = some (out, u) →
          u.store.printed = t'.store.printed := by
        intro out u hn'
        have hends : Option.Rel _ (Expanding.expandAll depth m s)
            (Expanding.expandAll depth n t') :=
          Expanding.expandAll_renamed hn _ _ (hs.renamed h ht)
        rcases hm' : Expanding.expandAll depth m s with _ | x <;>
          rw [hm', hn'] at hends
        · cases hends
        · cases hends with
          | some hends =>
              obtain ⟨ρ', -, hu, -⟩ := hends
              exact hu.store.silent (hm _ _ hm')
      rcases bind_inv hrun with ⟨f, rfl, hf⟩ | ⟨l, u₁, hl, hrest⟩
      · exact hfirst _ _ hf
      · rcases bind_inv hrest with ⟨f, rfl, hf⟩ | ⟨ls, u₂, hls, hpure⟩
        · exact (ih hms (ht.expandAll hl) hf).trans (hfirst _ _ hl)
        · cases hpure
          exact (ih hms (ht.expandAll hl) hls).trans (hfirst _ _ hl)

end

/-! ### Ends that are alike -/

/-- Two runs end alike: with answers such that `A`, or without one on either
side; then, if `P`, they have printed the same if both of them end. -/
inductive EndAlike {ε ε' α β : Type} (P : Prop)
    (A : α → Session → β → Session → Prop) :
    Option (Except ε α × Session) → Option (Except ε' β × Session) → Prop where
  | answers {a : α} {s : Session} {b : β} {t : Session} (h : A a s b t) :
      EndAlike P A (some (.ok a, s)) (some (.ok b, t))
  | none {x : Option (Except ε α × Session)}
      {y : Option (Except ε' β × Session)} (hx : ∀ a s, x ≠ some (.ok a, s))
      (hy : ∀ b t, y ≠ some (.ok b, t))
      (hprinted : P → ∀ out s out' t, x = some (out, s) → y = some (out', t) →
        s.store.printed = t.store.printed) : EndAlike P A x y

namespace EndAlike

variable {ε α β γ δ : Type} {P : Prop} {A : α → Session → β → Session → Prop}
  {B : γ → Session → δ → Session → Prop} {s t : Session}
  {r : ExceptT ε (StateT Session Option) α}
  {r' : ExceptT ε (StateT Session Option) β}

/-- Neither run ends. -/
lemma neither {ε' : Type} : EndAlike P A
    (Option.none : Option (Except ε α × Session))
    (Option.none : Option (Except ε' β × Session)) := by
  refine .none (fun a s h => ?_) (fun b t h => ?_) fun _ out s out' t h => ?_ <;>
    cases h

/-- What ends behind a run that has no answer has ended in that run. -/
lemma bind_inv_of_ne_ok {k : α → ExceptT ε (StateT Session Option) γ}
    (hr : ∀ a s', r s ≠ some (.ok a, s')) {out : Except ε γ} {s' : Session}
    (h : (r >>= k) s = some (out, s')) :
    ∃ f, out = .error f ∧ r s = some (.error f, s') := by
  rcases bind_inv h with hfault | ⟨a, s₁, ha, -⟩
  · exact hfault
  · exact absurd ha (hr a s₁)

/-- Runs in a row. -/
lemma bind {k : α → ExceptT ε (StateT Session Option) γ}
    {k' : β → ExceptT ε (StateT Session Option) δ}
    (h : EndAlike P A (r s) (r' t))
    (hk : ∀ a s' b t', r s = some (.ok a, s') → r' t = some (.ok b, t') →
      A a s' b t' → EndAlike P B (k a s') (k' b t')) :
    EndAlike P B ((r >>= k) s) ((r' >>= k') t) := by
  generalize hx : r s = x, hy : r' t = y at h
  cases h with
  | answers h =>
      rw [bind_ok hx, bind_ok hy]
      exact hk _ _ _ _ hx hy h
  | none hr hr' hprinted =>
      subst hx hy
      refine .none (fun c s' h => ?_) (fun d t' h => ?_)
        fun hP out s' out' t' h h' => ?_
      · obtain ⟨f, hf, -⟩ := bind_inv_of_ne_ok hr h
        cases hf
      · obtain ⟨f, hf, -⟩ := bind_inv_of_ne_ok hr' h
        cases hf
      · obtain ⟨f, -, hf⟩ := bind_inv_of_ne_ok hr h
        obtain ⟨g, -, hg⟩ := bind_inv_of_ne_ok hr' h'
        exact hprinted hP _ _ _ _ hf hg

/-- Runs side by side end alike. -/
lemma of_parallel {A : Renaming → α → β → Prop}
    (h : Parallel (Session.Renamed p q) (fun _ _ => True) A ρ r r')
    (hs : s.Renamed p q ρ t) (hpq : P → p = q) :
    EndAlike P (fun a s' b t' => ∃ ρ', ρ ≤ ρ' ∧ s'.Renamed p q ρ' t' ∧
      A ρ' a b) (r s) (r' t) := by
  have hends := h s t hs
  generalize r s = x, r' t = y at hends
  cases hends with
  | none => exact .neither
  | @some x y hends =>
      obtain ⟨out, s'⟩ := x
      obtain ⟨out', t'⟩ := y
      obtain ⟨ρ', hρ, hs', hout⟩ := hends
      cases hout with
      | ok hab => exact .answers ⟨ρ', hρ, hs', hab⟩
      | error _ =>
          refine .none nofun nofun fun hP _ _ _ _ => ?_
          rintro ⟨⟩ ⟨⟩
          obtain ⟨texts, hx, hy⟩ := hs'.store.printed
          exact hx.trans (hpq hP ▸ hy.symm)

end EndAlike

/-! ### Definitions in another order -/

/-- Statements of two programs in two sessions that are the same: they are equal
without places, but for the order of function definitions that stand behind each
other under distinct names; and, if `P`, both sessions have printed the same. -/
inductive Expanded (P : Prop) (ρ : Renaming) :
    List Node → Session → List Node → Session → Prop where
  | mk {p q : Array String} {ρ' : Renaming} {pre pre' post post' : List Node}
      {ds ds' : List FunctionDefinition} {s t : Session} (hρ : ρ ≤ ρ')
      (hpre : pre.map Node.bare = pre'.map Node.bare)
      (hperm : (ds.map content).Perm (ds'.map content))
      (hnames : (ds.map fun d => d.name.text).Nodup)
      (hpost : post.map Node.bare = post'.map Node.bare)
      (hsessions : s.Renamed p q ρ' t)
      (hprogram : ρ'.frames.pair s.program t.program) (hprinted : P → p = q) :
      Expanded P ρ (pre ++ (ds.map node ++ post)) s
        (pre' ++ (ds'.map node ++ post')) t

/-- More statements before them. -/
lemma Expanded.append {P : Prop} {ρ ρ' : Renaming} {ss ss' ks ks' : List Node}
    {s t : Session} (h : Expanded P ρ' ss s ss' t) (hρ : ρ ≤ ρ')
    (hks : ks.map Node.bare = ks'.map Node.bare) :
    Expanded P ρ (ks ++ ss) s (ks' ++ ss') t := by
  cases h with
  | mk hρ' hpre hperm hnames hpost hsessions hprogram hprinted =>
      rw [← List.append_assoc, ← List.append_assoc ks']
      refine .mk (hρ.trans hρ') ?_ hperm hnames hpost hsessions hprogram
        hprinted
      rw [List.map_append, List.map_append, hks, hpre]

/-- Function definitions are expanded to such definitions. -/
lemma exists_definitions {s s' : Session} {ds : List FunctionDefinition}
    {ks : List Node}
    (h : Node.transformList (Expanding.expandNode depth) (ds.map node) s =
      some (.ok ks, s')) :
    ∃ es : List FunctionDefinition, ks = es.map node ∧
      es.map (·.name) = ds.map (·.name) := by
  induction ds generalizing ks s with
  | nil =>
      cases h
      exact ⟨[], rfl, rfl⟩
  | cons d ds ih =>
      obtain ⟨k, ks, s₁, rfl, hk, hks⟩ := Node.transformList_cons_inv h
      obtain ⟨w, s₂, hw, rfl⟩ := Expanding.letStmt_of_expandAll hk
      obtain ⟨ps, b, rfl⟩ := Expanding.function_of_expandAll hw
      obtain ⟨es, rfl, hes⟩ := ih hks
      exact ⟨⟨d.key, d.name, d.literal, ps, b⟩ :: es, rfl,
        congrArg (d.name :: ·) hes⟩

section

variable {P : Prop} {s t : Session} {pre pre' post post' : List Node}
  {ds ds' : List FunctionDefinition}

/-- Definitions in another order are expanded alike. -/
lemma endAlike_definitions (h : s.Renamed p q ρ t) (hs : s.Grows s)
    (ht : t.Grows t)
    (hperm : (ds.map fun d => d.node.bare).Perm
      (ds'.map fun d => d.node.bare))
    (hsilent : P → (∀ d ∈ ds, s.ExpandsSilently depth d.node) ∧
      s.store.printed = t.store.printed) :
    EndAlike P (fun ks s' ls t' => ∃ es es' : List FunctionDefinition,
        ks = es.map node ∧ ls = es'.map node ∧
        es.map (·.name) = ds.map (·.name) ∧
        (es.map content).Perm (es'.map content) ∧
        (P → s'.store.printed = t'.store.printed))
      (Node.transformList (Expanding.expandNode depth) (ds.map node) s)
      (Node.transformList (Expanding.expandNode depth) (ds'.map node) t) := by
  have hself : s.Renamed #[] #[] s.store.identity s :=
    ⟨hs.whole.store, rfl, hs.whole.macros⟩
  -- the definitions of the first program in the order of the second one
  obtain ⟨cs, hcs, hbare⟩ : ∃ cs : List Node, cs.Perm (ds.map node) ∧
      (ds'.map node).map Node.bare = cs.map Node.bare := by
    refine exists_perm_of_map ?_
    rw [List.map_map, List.map_map]
    exact hperm.symm
  have hprinted : P → ∀ out s' out' t',
      Node.transformList (Expanding.expandNode depth) (ds.map node) s =
        some (out, s') →
      Node.transformList (Expanding.expandNode depth) (ds'.map node) t =
        some (out', t') → s'.store.printed = t'.store.printed := by
    intro hP out s' out' t' hrun hrun'
    obtain ⟨hsilent, hsame⟩ := hsilent hP
    have hnodes : ∀ n ∈ ds.map node, s.ExpandsSilently depth n := by
      intro n hn
      obtain ⟨d, hd, rfl⟩ := List.mem_map.mp hn
      exact hsilent d hd
    rw [printed_transformList hself hs hnodes rfl hs hrun, hsame,
      printed_transformList h hs (fun n hn => hnodes n (hcs.mem_iff.mp hn))
        hbare.symm ht hrun']
  by_cases hall : ∃ ks, Forall₂ (s.ExpandsTo depth) (ds.map node) ks
  · obtain ⟨ks, hks⟩ := hall
    obtain ⟨ls, hls, hlsks⟩ := expandsTo_perm hks hcs
    obtain ⟨ks', s', hrun, hks'⟩ :=
      exists_transformList hself hs hks rfl hs
    obtain ⟨ls', t', hrun', hls'⟩ :=
      exists_transformList h hs hls hbare.symm ht
    obtain ⟨es, rfl, hes⟩ := exists_definitions hrun
    obtain ⟨es', rfl, -⟩ := exists_definitions hrun'
    have hcontent : (es.map content).Perm (es'.map content) := by
      refine perm_content ?_
      have hnodes := (hlsks.map Node.bare).symm
      rw [hks', hls', List.map_map, List.map_map] at hnodes
      exact hnodes
    rw [hrun, hrun']
    exact .answers ⟨es, es', rfl, rfl, hes, hcontent,
      fun hP => hprinted hP _ _ _ _ hrun hrun'⟩
  · refine .none (fun ks s' hrun => hall ?_) (fun ls t' hrun => hall ?_)
      hprinted
    · exact exists_expandsTo hself hs rfl hs hrun
    · obtain ⟨ls, hls⟩ := exists_expandsTo h hs hbare.symm ht hrun
      obtain ⟨ks, hks, -⟩ := expandsTo_perm hls hcs.symm
      exact ⟨ks, hks⟩

/-- So are they with statements behind them. -/
lemma endAlike_definitions_append (h : s.Renamed p q ρ t) (hs : s.Grows s)
    (ht : t.Grows t) (hprogram : ρ.frames.pair s.program t.program)
    (hperm : (ds.map fun d => d.node.bare).Perm
      (ds'.map fun d => d.node.bare))
    (hnames : (ds.map fun d => d.name.text).Nodup)
    (hpost : post.map Node.bare = post'.map Node.bare)
    (hsilent : P → (∀ d ∈ ds, s.ExpandsSilently depth d.node) ∧
      s.store.printed = t.store.printed) :
    EndAlike P (Expanded P ρ)
      (Node.transformList (Expanding.expandNode depth) (ds.map node ++ post) s)
      (Node.transformList (Expanding.expandNode depth) (ds'.map node ++ post')
        t) := by
  rw [Node.transformList_append, Node.transformList_append]
  -- the definitions come in another order, the statements behind them in the
  -- same one, as far as sessions go that are alike
  refine (endAlike_definitions h hs ht hperm hsilent).bind ?_
  rintro _ s₁ _ t₁ hrun hrun'
    ⟨es, es', rfl, rfl, hes, hcontent, hprinted⟩
  have hs₁ := hs.transformList hrun
  have ht₁ := ht.transformList hrun'
  refine (EndAlike.of_parallel (Parallel.transformList
    (forall₂_map_eq.mpr hpost) fun _ _ _ hn _ _ =>
      Expanding.expandAll_renamed hn) (hs₁.renamed h ht₁) hprinted).bind ?_
  rintro ks s₂ ls t₂ hrun₂ hrun₂' ⟨ρ', hρ, h₂, hbare⟩
  have hs₂ := hs₁.transformList hrun₂
  have ht₂ := ht₁.transformList hrun₂'
  have hnothing : ([] : List Node).map Node.bare =
      ([] : List Node).map Node.bare := rfl
  refine .answers (.mk hρ hnothing hcontent ?_ hbare h₂ ?_ hprinted)
  · have hnames' : es.map (fun d => d.name.text) =
        ds.map fun d => d.name.text := by
      have htexts := congrArg (List.map Token.text) hes
      rwa [List.map_map, List.map_map] at htexts
    rw [hnames']
    exact hnames
  · rw [hs₂.program, ht₂.program]
    exact hρ.1 _ _ hprogram

/-- **Expansion in another order.**  In sessions that are the same programs that
differ in the order of function definitions are expanded to such programs, or
neither is. -/
theorem endAlike_expanded (h : s.Renamed #[] #[] ρ t) (hs : s.Grows s)
    (ht : t.Grows t) (hprogram : ρ.frames.pair s.program t.program)
    (hpre : pre.map Node.bare = pre'.map Node.bare)
    (hperm : (ds.map fun d => d.node.bare).Perm
      (ds'.map fun d => d.node.bare))
    (hnames : (ds.map fun d => d.name.text).Nodup)
    (hpost : post.map Node.bare = post'.map Node.bare)
    (hsilent : P → ∀ m u,
      Expanding.expandAll depth (.program pre) s = some (.ok m, u) →
        ∀ d ∈ ds, u.ExpandsSilently depth d.node) :
    EndAlike P (Expanded P ρ)
      (Node.transformList (Expanding.expandNode depth)
        (pre ++ (ds.map node ++ post)) s)
      (Node.transformList (Expanding.expandNode depth)
        (pre' ++ (ds'.map node ++ post')) t) := by
  rw [Node.transformList_append pre, Node.transformList_append pre']
  -- what stands in front is the same in both, so that the sessions are still
  -- alike where the definitions are expanded
  refine (EndAlike.of_parallel (Parallel.transformList
    (forall₂_map_eq.mpr hpre) fun _ _ _ hn _ _ =>
      Expanding.expandAll_renamed hn) h fun _ => rfl).bind ?_
  rintro ks s₁ ls t₁ hrun hrun' ⟨ρ₁, hρ₁, h₁, hbare⟩
  have hs₁ := hs.transformList hrun
  have ht₁ := ht.transformList hrun'
  have hprogram₁ : ρ₁.frames.pair s₁.program t₁.program := by
    rw [hs₁.program, ht₁.program]
    exact hρ₁.1 _ _ hprogram
  refine (endAlike_definitions_append h₁ (.refl hs₁.whole hs₁.apart)
    (.refl ht₁.whole ht₁.apart) hprogram₁ hperm hnames hpost fun hP =>
      ⟨?_, ?_⟩).bind ?_
  · refine hsilent hP (.program ks) s₁ ?_
    rw [Expanding.expandAll_statements]
    exact bind_ok hrun
  · obtain ⟨texts, hprinted, hprinted'⟩ := h₁.store.printed
    exact hprinted.trans hprinted'.symm
  · rintro ms s₂ ms' t₂ - - hms
    exact .answers (hms.append hρ₁ hbare)

end

/-! ### Inputs -/

section

variable {s s' t : Session} {a : String} {n : Node} {ss : List Node}

/-- The evaluation of an input without faults ends with a macro that fails, or as
the expanded statements are evaluated. -/
lemma evaluate_inv_statements (ha : parsed a s.tracing = .ok n)
    (hn : n.remainder = .program ss) {out : Except Failure (Option Value)}
    (h : s.evaluate depth a = some (out, s')) :
    (∃ f, Node.transformList (Expanding.expandNode depth) ss
        (s.prepared a n) = some (.error f, s') ∧ out = .error (.expansion f)) ∨
    ∃ ks t, Node.transformList (Expanding.expandNode depth) ss
      (s.prepared a n) = some (.ok ks, t) := by
  have hexpand : ∀ {x : Except MacroFault Node} {t},
      Expanding.expandAll depth n.remainder (s.prepared a n) = some (x, t) →
      (∃ f, Node.transformList (Expanding.expandNode depth) ss
        (s.prepared a n) = some (.error f, t) ∧ x = .error f) ∨
      ∃ ks t, Node.transformList (Expanding.expandNode depth) ss
        (s.prepared a n) = some (.ok ks, t) := by
    intro x t hrun
    rw [hn, Expanding.expandAll_statements] at hrun
    rcases bind_inv hrun with ⟨f, rfl, hf⟩ | ⟨ks, t, hks, -⟩
    · exact Or.inl ⟨f, hf, rfl⟩
    · exact Or.inr ⟨ks, t, hks⟩
  rcases evaluate_inv h with ⟨f, hrun, rfl⟩ | ⟨k, t, -, -, hrun, -⟩
  · rcases expand_inv hrun with ⟨g, hg, -⟩ | ⟨m, x, hm, hx, hout⟩
    · cases ha.symm.trans hg
    · cases ha.symm.trans hm
      rcases hexpand hx with ⟨g, hg, rfl⟩ | hks
      · cases hout
        exact Or.inl ⟨g, hg, rfl⟩
      · exact Or.inr hks
  · rcases hexpand (expandAll_of_expand ha hrun) with ⟨g, -, hg⟩ | hks
    · cases hg
    · exact Or.inr hks

/-- Such an input is expanded to what its statements are expanded to. -/
lemma expand_of_statements (ha : parsed a s.tracing = .ok n)
    (hn : n.remainder = .program ss) {ks : List Node}
    (hks : Node.transformList (Expanding.expandNode depth) ss
      (s.prepared a n) = some (.ok ks, t)) :
    s.expand depth a = some (.ok (.program ks), t) := by
  have hrun : Expanding.expandAll depth n.remainder (s.prepared a n) =
      some (.ok (.program ks), t) := by
    rw [hn, Expanding.expandAll_statements]
    exact bind_ok hks
  rw [expand_of_parsed ha, expandProgram, hrun]
  rfl

end

/-- Values, and the sessions that they are given in, are the same behind a third
session: but for places in trees, for the numbers of the frames and closures that
were made since, and for the order of the bindings in each frame.  The same was
printed behind `s₀` on one side and behind `t₀` on the other. -/
def SameButOrder (s s₀ t₀ : Session) (x y : Option Value × Session) : Prop :=
  ∃ ρ : Renaming, s.store.identity ≤ ρ ∧
    Option.Rel (Value.Renamed ρ) x.1 y.1 ∧
    ρ.frames.pair x.2.program y.2.program ∧
    ρ.frames.pair x.2.macros y.2.macros ∧
    x.2.store.Reordered s₀.store.printed t₀.store.printed ρ y.2.store

/-- Inputs that are expanded to programs that differ in the order of function
definitions end alike. -/
lemma endAlike_evaluate {P : Prop} {s : Session} {a b : String} {n n' : Node}
    {ss ss' : List Node} (hρ : s.store.identity ≤ ρ)
    (ha : parsed a s.tracing = .ok n) (hb : parsed b s.tracing = .ok n')
    (hn : n.remainder = .program ss) (hn' : n'.remainder = .program ss')
    (h : EndAlike P (Expanded P ρ)
      (Node.transformList (Expanding.expandNode depth) ss (s.prepared a n))
      (Node.transformList (Expanding.expandNode depth) ss'
        (s.prepared b n'))) :
    EndAlike P (fun v? t w? u =>
        (∃ k s₀ l t₀, s.expand depth a = some (.ok k, s₀) ∧
          s.expand depth b = some (.ok l, t₀) ∧
          s.SameButOrder s₀ t₀ (v?, t) (w?, u)) ∧
        (P → t.store.printed = u.store.printed))
      (s.evaluate depth a) (s.evaluate depth b) := by
  generalize hx : Node.transformList (Expanding.expandNode depth) ss _ = x,
    hy : Node.transformList (Expanding.expandNode depth) ss' _ = y at h
  -- both expansions have trees, whose evaluations are alike by the theorem for
  -- such programs, or neither has one
  cases h with
  | @answers ks t ls u h =>
      have hexpand := expand_of_statements ha hn hx
      have hexpand' := expand_of_statements hb hn' hy
      rw [evaluate_of_expand hexpand, evaluate_of_expand hexpand']
      cases h with
      | @mk p q ρ' pre pre' post post' ds ds' _ _ hρ' hpre hperm hnames hpost
          hsessions hprogram hprinted =>
          -- what was printed so far may differ; from here on it is the same
          have hstore : t.store.Renamed t.store.printed u.store.printed ρ'
              u.store := { hsessions.store with
            printed := ⟨#[], by simp, by simp⟩ }
          have hends := eval_definitions_renamed hperm hnames depth hprogram
            hpre hpost t.store u.store ⟨_, hstore, .refl _⟩
          rw [evaluateIn, evaluateIn]
          generalize eval depth (.program (pre ++ _)) _ _ = v,
            eval depth (.program (pre' ++ _)) _ _ = w at hends
          cases hends with
          | none => exact .neither
          | some hends =>
              obtain ⟨ρ'', hρ'', hstores, hout⟩ := hends
              refine .answers ⟨⟨_, t, _, u, hexpand, hexpand', ρ'',
                hρ.trans (hρ'.trans hρ''), resultOf_renamed hout,
                hρ''.1 _ _ hprogram, hρ''.1 _ _ hsessions.macros, hstores⟩,
                fun hP => ?_⟩
              obtain ⟨texts, ht, hu⟩ := hsessions.store.printed
              obtain ⟨v, hv, hw⟩ := hstores
              obtain ⟨texts', hx, hy⟩ := hv.printed
              rw [hw.printed, hx, hy, ht, hu, hprinted hP]
  | none hx' hy' hprinted =>
      subst hx hy
      refine .none (fun v? t hrun => ?_) (fun w? u hrun => ?_)
        fun hP out t out' u hrun hrun' => ?_
      · rcases evaluate_inv_statements ha hn hrun with
          ⟨f, -, hf⟩ | ⟨ks, t, hks⟩
        · cases hf
        · exact hx' ks t hks
      · rcases evaluate_inv_statements hb hn' hrun with
          ⟨f, -, hf⟩ | ⟨ks, t, hks⟩
        · cases hf
        · exact hy' ks t hks
      · rcases evaluate_inv_statements ha hn hrun with
          ⟨f, hf, -⟩ | ⟨ks, t, hks⟩
        · rcases evaluate_inv_statements hb hn' hrun' with
            ⟨g, hg, -⟩ | ⟨ks, t, hks⟩
          · exact hprinted hP _ _ _ _ hf hg
          · exact absurd hks (hy' ks t)
        · exact absurd hks (hx' ks t)

section

variable (pre post : List Node) (ds : List FunctionDefinition)

/-- A function definition defines no macro. -/
lemma definitions_around :
    (Node.program (pre ++ (ds.map node ++ post))).definitions =
      (Node.program (pre ++ post)).definitions := by
  have hnone : (ds.map node).filterMap Node.macroDefinition? = [] := by
    rw [List.filterMap_map]
    exact List.filterMap_eq_nil_iff.mpr fun _ _ => rfl
  simp only [Node.definitions, List.filterMap_append, hnone, List.nil_append]

/-- So it is left. -/
lemma remainder_around :
    (Node.program (pre ++ (ds.map node ++ post))).remainder =
      .program ((pre.filter fun n => n.macroDefinition?.isNone) ++
        (ds.map node ++ post.filter fun n => n.macroDefinition?.isNone)) := by
  have hall : (ds.map node).filter (fun n => n.macroDefinition?.isNone) =
      ds.map node := by
    rw [List.filter_map]
    exact congrArg (List.map node) (List.filter_eq_self.mpr fun _ _ => rfl)
  rw [Node.remainder, List.filter_append, List.filter_append, hall]

/-- Once the statements `pre` of an input are expanded, nothing is printed when
one of the function definitions `ds` behind them is. -/
def DefinesSilently (depth : ℕ) (source : String) (s : Session) : Prop :=
  ∀ m t, Expanding.expandAll depth (Node.program pre).remainder
      (s.prepared source (.program (pre ++ (ds.map node ++ post)))) =
        some (.ok m, t) →
    ∀ d ∈ ds, t.ExpandsSilently depth d.node

instance (source : String) (s : Session) :
    Decidable (s.DefinesSilently pre post ds depth source) :=
  decidable_of_iff
    (∀ x ∈ Expanding.expandAll depth (Node.program pre).remainder
        (s.prepared source (.program (pre ++ (ds.map node ++ post)))),
      x.1.isOk → ∀ d ∈ ds, x.2.ExpandsSilently depth d.node) <| by
    refine ⟨fun h m t hrun => h _ hrun rfl, fun h x hrun hok => ?_⟩
    obtain ⟨⟨f⟩ | ⟨m⟩, t⟩ := x
    · cases hok
    · exact h m t hrun

end

/-- Two inputs without faults that differ in the places of tokens and in the
order of the function definitions `ds`, which stand behind each other between
`pre` and `post` and have distinct names. -/
inductive Rearranged (tracing : Bool) (pre post : List Node)
    (ds : List FunctionDefinition) (a b : String) : Prop where
  | intro {pre' post' : List Node} {ds' : List FunctionDefinition}
      (ha : parsed a tracing = .ok (.program (pre ++ (ds.map node ++ post))))
      (hb : parsed b tracing =
        .ok (.program (pre' ++ (ds'.map node ++ post'))))
      (hpre : pre.map Node.bare = pre'.map Node.bare)
      (hperm : (ds.map fun d => d.node.bare).Perm
        (ds'.map fun d => d.node.bare))
      (hnames : (ds.map fun d => d.name.text).Nodup)
      (hpost : post.map Node.bare = post'.map Node.bare)

/-! ### The test for two definitions -/

/-- The statements of an input that is a statement, two function definitions and
other statements. -/
def pairOfDefinitions? (source : String) :
    Option (Node × FunctionDefinition × FunctionDefinition × List Node) :=
  match parsed source false with
  | .ok (.program (n :: m :: k :: post)) =>
      match ofNode? m, ofNode? k with
      | some d, some e => some (n, d, e, post)
      | _, _ => none
  | _ => none

lemma parsed_of_pairOfDefinitions? {source : String} {n : Node}
    {d e : FunctionDefinition} {post : List Node}
    (h : pairOfDefinitions? source = some (n, d, e, post)) :
    parsed source false =
      .ok (.program ([n] ++ ([d, e].map node ++ post))) := by
  unfold pairOfDefinitions? at h
  split at h
  · next hparsed =>
    split at h
    · next hd he =>
      cases h
      rw [hparsed, eq_node_of_ofNode? hd, eq_node_of_ofNode? he]
      rfl
    · cases h
  · cases h

/-- Whether two inputs are that, the one with the definitions in the other
order. -/
def exchanges (a b : String) : Bool :=
  match pairOfDefinitions? a, pairOfDefinitions? b with
  | some (n, d, e, post), some (n', e', d', post') =>
      n.alike n' && d.node.alike d'.node && e.node.alike e'.node &&
        Node.alikeList post post' && d.name.text != e.name.text
  | _, _ => false

lemma Rearranged.of_exchanges {a b : String} (h : exchanges a b = true) :
    ∃ n d e post, pairOfDefinitions? a = some (n, d, e, post) ∧
      Rearranged false [n] post [d, e] a b := by
  unfold exchanges at h
  split at h
  · next n d e post n' e' d' post' ha hb =>
    simp only [Bool.and_eq_true, bne_iff_ne, Node.alike_iff,
      Node.alikeList_iff fun n _ => Node.alike_iff n, Node.bareList_eq_map] at h
    obtain ⟨⟨⟨⟨hn, hd⟩, he⟩, hpost⟩, hnames⟩ := h
    refine ⟨n, d, e, post, ha, .intro (parsed_of_pairOfDefinitions? ha)
      (parsed_of_pairOfDefinitions? hb) (congrArg ([·]) hn) ?_ ?_ hpost⟩
    · simp only [List.map_cons, List.map_nil, hd, he]
      exact .swap _ _ _
    · simpa using hnames
  · cases h

/-- What a run ends with, where it is known that it gives a value. -/
lemma exists_of_ends {x : Option (Except Failure (Option Value) × Session)}
    {texts : Array String}
    (h : (x.map fun x => (x.1.isOk, x.2.store.printed)) = some (true, texts)) :
    ∃ v? t, x = some (.ok v?, t) ∧ t.store.printed = texts := by
  obtain ⟨⟨⟨f⟩ | ⟨v?⟩, t⟩, rfl, hend⟩ := Option.map_eq_some_iff.mp h
  · cases congrArg Prod.fst hend
  · exact ⟨v?, t, rfl, congrArg Prod.snd hend⟩

/-! ### The theorem -/

/-- **The order of definitions.**  Let two inputs differ in the order of function
definitions that stand behind each other under distinct names.  If one of them
has a value, so has the other one: the values, the bindings of the program and
the macros are the same, but for the numbers of frames and closures and for the
order of bindings, and so is what both print once they are expanded.  And all
that they print is the same if nothing is printed when the calls of macros in
these definitions are expanded. -/
theorem Led.definitions_perm {s : Session} (hs : Led (fun _ _ _ _ => True) s)
    {a b : String} {pre post : List Node} {ds : List FunctionDefinition}
    (hab : Rearranged s.tracing pre post ds a b) (depth : ℕ) :
    (∀ v? t, s.evaluate depth a = some (.ok v?, t) →
      ∃ k s₀ l t₀ w? u, s.expand depth a = some (.ok k, s₀) ∧
        s.expand depth b = some (.ok l, t₀) ∧
        s.evaluate depth b = some (.ok w?, u) ∧
        s.SameButOrder s₀ t₀ (v?, t) (w?, u)) ∧
    (∀ w? u, s.evaluate depth b = some (.ok w?, u) →
      ∃ v? t, s.evaluate depth a = some (.ok v?, t)) ∧
    (s.DefinesSilently pre post ds depth a → ∀ out t out' u,
      s.evaluate depth a = some (out, t) →
      s.evaluate depth b = some (out', u) →
        t.store.printed = u.store.printed) := by
  obtain @⟨pre', post', ds', ha, hb, hpre, hperm, hnames, hpost⟩ := hab
  -- the definitions of macros are the same in both inputs, so that sessions
  -- have the same macros when expansion begins
  have hdefinitions : (Node.program (pre ++ post)).definitions.map
      (fun d => (d.1, d.2.1.map Node.bare, d.2.2.bare)) =
        (Node.program (pre' ++ post')).definitions.map
          fun d => (d.1, d.2.1.map Node.bare, d.2.2.bare) :=
    Node.definitions_bare (by
      rw [List.map_append, List.map_append, hpre, hpost])
  rw [← definitions_around pre post ds, ← definitions_around pre' post' ds']
    at hdefinitions
  obtain ⟨ρ, hρ, h⟩ := hs.whole.prepared_renamed a b hdefinitions
  obtain ⟨hapart, hprogram, -⟩ := hs.apart.prepared a
    (.program (pre ++ (ds.map node ++ post)))
  obtain ⟨hapart', hprogram', -⟩ := hs.apart.prepared b
    (.program (pre' ++ (ds'.map node ++ post')))
  have hpair : ρ.frames.pair
      (s.prepared a (.program (pre ++ (ds.map node ++ post)))).program
      (s.prepared b (.program (pre' ++ (ds'.map node ++ post')))).program := by
    rw [hprogram, hprogram']
    exact hρ.1 _ _ ⟨rfl, hs.whole.program⟩
  -- expansion and evaluation in a row; the store at first is related to itself
  have hends := endAlike_evaluate hρ ha hb (remainder_around pre post ds)
    (remainder_around pre' post' ds') (endAlike_expanded
      (P := s.DefinesSilently pre post ds depth a) h
      (.refl (hs.whole.prepared a _).1 hapart)
      (.refl (hs.whole.prepared b _).1 hapart') hpair
      (Node.kept_bare hpre) hperm hnames (Node.kept_bare hpost) id)
  generalize s.evaluate depth a = x, s.evaluate depth b = y at hends
  cases hends with
  | answers h =>
      refine ⟨?_, ?_, fun hP => ?_⟩
      · rintro _ _ ⟨⟩
        obtain ⟨⟨k, s₀, l, t₀, hk, hl, hsame⟩, -⟩ := h
        exact ⟨k, s₀, l, t₀, _, _, hk, hl, rfl, hsame⟩
      · rintro _ _ ⟨⟩
        exact ⟨_, _, rfl⟩
      · rintro _ _ _ _ ⟨⟩ ⟨⟩
        exact h.2 hP
  | none hx hy hprinted =>
      exact ⟨fun v? t h => absurd h (hx v? t), fun w? u h => absurd h (hy w? u),
        hprinted⟩

/-- The definitions `f` and `g` behind one of the macro `m`, which makes a
negation, and a call of `f`. -/
def negating (f g : String) : String :=
  "let m = macro(a) \x7b quote(!unquote(a)) \x7d; " ++ f ++ g ++ "puts(f(true)); g"

/-- A function that calls `g` with what `m` makes. -/
def callsG : String :=
  "let f = fn(n) \x7b if (n) \x7b g(m(n)) \x7d else \x7b n \x7d \x7d; "

/-- A function that calls `f`. -/
def callsF : String := "let g = fn(n) \x7b f(n) \x7d; "

/-- Two functions that call each other, one of them by means of a macro, in both
orders. -/
theorem Led.definitions_perm_negating : ∃ k s₀ l t₀ v? t w? u,
    (Session.start false).expand 20 (negating callsG callsF) =
      some (.ok k, s₀) ∧
    (Session.start false).expand 20 (negating callsF callsG) =
      some (.ok l, t₀) ∧
    (Session.start false).evaluate 20 (negating callsG callsF) =
      some (.ok v?, t) ∧
    (Session.start false).evaluate 20 (negating callsF callsG) =
      some (.ok w?, u) ∧
    (Session.start false).SameButOrder s₀ t₀ (v?, t) (w?, u) ∧
    t.store.printed = #["false"] ∧ u.store.printed = #["false"] := by
  obtain ⟨n, d, e, post, hparts, hrearranged⟩ :=
    Rearranged.of_exchanges (a := negating callsG callsF)
      (b := negating callsF callsG) (by decide +kernel)
  have hsilent : (Session.start false).DefinesSilently [n] post [d, e] 20
      (negating callsG callsF) := by
    have hparts' : ∀ x ∈ pairOfDefinitions? (negating callsG callsF),
        (Session.start false).DefinesSilently [x.1] x.2.2.2 [x.2.1, x.2.2.1] 20
          (negating callsG callsF) := by decide +kernel
    exact hparts' _ hparts
  obtain ⟨v?, t, hrun, hprinted⟩ : ∃ v? t,
      (Session.start false).evaluate 20 (negating callsG callsF) =
        some (.ok v?, t) ∧ t.store.printed = #["false"] :=
    exists_of_ends (by decide +kernel)
  obtain ⟨hvalue, -, hsame⟩ :=
    Led.definitions_perm (.start false) hrearranged 20
  obtain ⟨k, s₀, l, t₀, w?, u, hk, hl, hrun', hvw⟩ := hvalue v? t hrun
  exact ⟨k, s₀, l, t₀, v?, t, w?, u, hk, hl, hrun, hrun', hvw, hprinted,
    (hsame hsilent _ _ _ _ hrun hrun').symm.trans hprinted⟩

/-- The definitions `f` and `g` behind one of the macro `m`, which prints what is
handed to it. -/
def showing (f g : String) : String :=
  "let m = macro(a) \x7b puts(a); quote(unquote(a)) \x7d; " ++ f ++ g ++ "0"

/-- A function that the macro is called in. -/
def showsOne : String := "let f = fn() \x7b m(1) \x7d; "

/-- Another one. -/
def showsTwo : String := "let g = fn() \x7b m(2) \x7d; "

/-- A macro is called where the calls of it stand, and may print: then the order
of the definitions that they stand in shows. -/
theorem definitions_perm_prints :
    (∃ n d e post, Rearranged false [n] post [d, e] (showing showsOne showsTwo)
      (showing showsTwo showsOne)) ∧
    ∃ v? t w? u,
      (Session.start false).evaluate 20 (showing showsOne showsTwo) =
        some (.ok v?, t) ∧
      (Session.start false).evaluate 20 (showing showsTwo showsOne) =
        some (.ok w?, u) ∧
      t.store.printed = #["QUOTE(1)", "QUOTE(2)"] ∧
      u.store.printed = #["QUOTE(2)", "QUOTE(1)"] := by
  obtain ⟨n, d, e, post, -, hrearranged⟩ :=
    Rearranged.of_exchanges (a := showing showsOne showsTwo)
      (b := showing showsTwo showsOne) (by decide +kernel)
  obtain ⟨v?, t, hrun, hprinted⟩ : ∃ v? t,
      (Session.start false).evaluate 20 (showing showsOne showsTwo) =
        some (.ok v?, t) ∧ t.store.printed = #["QUOTE(1)", "QUOTE(2)"] :=
    exists_of_ends (by decide +kernel)
  obtain ⟨w?, u, hrun', hprinted'⟩ : ∃ w? u,
      (Session.start false).evaluate 20 (showing showsTwo showsOne) =
        some (.ok w?, u) ∧ u.store.printed = #["QUOTE(2)", "QUOTE(1)"] :=
    exists_of_ends (by decide +kernel)
  exact ⟨⟨n, d, e, post, hrearranged⟩, v?, t, w?, u, hrun, hrun', hprinted,
    hprinted'⟩

end Session

end MonkeyLang

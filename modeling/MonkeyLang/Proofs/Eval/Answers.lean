/-
Steps are made of what they ask for.

* `bind_congr`: runs in a row that agree wherever they come to are the same;
* `operands_congr`, `sequence_congr`, `entries_congr`, `transformM_congr`:
  parts, statements, entries and changes of trees depend on nothing but the
  answers they come to;
* `Job.step_congr`: neither does a step, so that `Asks` names every job that a
  step comes to.
-/
import MonkeyLang.Proofs.Eval.Asks

namespace MonkeyLang

/-! ### Runs in a row -/

section

variable {σ ε α β : Type}

/-- Runs in a row are the same if the first ones are and the second ones
behind every answer. -/
lemma bind_congr {x y : ExceptT ε (StateT σ Option) α}
    {k l : α → ExceptT ε (StateT σ Option) β} {s : σ} (hx : x s = y s)
    (hk : ∀ a s', y s = some (.ok a, s') → k a s' = l a s') :
    (x >>= k) s = (y >>= l) s := by
  rcases hy : y s with _ | ⟨f | a, s'⟩
  · show (x s).bind _ = (y s).bind _
    rw [hx, hy]
    rfl
  · rw [bind_error (hx.trans hy), bind_error hy]
  · rw [bind_ok (hx.trans hy), bind_ok hy]
    exact hk a s' hy

namespace Node

variable {f g : Node → ExceptT ε (StateT σ Option) Node}

lemma transformList_congr {ns : List Node} {s : σ}
    (h : ∀ pre n post cs s', ns = pre ++ n :: post →
      transformList f pre s = some (.ok cs, s') →
      n.transformM g s' = n.transformM f s') :
    transformList g ns s = transformList f ns s := by
  induction ns generalizing s with
  | nil => rfl
  | cons n ns ih =>
      rw [transformList, transformList]
      refine bind_congr (h [] n ns [] s rfl rfl) fun c s₁ hc => ?_
      refine bind_congr (ih fun pre m post cs s₂ hns hpre => ?_)
        fun cs s₂ _ => rfl
      refine h (n :: pre) m post (c :: cs) s₂ (by rw [hns]; rfl) ?_
      rw [transformList, bind_ok hc, bind_ok hpre]
      rfl

/-- Rules that agree on whatever a change comes to make the same change. -/
lemma transformM_congr {n : Node} {s : σ}
    (h : ∀ m s', Comes f n s m s' → g m s' = f m s') :
    n.transformM g s = n.transformM f s := by
  induction n using Node.children_induct generalizing s with
  | step n ih =>
      by_cases hn : n = missing
      · rw [hn]
        rfl
      · rw [transformM_eq g hn, transformM_eq f hn]
        refine bind_congr (transformList_congr ?_) fun cs s' hcs =>
          h _ s' (.here hn hcs)
        intro pre c post cs s' hc hpre
        have hmem : c ∈ n.children := by
          rw [hc]
          exact List.mem_append_right _ List.mem_cons_self
        exact ih c hmem fun m s'' hm => h m s'' (.inside hc hpre hm)

end Node

end

/-! ### Parts, statements and entries -/

section

variable {rec rec' : Node → ℕ → Run (Option Value)} {e : ℕ} {s : Store}

lemma operand_congr {n : Node} (h : rec' n e s = rec n e s) :
    operand rec' e n s = operand rec e n s :=
  bind_congr h fun _ _ _ => rfl

lemma operands_congr {ns : List Node}
    (h : ∀ pre n post vs s', ns = pre ++ n :: post →
      operands rec e pre s = some (.ok vs, s') → rec' n e s' = rec n e s') :
    operands rec' e ns s = operands rec e ns s := by
  induction ns generalizing s with
  | nil => rfl
  | cons n ns ih =>
      rw [operands, operands]
      refine bind_congr (operand_congr (h [] n ns [] s rfl rfl))
        fun v s₁ hv => ?_
      refine bind_congr (ih fun pre m post vs s₂ hns hpre => ?_)
        fun vs s₂ _ => rfl
      refine h (n :: pre) m post (v :: vs) s₂ (by rw [hns]; rfl) ?_
      rw [operands, bind_ok hv, bind_ok hpre]
      rfl

lemma sequence_congr {ss : List Node} {v? : Option Value}
    (hv : ∀ v, v? ≠ some (.returned v))
    (h : ∀ pre n post last s', ss = pre ++ n :: post →
      sequence rec e v? pre s = some (.ok last, s') →
      (∀ v, last ≠ some (.returned v)) → rec' n e s' = rec n e s') :
    sequence rec' e v? ss s = sequence rec e v? ss s := by
  induction ss generalizing v? s with
  | nil => rfl
  | cons n ss ih =>
      rw [sequence, sequence]
      refine bind_congr (h [] n ss v? s rfl rfl hv) fun w? s₁ hw => ?_
      split
      · rfl
      · next hreturn =>
        refine ih hreturn fun pre m post last s₂ hss hpre hlast => ?_
        refine h (n :: pre) m post last s₂ (by rw [hss]; rfl) ?_ hlast
        rw [sequence, bind_ok hw]
        split
        · exact absurd rfl (hreturn _)
        · exact hpre

lemma entries_congr {ps : List (Node × Node)} {t : Table}
    (hkey : ∀ pre k v post u s', ps = pre ++ (k, v) :: post →
      entries rec e t pre s = some (.ok u, s') → rec' k e s' = rec k e s')
    (hvalue : ∀ pre k v post u key h s' s'', ps = pre ++ (k, v) :: post →
      entries rec e t pre s = some (.ok u, s') →
      operand rec e k s' = some (.ok key, s'') → key.hashKey = .ok h →
      rec' v e s'' = rec v e s'') :
    entries rec' e t ps s = entries rec e t ps s := by
  induction ps generalizing t s with
  | nil => rfl
  | cons p ps ih =>
      obtain ⟨k, v⟩ := p
      rw [entries, entries]
      refine bind_congr (operand_congr (hkey [] k v ps t s rfl rfl))
        fun key s₁ hk => bind_congr rfl fun hash s₂ hhash => ?_
      obtain ⟨hok, rfl⟩ := Run.ofExcept_inv hhash
      refine bind_congr (operand_congr
        (hvalue [] k v ps t key hash s s₁ rfl rfl hk hok)) fun value s₃ hv => ?_
      -- what the further entries start from is what this one leaves, so each
      -- hypothesis holds of them with this entry put in front
      have hpre : ∀ pre, entries rec e t ((k, v) :: pre) s =
          entries rec e (t.set hash (key, value)) pre s₃ := by
        intro pre
        rw [entries, bind_ok hk, bind_ok hhash, bind_ok hv]
      refine ih (fun pre k' v' post u s' hps hu => ?_)
        fun pre k' v' post u key' h' s' s'' hps hu hk' hkey' => ?_
      · exact hkey ((k, v) :: pre) k' v' post u s' (by rw [hps]; rfl)
          ((hpre pre).trans hu)
      · exact hvalue ((k, v) :: pre) k' v' post u key' h' s' s''
          (by rw [hps]; rfl) ((hpre pre).trans hu) hk' hkey'

end

/-! ### Steps -/

section

variable {rec rec' : Node → ℕ → Run (Option Value)} {e : ℕ} {s : Store}

lemma quoteWith_congr {n : Node}
    (h : ∀ u inner arg s', Node.Comes (replaceUnquote rec e) n s
        (.call u inner [arg]) s' →
      SpecialForm.ofCallee? inner = some .unquote →
      rec' arg e s' = rec arg e s') :
    quoteWith rec' e n s = quoteWith rec e n s := by
  refine Node.transformM_congr fun m s' hm => ?_
  rcases replaceUnquote_cases m with
    ⟨u, inner, arg, rfl, hinner, hrule⟩ | hrule
  · rw [hrule, hrule]
    exact bind_congr (h u inner arg s' hm hinner) fun _ _ _ => rfl
  · rw [hrule, hrule]

lemma callWith_congr {t : Token} {callee : Node} {args : List Node}
    (h : ∀ i s', Asks rec (.eval (.call t callee args) e) s i s' →
      i.answer rec' s' = i.answer rec s') :
    callWith rec' e callee args s = callWith rec e callee args s := by
  -- a call is a plain one, which asks for the callee, the arguments and the
  -- call itself, or a `quote`, or it asks for nothing
  rcases callWith_cases callee args with
    hplain | ⟨n, hquote, rfl⟩ | ⟨f, hfault⟩
  · have hparts : (Node.call t callee args).parts = callee :: args :=
      if_pos hplain
    rw [callWith_plain rec' e hplain, callWith_plain rec e hplain]
    refine bind_congr (operand_congr (h _ _ (.first hparts))) fun f s₁ hf => ?_
    refine bind_congr (operands_congr fun pre m post vs s₂ hargs hvs => ?_)
      fun vs s₂ hvs => h _ _ (.call hplain hf hvs)
    have hsplit : (Node.call t callee args).parts =
        (callee :: pre) ++ m :: post := by
      rw [hparts, hargs]
      rfl
    have hpre : operands rec e (callee :: pre) s =
        some (.ok (f :: vs), s₂) := by
      rw [operands, bind_ok hf, bind_ok hvs]
      rfl
    exact h _ _ (.part hsplit hpre)
  · rw [callWith_quote rec' e hquote, callWith_quote rec e hquote]
    exact bind_congr (quoteWith_congr fun u inner arg s' hm hinner =>
      h _ _ (.unquote hquote hm hinner)) fun _ _ _ => rfl
  · rw [hfault, hfault]

lemma evalWith_congr {n : Node}
    (h : ∀ i s', Asks rec (.eval n e) s i s' →
      i.answer rec' s' = i.answer rec s') :
    evalWith rec' n e s = evalWith rec n e s := by
  have hfirst : ∀ m post, n.parts = m :: post → rec' m e s = rec m e s :=
    fun m post hm => h _ _ (.first hm)
  have hstatements : sequence rec' e none n.statements s =
      sequence rec e none n.statements s :=
    sequence_congr (fun _ hv => by cases hv)
      fun pre m post last s' hss hpre hlast =>
        h _ _ (.statement hss hpre hlast)
  -- along each node what was asked for first has the same answer, so the same
  -- is asked for next
  cases n with
  | program ss => exact bind_congr hstatements fun _ _ _ => rfl
  | block t ss => exact hstatements
  | exprStmt t m => exact hfirst m [] rfl
  | returnStmt t m | letStmt t name m | prefixOp t m =>
      exact bind_congr (operand_congr (hfirst m [] rfl)) fun _ _ _ => rfl
  | infixOp t l r | index t l r =>
      refine bind_congr (operand_congr (hfirst l [r] rfl)) fun v s₁ hv => ?_
      exact bind_congr (operand_congr (h _ _ (.second rfl hv))) fun _ _ _ => rfl
  | conditional t c a b =>
      refine bind_congr (hfirst c [] rfl) fun v? s₁ hv => ?_
      by_cases hholds : Value.holds v? = true
      · rw [if_pos hholds, if_pos hholds]
        exact h _ _ (.consequence hv hholds)
      · rw [if_neg hholds, if_neg hholds]
        by_cases hb : b.isMissing = true
        · rw [if_pos hb, if_pos hb]
        · rw [if_neg hb, if_neg hb]
          exact h _ _ (.alternative hv (by simpa using hholds)
            (by simpa using hb))
  | array t ns =>
      refine bind_congr (operands_congr ?_) fun _ _ _ => rfl
      exact fun pre m post vs s' hns hpre => h _ _ (.part hns hpre)
  | hash t ps =>
      refine bind_congr (entries_congr ?_ ?_) fun _ _ _ => rfl
      · rintro pre k v post u s' rfl hpre
        exact h _ _ (.key hpre)
      · rintro pre k v post u key j s' s'' rfl hpre hk hkey
        exact h _ _ (.value hpre hk hkey)
  | call t callee args => exact callWith_congr h
  | _ => rfl

/-- **Nothing else counts.**  Two ways to evaluate nodes that answer alike to
all that a step comes to ask for make it end alike. -/
theorem Job.step_congr {j : Job}
    (h : ∀ i s', Asks rec j s i s' → i.answer rec' s' = i.answer rec s') :
    j.step rec' s = j.step rec s := by
  cases j with
  | eval n e => exact evalWith_congr h
  | apply f args =>
      show applyWith rec' f args s = applyWith rec f args s
      rcases applyWith_cases f args with
        ⟨c, rfl, hargs, happly⟩ | ⟨b, rfl, happly⟩ | ⟨g, happly⟩
      · rw [happly, happly]
        refine bind_congr rfl fun d s' hframe => ?_
        exact bind_congr (h _ _ (.body hargs hframe)) fun _ _ _ => rfl
      · rw [happly, happly]
      · rw [happly, happly]

end

end MonkeyLang

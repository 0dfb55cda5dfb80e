/-
A session and a script.

* `Session.RunsThrough`: an input of which all statements run;
* `Session.SameOutcome`: outcomes that are the same but for places in trees and
  the names of frames and closures;
* `Apart.expandAll_before`, `expand_line`: an input is expanded alike, whether
  the one before it has been evaluated or not;
* `eval_line`: so it is evaluated behind the statements of that one;
* `Session.Led.script`: two inputs one after the other have the same outcome as
  one that is made of both.
-/
import MonkeyLang.Proofs.Session.Concat
import MonkeyLang.Proofs.Session.Isolation
import MonkeyLang.Proofs.Session.Renamed
import MonkeyLang.Proofs.Session.Whole

namespace MonkeyLang

namespace Session

variable {p q : Array String} {ρ : Renaming} {depth : ℕ}

/-! ### Expansion before and after evaluation -/

namespace Apart

variable {s s' : Session}

/-- No frame leads out of that of the macros. -/
lemma within_root (h : s.Apart) : s.store.Within (· = s.macros) := by
  rintro e f rfl hf
  obtain ⟨g, hg, hlies⟩ := h.root
  cases hg.symm.trans hf
  exact hlies

/-- The expansion of a tree changes no frame that there was. -/
lemma expandAll (h : s.Apart) {n : Node} {out : Except MacroFault Node}
    (hrun : Expanding.expandAll depth n s = some (out, s')) :
    s'.program = s.program ∧ s'.macros = s.macros ∧
      (∀ d, d < s.store.frames.size →
        s'.store.frames[d]? = s.store.frames[d]?) ∧ s'.Apart := by
  obtain ⟨⟨hle, hsame⟩, hprogram, hmacros, -⟩ :=
    (h.ends_expandAll n).2.le hrun
  have hframes : ∀ d, d < s.store.frames.size →
      s'.store.frames[d]? = s.store.frames[d]? :=
    fun d hd => hsame d (Nat.not_le.mpr hd)
  obtain ⟨f, hf, hlies⟩ := h.root
  exact ⟨hprogram, hmacros, hframes,
    h.of_same hprogram hmacros hle (fun d hd _ => hframes d hd)
      ⟨f, (hframes _ h.macros_lt).trans hf, hlies⟩⟩

/-- Let two sessions be the same, and let the frame of the macros in the first
stay as it is.  Then a tree is expanded there, however other frames change, as
it is in the second one. -/
lemma expandAll_before {t t' u u' : Session} (ht : t.Apart)
    (h : t.Renamed p q ρ t') (hmacros : u.macros = t.macros)
    (hroot : u.store.frames[t.macros]? = t.store.frames[t.macros]?)
    (hclosures : t.store.closures ≤ u.store.closures)
    (hnested : u.store.Nested) {n n' k : Node} (hn : n.bare = n'.bare)
    (hrun : Expanding.expandAll depth n u = some (.ok k, u')) :
    ∃ k' t'' ρ', Expanding.expandAll depth n' t' = some (.ok k', t'') ∧
      k.bare = k'.bare ∧ ρ.closures ≤ ρ'.closures ∧
      u'.store.Renamed u.store.printed t'.store.printed ρ' t''.store := by
  have hu : u.Renamed u.store.printed t'.store.printed
      (ρ.within (· = t.macros)) t' := by
    refine ⟨(h.store.within ht.within_root).transfer ?_ ?_
      ⟨hnested, h.store.nested.2⟩ ⟨#[], by simp, by simp⟩, ?_⟩
    · rintro d d' ⟨rfl, -⟩
      exact ⟨hroot, rfl⟩
    · exact h.store.closures.mono hclosures (Nat.le_refl _)
    · exact ⟨hmacros, hmacros ▸ h.macros⟩
  obtain ⟨k', t'', ρ', hrun', hρ, hs, hk⟩ :=
    (Expanding.expandAll_renamed hn).ok_inv hu hrun
  exact ⟨k', t'', ρ', hrun', hk, hρ.2, hs.store⟩

/-- A store that was the same as another one is so after an expansion. -/
lemma renamed_of_expandAll {u : Session} {t : Store} (h : s.Apart)
    (hs : s.store.Renamed p q ρ t) {n : Node} {out : Except MacroFault Node}
    (hrun : Expanding.expandAll depth n s = some (out, u))
    (hclosures : s.store.closures ≤ u.store.closures)
    (hnested : u.store.Nested) :
    u.store.Renamed u.store.printed t.printed ρ t := by
  obtain ⟨-, -, hframes, -⟩ := h.expandAll hrun
  exact hs.transfer (fun d d' hd => ⟨hframes d (hs.below d d' hd).1, rfl⟩)
    (hs.closures.mono hclosures (Nat.le_refl _)) ⟨hnested, hs.nested.2⟩
    ⟨#[], by simp, by simp⟩

end Apart

/-- Where an input was expanded and evaluated and then one without definitions
was expanded, both are expanded alike at once. -/
lemma expand_line {s t u : Session} {a b c : String}
    {ss vs ws cs ds : List Node} {k : ℕ} {result : Except Fault (Option Value)}
    {store : Store} (hwhole : s.Whole) (hapart : s.Apart)
    (ha : parsed a s.tracing = .ok (.program ss))
    (ht : s.expand depth a = some (.ok (.program cs), t))
    (heval : MonkeyLang.eval k (.program cs) t.program t.store =
      some (result, store))
    (hu : Expanding.expandAll depth (.program vs)
      (heard b { t with store }) = some (.ok (.program ds), u))
    (hc : parsed c s.tracing = .ok (.program (ss ++ ws)))
    (hdefinitions : (Node.program vs).definitions = [])
    (hbare : vs.map Node.bare = ws.map Node.bare) :
    ∃ cs' ds' t' ρ,
      s.expand depth c = some (.ok (.program (cs' ++ ds')), t') ∧
      cs.map Node.bare = cs'.map Node.bare ∧
      ds.map Node.bare = ds'.map Node.bare ∧
      s.store.identity ≤ ρ ∧ t'.program = s.program ∧ t'.macros = s.macros ∧
      t.store.Renamed t.store.printed t'.store.printed ρ t'.store ∧
      (u.store.printed = store.printed →
        t'.store.printed = t.store.printed) := by
  have hws := Node.definitions_of_bare hbare hdefinitions
  -- the first input, with the same definitions bound
  obtain ⟨ρ₀, hρ₀, hprepared⟩ :=
    hwhole.prepared_renamed a c
      (congrArg (List.map _) (Node.definitions_append ss hws).symm)
  obtain ⟨m, t₁, ρ, hfirst, hρ, hs₁, hm⟩ :=
    (Expanding.expandAll_renamed rfl).ok_inv hprepared
      (expandAll_of_expand ha ht)
  obtain ⟨cs', rfl⟩ := Expanding.expandAll_program hfirst
  -- the second one, before the first is evaluated
  obtain ⟨hwholeE, hfollowsE⟩ := (hwhole.expand ht).1.eval heval
  have hapartT : t.Apart := hapart.expand ht
  have hpasses : Moment.Passes ⟨k, .eval (.program cs) t.program, t.store⟩
      store := .ends .refl heval
  obtain ⟨m', t', ρ', hsecond, hm', hclosures, hs'⟩ :=
    hapartT.expandAll_before (u := heard b { t with store }) hs₁ rfl
      (hapartT.passes_program hpasses) hfollowsE.1.2 hwholeE.store.nested.1
      (Node.bare_program hbare) hu
  obtain ⟨ds', rfl⟩ := Expanding.expandAll_program hsecond
  obtain ⟨hapartC, hprogramC, hmacrosC⟩ :=
    hapart.prepared c (.program (ss ++ ws))
  obtain ⟨hprogram₁, hmacros₁, -, hapart₁⟩ := hapartC.expandAll hfirst
  obtain ⟨hprogram', hmacros', hframes', -⟩ := hapart₁.expandAll hsecond
  refine ⟨cs', ds', t', ρ, ?_, ?_, ?_, hρ₀.trans hρ, hprogram'.trans
    (hprogram₁.trans hprogramC), hmacros'.trans (hmacros₁.trans hmacrosC), ?_,
    fun hsilent => ?_⟩
  · rw [expand_of_parsed hc, expandProgram, Node.remainder_append hws,
      Expanding.expandAll_append hfirst hsecond]
    rfl
  · cases Node.matches_of_bare hm with
    | program hcs => exact hcs
  · cases Node.matches_of_bare hm' with
    | program hds => exact hds
  · exact hs₁.store.transfer (fun d d' hd =>
      ⟨rfl, hframes' d' (hs₁.store.below d d' hd).2⟩) (fun d d' hd =>
        ⟨(hs₁.store.closures d d' hd).1,
          (hs'.closures d d' (hclosures d d' hd)).2⟩)
      ⟨hs₁.store.nested.1, hs'.nested.2⟩ ⟨#[], by simp, by simp⟩
  · obtain ⟨out, hout, hout'⟩ := hs₁.store.printed
    exact (hs'.silent hsilent).trans (hout'.trans hout.symm)

/-- Where statements run through, so do those that are equal without places,
and what stands behind them is evaluated in a store that is the same. -/
lemma eval_line {s t s' : Store} {e e' : ℕ} {cs cs' : List Node}
    {last : Option Value} (h : s.Renamed p q ρ t)
    (he : ρ.frames.pair e e') (hcs : cs.map Node.bare = cs'.map Node.bare)
    (hrun : sequence (MonkeyLang.eval depth) e none cs s =
      some (.ok last, s'))
    (hreturn : ∀ v, last ≠ some (.returned v)) :
    ∃ ρ' t', ρ ≤ ρ' ∧ s'.Renamed p q ρ' t' ∧ ∀ ds, ds ≠ [] →
      MonkeyLang.eval (depth + 1) (.program (cs' ++ ds)) e' t =
        MonkeyLang.eval (depth + 1) (.program ds) e' t' := by
  obtain ⟨last', t', ρ', hrun', hρ, hs', hlast⟩ :=
    ((evaluates_eval p q depth).sequence he hcs .none).ok_inv h hrun
  refine ⟨ρ', t', hρ, hs', fun ds hds => eval_append hrun' ?_ hds⟩
  rintro v rfl
  cases hlast with
  | some hv =>
      cases hv with
      | returned _ => exact hreturn _ rfl

/-! ### Two inputs and one -/

/-- An input is expanded, and then all of its statements run: none of them
fails or returns. -/
inductive RunsThrough (depth : ℕ) (source : String) (s : Session) :
    Session → Prop where
  | intro {cs : List Node} {t : Session} {last : Option Value} {store : Store}
      (hexpand : s.expand (depth + 1) source = some (.ok (.program cs), t))
      (hrun : sequence (MonkeyLang.eval depth) t.program none cs t.store =
        some (.ok last, store))
      (hlast : ∀ v, last ≠ some (.returned v)) :
      RunsThrough depth source s { t with store }

/-- Outcomes of inputs behind a session: the values, the programs and the
macros are the same, but for places in trees and the names of the frames and
closures that were made since. -/
inductive SameOutcome (s : Session) :
    Except Failure (Option Value) × Session →
      Except Failure (Option Value) × Session → Prop where
  | mk {p q : Array String} {ρ : Renaming} {v? w? : Option Value}
      {t u : Session} (hkept : s.store.identity ≤ ρ)
      (hvalue : Option.Rel (Value.Renamed ρ) v? w?)
      (hprogram : ρ.frames.pair t.program u.program)
      (hsessions : t.Renamed p q ρ u) : SameOutcome s (.ok v?, t) (.ok w?, u)

lemma resultOf_renamed {out out' : Except Fault (Option Value)}
    (h : Outcome Eq (Option.Rel (Value.Renamed ρ)) out out') :
    Option.Rel (Value.Renamed ρ) (Run.resultOf out) (Run.resultOf out') := by
  cases h with
  | ok hv => exact hv
  | error hf => exact hf ▸ .some (.error _)

/-- In such sessions programs that are equal without places have the same
outcome, and print the same. -/
lemma evaluateIn_renamed {s t u : Session} (h : t.Renamed p q ρ u)
    (hprogram : ρ.frames.pair t.program u.program)
    (hkept : s.store.identity ≤ ρ) {n n' : Node} (hn : n.bare = n'.bare) :
    Option.Rel (fun x y => s.SameOutcome (.ok x.1, x.2) (.ok y.1, y.2) ∧
        ∃ out, x.2.store.printed = p ++ out ∧ y.2.store.printed = q ++ out)
      (t.evaluateIn depth t.program n) (u.evaluateIn depth u.program n') := by
  refine rel_map (evaluates_eval p q depth ρ t.program u.program n n' hprogram
    hn t.store u.store h.store) ?_
  rintro ⟨out, v⟩ ⟨out', v'⟩ ⟨ρ', hρ, hstore, hout⟩
  exact ⟨.mk (hkept.trans hρ) (resultOf_renamed hout) (hρ.1 _ _ hprogram)
    ⟨hstore, hρ.1 _ _ h.macros⟩, hstore.printed⟩

/-- **A session equals a script.**  Let an input close its brackets and end in
a semicolon, and let all of its statements run; let another one have statements
and no definitions of macros, and be expanded.  Then both inputs one after the
other have the same outcome as the one that has the second in the line behind
the first, or neither has any; and they print the same if nothing is printed
when the second is expanded. -/
theorem Led.script {s s₁ u : Session} (hs : Led (fun _ _ _ _ => True) s)
    {a b : String} {n m : Node}
    (hdue : Bracket.due (Token.beforeEnd (Token.stream a)) = some [])
    (hsemicolon : ∀ t ∈ (Token.beforeEnd (Token.stream a)).getLast?,
      t.kind = .semicolon)
    (ha : s.RunsThrough depth a s₁) (hb : parsed b s.tracing = .ok n)
    (hstatements : n.statements ≠ []) (hdefinitions : n.definitions = [])
    (hu : s₁.expand (depth + 1) b = some (.ok m, u)) :
    (∃ v?, s.evaluate (depth + 1) a = some (.ok v?, s₁)) ∧
    Option.Rel (fun x y => s.SameOutcome x y ∧
        (u.store.printed = s₁.store.printed →
          x.2.store.printed = y.2.store.printed))
      (s₁.evaluate (depth + 1) b)
      (s.evaluate (depth + 1) (a ++ "\n" ++ b)) := by
  obtain @⟨cs, t, last, store, hexpand, hrun, hreturn⟩ := ha
  obtain ⟨k, hk⟩ : ∃ k, parsed a s.tracing = .ok k := by
    rcases expand_inv hexpand with ⟨f, -, hout, -⟩ | ⟨k, -, hk, -⟩
    · cases hout
    · exact ⟨k, hk⟩
  obtain ⟨ss, vs, ws, rfl, rfl, hc, hbare⟩ :=
    parsed_line hk hdue hsemicolon hb
  obtain ⟨ds, rfl⟩ := expand_program hu
  obtain ⟨result, heval⟩ := eval_of_sequence hrun
  obtain ⟨hwholeT, hfollowsT⟩ := hs.whole.expand hexpand
  obtain ⟨hwholeU, hfollowsU⟩ := (hwholeT.eval heval).1.expand hu
  have hlater := expandAll_of_plain (s := { t with store })
    (hfollowsT.2.2.2 ▸ hb) hdefinitions hu
  obtain ⟨cs', ds', t', ρ, hexpand', hcs, hds, hρ, hprogram, hmacros, hstore,
    hsilent⟩ := expand_line hs.whole hs.apart hk hexpand heval hlater hc
      hdefinitions hbare
  refine ⟨⟨Run.resultOf result, ?_⟩, ?_⟩
  · rw [evaluate_of_expand hexpand, evaluateIn, heval]
    rfl
  -- the statements of the first input
  have hpair : ρ.frames.pair t.program t'.program :=
    hρ.1 _ _ ⟨hfollowsT.2.1.trans hprogram.symm,
      hfollowsT.2.1 ▸ hs.whole.program⟩
  obtain ⟨ρ₁, store', hρ₁, hstore₁, hbehind⟩ :=
    eval_line hstore hpair hcs hrun hreturn
  have hds' : ds' ≠ [] := by
    have hne := Expanding.ne_nil_of_expandAll hstatements hlater
    rintro rfl
    exact hne (List.map_eq_nil_iff.mp hds)
  have hbehind' : t'.evaluateIn (depth + 1) t'.program
      (.program (cs' ++ ds')) =
        Session.evaluateIn (depth + 1) t'.program (.program ds')
          { t' with store := store' } := by
    rw [evaluateIn, hbehind ds' hds']
    rfl
  -- those of the second one
  have hapartE := (hs.apart.expand hexpand).eval heval
  have hstores : u.Renamed u.store.printed store'.printed ρ₁
      { t' with store := store' } := by
    refine ⟨Apart.renamed_of_expandAll (s := heard b { t with store })
      ⟨hapartE.reached, hapartE.root⟩ hstore₁ hlater hfollowsU.1.2
      hwholeU.store.nested.1, hρ₁.1 _ _ (hρ.1 _ _ ⟨?_, ?_⟩)⟩
    · exact hfollowsU.2.2.1.trans (hfollowsT.2.2.1.trans hmacros.symm)
    · exact hfollowsU.2.2.1 ▸ hfollowsT.2.2.1 ▸ hs.whole.macros
  rw [evaluate_of_expand hu, evaluate_of_expand hexpand', hbehind']
  refine rel_map (evaluateIn_renamed hstores
    (hfollowsU.2.1 ▸ hρ₁.1 _ _ hpair) (hρ.trans hρ₁)
    (Node.bare_program hds)) ?_
  rintro x y ⟨hsame, after, hafter, hafter'⟩
  refine ⟨hsame, fun hnothing => ?_⟩
  obtain ⟨before, hbefore, hbefore'⟩ := hstore₁.printed
  rw [hafter, hafter', hnothing, hbefore', hsilent hnothing]
  exact congrArg (· ++ after) hbefore

/-- A definition of a macro and one of a name. -/
def macroAndName : String :=
  "let m = macro(x) \x7b quote([unquote(x)]) \x7d; let y = 2;"

set_option maxRecDepth 4000 in
/-- A macro and a name that the first input defines, used in the second. -/
theorem Led.script_macroAndName : ∃ s₁ m u n s₂ out,
    (Session.start false).RunsThrough 19 macroAndName s₁ ∧
    parsed "m(y)" false = .ok n ∧ s₁.expand 20 "m(y)" = some (.ok m, u) ∧
    s₁.evaluate 20 "m(y)" = some (.ok (some (.array [.integer 2])), s₂) ∧
    (Session.start false).evaluate 20 (macroAndName ++ "\n" ++ "m(y)") =
      some out ∧
    (Session.start false).SameOutcome
      (.ok (some (.array [.integer 2])), s₂) out ∧
    s₂.store.printed = out.2.store.printed := by
  obtain ⟨cs, t, last, store, hexpand, hrun, hlast, n, hn, hstatements,
      hdefinitions, m, u, hu, hsilent, s₂, hs₂⟩ :
      ∃ cs t last store, (Session.start false).expand 20 macroAndName =
          some (.ok (.program cs), t) ∧
        sequence (MonkeyLang.eval 19) t.program none cs t.store =
          some (.ok last, store) ∧ last = none ∧
        ∃ n, parsed "m(y)" false = .ok n ∧ n.statements ≠ [] ∧
          n.definitions = [] ∧
        ∃ m u, Session.expand 20 "m(y)" { t with store } = some (.ok m, u) ∧
          u.store.printed = store.printed ∧
        ∃ s₂, Session.evaluate 20 "m(y)" { t with store } =
          some (.ok (some (.array [.integer 2])), s₂) :=
    ⟨_, _, _, _, rfl, rfl, rfl, _, rfl, nofun, rfl, _, _, rfl, rfl, _, rfl⟩
  -- both inputs are evaluated once, and the theorem tells of the script
  have hthrough : (Session.start false).RunsThrough 19 macroAndName
      { t with store } := .intro hexpand hrun (by rw [hlast]; nofun)
  obtain ⟨-, hscript⟩ := Led.script (.start false) (by decide +kernel)
    (by decide +kernel) hthrough hn hstatements hdefinitions hu
  rw [hs₂] at hscript
  rcases hout : (Session.start false).evaluate 20
    (macroAndName ++ "\n" ++ "m(y)") with _ | out <;>
    rw [hout] at hscript
  · cases hscript
  · cases hscript with
    | some hsame =>
        exact ⟨_, m, u, n, s₂, out, hthrough, hn, hu, hs₂, rfl, hsame.1,
          hsame.2 hsilent⟩

end Session

end MonkeyLang

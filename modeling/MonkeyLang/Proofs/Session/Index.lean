/-
The index of a text and what the text binds.

* `Symbol.binding?`: the name that a statement binds and to what kind of thing,
  the same in all places;
* `Index.get?_symbolsOf`: of several bindings of a name the first one is its
  symbol;
* `binds_of_sequence`: a frame in which statements run through has the names of
  all their `let`s;
* `Index.Agrees`: what an index says of a session;
* `Session.RunsThrough.agrees`: if a text runs through in a new session, its
  index agrees with the session that it leads to.
-/
import MonkeyLang.Editor.Index
import MonkeyLang.Proofs.Bindings
import MonkeyLang.Proofs.Eval.FrameLaw
import MonkeyLang.Proofs.Session.Script

namespace MonkeyLang

/-! ### Symbols -/

namespace Symbol

/-- The name that a statement binds, and to what kind of thing. -/
def binding? (n : Node) : Option (String × Kind) :=
  (ofStatement? n).map fun σ => (σ.name, σ.kind)

/-- Statements bind the same in all places. -/
lemma binding?_of_bare {m n : Node} (h : m.bare = n.bare) :
    binding? m = binding? n := by
  cases Node.matches_of_bare h with
  | letStmt hname hv =>
      simp only [binding?, ofStatement?, Option.map_some, hname]
      cases Node.matches_of_bare hv <;> rfl
  | _ => rfl

/-- What is bound to a macro is so in the frame of the macros. -/
lemma macroDefinition?_of_binding {n : Node} {name : String}
    (h : binding? n = some (name, .macroFn)) :
    ∃ params body, n.macroDefinition? = some (name, params, body) := by
  cases n with
  | letStmt t u v =>
      cases v with
      | macroFn w ps b =>
          cases h
          exact ⟨ps, b, rfl⟩
      | _ => cases h
  | _ => cases h

lemma binding?_of_macroDefinition {n : Node}
    {name : String} {params : List Node} {body : Node}
    (h : n.macroDefinition? = some (name, params, body)) :
    binding? n = some (name, .macroFn) := by
  obtain ⟨t, u, v, rfl⟩ := Node.macroDefinition?_inv h
  cases h
  rfl

/-- What is bound to anything else is so by a statement of the program. -/
lemma eq_letStmt_of_binding {n : Node} {name : String} {kind : Kind}
    (h : binding? n = some (name, kind)) (hkind : kind ≠ .macroFn) :
    n.macroDefinition?.isNone = true ∧
      ∃ t u v, n = .letStmt t u v ∧ u.text = name := by
  cases n with
  | letStmt t u v =>
      cases v with
      | macroFn w ps b =>
          cases h
          exact absurd rfl hkind
      | _ =>
          cases h
          exact ⟨rfl, _, _, _, rfl, rfl⟩
  | _ => cases h

end Symbol

namespace Index

variable {ns : List Node} {name : String} {σ : Symbol}

/-- Programs that are equal without places have such statements. -/
lemma bare_statementsOf {m n : Node} (h : m.bare = n.bare) :
    (statementsOf m).map Node.bare = (statementsOf n).map Node.bare := by
  cases Node.matches_of_bare h with
  | program hss => exact hss
  | _ => rfl

/-- Of several symbols with a name the first one is found. -/
lemma get?_foldl_setNew (σs : List Symbol) (bs : Bindings String Symbol) :
    Bindings.get? name (σs.foldl (fun bs σ => bs.setNew σ.name σ) bs) =
      (Bindings.get? name bs).or (σs.find? fun σ => σ.name = name) := by
  induction σs generalizing bs with
  | nil => rw [List.foldl_nil, List.find?_nil, Option.or_none]
  | cons σ σs ih =>
      rw [List.foldl_cons, ih, Bindings.get?_setNew_or, Option.or_assoc,
        List.find?_cons]
      by_cases hname : σ.name = name <;> simp [hname]

/-- The symbol of a name is that of the first statement that binds it. -/
theorem get?_symbolsOf (name : String) (ns : List Node) :
    Bindings.get? name (symbolsOf ns) =
      (ns.filterMap Symbol.ofStatement?).find? fun σ => σ.name = name :=
  get?_foldl_setNew _ []

/-- A symbol stands for a statement. -/
lemma binding_of_symbol (h : Bindings.get? name (symbolsOf ns) = some σ) :
    ∃ n ∈ ns, Symbol.binding? n = some (name, σ.kind) := by
  rw [get?_symbolsOf] at h
  obtain ⟨n, hn, hσ⟩ := List.mem_filterMap.mp (List.mem_of_find?_eq_some h)
  have hname : σ.name = name := by simpa using List.find?_some h
  exact ⟨n, hn, by rw [Symbol.binding?, hσ, ← hname]; rfl⟩

/-- A statement that binds a name makes it a symbol. -/
lemma isSome_of_binding {n : Node} (hn : n ∈ ns) {kind : Symbol.Kind}
    (h : Symbol.binding? n = some (name, kind)) :
    (Bindings.get? name (symbolsOf ns)).isSome := by
  obtain ⟨τ, hτ, heq⟩ := Option.map_eq_some_iff.mp h
  rw [get?_symbolsOf, List.find?_isSome]
  exact ⟨τ, List.mem_filterMap.mpr ⟨n, hn, hτ⟩,
    decide_eq_true (Prod.mk.inj heq).1⟩

end Index

/-- A name that is defined has a last definition. -/
lemma Node.isSome_definition? {name : String}
    {ds : List (String × List Node × Node)} :
    (definition? name ds).isSome ↔ ∃ d ∈ ds, d.1 = name := by
  induction ds with
  | nil => simp [definition?]
  | cons d ds ih =>
      rw [definition?, Option.isSome_or, Bool.or_eq_true, ih,
        List.exists_mem_cons_iff, or_comm]
      by_cases hd : d.1 = name <;> simp [hd]

/-! ### Names of a frame -/

/-- A frame there is has a name among its own. -/
def Store.Binds (s : Store) (e : ℕ) (name : String) : Prop :=
  ∃ f, s.frames[e]? = some f ∧ name ∈ Bindings.keys f.bindings

section

variable {s s' : Store} {e : ℕ} {name : String}

/-- Such a name has a value. -/
lemma Store.Binds.lookup (h : s.Binds e name) : (s.lookup e name).isSome := by
  obtain ⟨f, hf, hname⟩ := h
  obtain ⟨v, hv⟩ := Option.isSome_iff_exists.mp
    ((Bindings.isSome_get? name f.bindings).mpr hname)
  rw [Store.lookup, Store.chain, Store.chainUpTo, hf, List.findSome?_cons, hv]
  rfl

/-- No name is dropped. -/
lemma Store.Binds.mono (h : s.Binds e name) (hs : s.ChangedIn e s') :
    s'.Binds e name := by
  obtain ⟨f, hf, hname⟩ := h
  obtain ⟨g, hg, hext⟩ := hs.own f hf
  exact ⟨g, hg, hext.names.subset hname⟩

lemma Store.binds_bind (he : e < s.frames.size) (name : String) (v : Value) :
    (s.bind e name v).Binds e name := by
  have hframe : (s.bind e name v).frames[e]? =
      some { s.frames[e] with bindings := s.frames[e].bindings.set name v } := by
    rw [Store.bind, Array.getElem?_modify, if_pos rfl,
      Array.getElem?_eq_getElem he]
    rfl
  refine ⟨_, hframe, ?_⟩
  rw [← Bindings.isSome_get?, Bindings.get?_set, if_pos rfl]
  rfl

/-- The step that a node makes changes no other frame. -/
lemma changedIn_of_eval {depth : ℕ} {n : Node}
    {out : Except Fault (Option Value)}
    (h : eval depth n e s = some (out, s')) : s.ChangedIn e s' := by
  have hkeeps : Keeps (s.ChangedIn e) _ (eval depth n e) :=
    (stable_changedIn e s).keeps_eval depth (Or.inl rfl) trivial
  exact (hkeeps s out s' (.refl e s) h).1

/-- A `let` that ends binds its name. -/
lemma binds_of_letStmt {depth : ℕ} {t u : Token} {n : Node}
    {v? : Option Value} (he : e < s.frames.size)
    (h : eval depth (.letStmt t u n) e s = some (.ok v?, s')) :
    s'.Binds e u.text := by
  cases depth with
  | zero => cases h
  | succ depth =>
      obtain ⟨v, s₁, hv, hbind⟩ := bind_ok_inv h
      obtain ⟨w?, s₂, hw, hpure⟩ := bind_ok_inv hv
      cases hpure
      cases hbind
      exact Store.binds_bind
        (Nat.lt_of_lt_of_le he (changedIn_of_eval hw).size_le) _ _

/-- **Lets.**  Where statements run through, the frame has the names of all
their `let`s besides those it had. -/
theorem binds_of_sequence {depth : ℕ} {cs : List Node}
    {first last : Option Value} (he : e < s.frames.size)
    (hrun : sequence (eval depth) e first cs s = some (.ok last, s'))
    (hlast : ∀ v, last ≠ some (.returned v))
    (hname : s.Binds e name ∨ ∃ t u v, .letStmt t u v ∈ cs ∧ u.text = name) :
    s'.Binds e name := by
  induction cs generalizing s first with
  | nil =>
      cases hrun
      obtain hname | ⟨t, u, v, hmem, -⟩ := hname
      · exact hname
      · cases hmem
  | cons n cs ih =>
      obtain ⟨v?, s₁, hn, hrest⟩ := bind_ok_inv hrun
      have hchanged := changedIn_of_eval hn
      -- a returned value would be the last one
      have hcs : sequence (eval depth) e v? cs s₁ = some (.ok last, s') := by
        split at hrest
        · next v =>
          cases hrest
          exact absurd rfl (hlast v)
        · exact hrest
      refine ih (Nat.lt_of_lt_of_le he hchanged.size_le) hcs ?_
      obtain hname | ⟨t, u, v, hmem, hu⟩ := hname
      · exact Or.inl (hname.mono hchanged)
      obtain hmem | hmem := List.mem_cons.mp hmem
      · subst hmem
        exact Or.inl (hu ▸ binds_of_letStmt he hn)
      · exact Or.inr ⟨t, u, v, hmem, hu⟩

end

/-! ### Expansion -/

namespace Expanding

variable {depth : ℕ} {s s' : Session}

/-- Each `let` among statements stays one of the same name. -/
lemma letStmt_mem_of_transformList {ss cs : List Node}
    (h : Node.transformList (expandNode depth) ss s = some (.ok cs, s'))
    {t u : Token} {v : Node} (hmem : .letStmt t u v ∈ ss) :
    ∃ w, .letStmt t u w ∈ cs := by
  induction ss generalizing cs s with
  | nil => cases hmem
  | cons n ss ih =>
      obtain ⟨c, ds, s₁, rfl, hc, hds⟩ := Node.transformList_cons_inv h
      obtain hmem | hmem := List.mem_cons.mp hmem
      · subst hmem
        obtain ⟨w, s₂, -, rfl⟩ := letStmt_of_expandAll hc
        exact ⟨w, List.mem_cons_self⟩
      · obtain ⟨w, hw⟩ := ih hds hmem
        exact ⟨w, List.mem_cons_of_mem c hw⟩

end Expanding

/-! ### The index and a session -/

/-- What an index says of a session: the values and functions among its symbols
are bound in the program, the macros among the macros, and no other name is
bound there. -/
structure Index.Agrees (i : Index) (s : Session) : Prop where
  program : ∀ name σ, i.symbols.get? name = some σ →
    σ.kind = .value ∨ σ.kind = .function →
      (s.store.lookup s.program name).isSome
  macros : ∀ name σ, i.symbols.get? name = some σ → σ.kind = .macroFn →
    ∃ c, s.store.lookup s.macros name = some (.macroFn c)
  known : ∀ name, (s.store.lookup s.macros name).isSome →
    (i.symbols.get? name).isSome

namespace Session

variable {depth : ℕ} {source : String} {tracing : Bool}
  {s s' : Session}

/-- The statements of an input bind what those of its index do. -/
lemma bindings_of_parsed {ss : List Node}
    (h : parsed source tracing = .ok (.program ss)) :
    ss.map Symbol.binding? = (Index.statementsOf
      (Parser.ofSource source false).program).map Symbol.binding? := by
  -- traced or not, both are parsed from the same tokens
  have hbare := (Parser.ofTokens_alike
    (Eq.refl ((Token.stream source).map Token.bare)) tracing false).1
  rw [← Parser.ofSource, ← Parser.ofSource, ← parsed_eq_ok source tracing h]
    at hbare
  have hss := Index.bare_statementsOf hbare
  rw [← forall₂_map_eq] at hss ⊢
  exact hss.imp fun _ _ => Symbol.binding?_of_bare

/-- Such an input has a value, or none at its end. -/
lemma RunsThrough.evaluates (h : s.RunsThrough depth source s') :
    ∃ v?, s.evaluate (depth + 1) source = some (.ok v?, s') := by
  obtain ⟨hexpand, hrun, -⟩ := h
  obtain ⟨result, heval⟩ := eval_of_sequence hrun
  refine ⟨Run.resultOf result, ?_⟩
  rw [evaluate_of_expand hexpand, evaluateIn, heval]
  rfl

/-- It is parsed without faults. -/
lemma RunsThrough.exists_parsed (h : s.RunsThrough depth source s') :
    ∃ n, parsed source s.tracing = .ok n := by
  obtain ⟨hexpand, -, -⟩ := h
  obtain ⟨f, -, hout, -⟩ | ⟨n, -, hn, -⟩ := expand_inv hexpand
  · cases hout
  · exact ⟨n, hn⟩

/-- What the statements of an input bind in the program is bound there when it
ran through. -/
lemma RunsThrough.binds (hs : s.Whole) (h : s.RunsThrough depth source s')
    {ss : List Node} (hparsed : parsed source s.tracing = .ok (.program ss))
    {n : Node} (hn : n ∈ ss) {name : String} {kind : Symbol.Kind}
    (hbinding : Symbol.binding? n = some (name, kind))
    (hkind : kind ≠ .macroFn) : s'.store.Binds s'.program name := by
  obtain ⟨hexpand, hrun, hlast⟩ := h
  obtain ⟨hnone, t, u, v, rfl, rfl⟩ :=
    Symbol.eq_letStmt_of_binding hbinding hkind
  have hstatements := Expanding.transformList_of_expandAll
    (expandAll_of_expand hparsed hexpand)
  obtain ⟨w, hw⟩ := Expanding.letStmt_mem_of_transformList hstatements
    (List.mem_filter.mpr ⟨hn, hnone⟩)
  exact binds_of_sequence (hs.expand hexpand).1.program hrun hlast
    (Or.inr ⟨t, u, w, hw, rfl⟩)

/-- In the frame of the macros the definitions of such an input are bound and
nothing else is. -/
lemma RunsThrough.defines (hs : s.Apart) (h : s.RunsThrough depth source s')
    {n : Node} (hparsed : parsed source s.tracing = .ok n) {f : Frame}
    (hf : s.store.frames[s.macros]? = some f) :
    s'.macros = s.macros ∧ ∃ g, s'.store.frames[s.macros]? = some g ∧
      f.Defines s.macros n.definitions g := by
  obtain ⟨v?, hv⟩ := h.evaluates
  have hperform : s.perform .evaluate (depth + 1) source =
      some (.ok (.inr v?), s') := by
    rw [perform, hv]
    rfl
  obtain ⟨g, hg, hdefines⟩ := (defines_prepared source n s).2.own f hf
  obtain ⟨hexpand, -, -⟩ := h
  refine ⟨(hs.expand_frames hparsed hexpand).2.1, g, ?_, hdefines⟩
  exact (hs.perform_macros hparsed hperform).trans hg

/-- **The index of a text.**  If a text runs through in a new session, without
faults, failing macros, errors and returns at its top level, then every name
that its index has as a value or a function is bound in the program afterwards,
every one that it has as a macro is bound to a macro, and it has every name that
is bound to a macro. -/
theorem RunsThrough.agrees
    (h : (Session.start tracing).RunsThrough depth source s') :
    (∃ v?, (Session.start tracing).evaluate (depth + 1) source =
      some (.ok v?, s')) ∧ (Index.ofText source).Agrees s' := by
  have hs : Led (fun _ _ _ _ => True) (Session.start tracing) := .start tracing
  refine ⟨h.evaluates, ?_⟩
  obtain ⟨n, hparsed⟩ := h.exists_parsed
  obtain ⟨ss, rfl, -⟩ :=
    parsed_program source tracing Node.builds_namesParams hparsed
  -- the index reads the text without tracing, the session with its own; the
  -- symbols are the same
  have hsame : ∀ b, (∃ n ∈ Index.statementsOf
      (Parser.ofSource source false).program, Symbol.binding? n = b) ↔
        ∃ n ∈ ss, Symbol.binding? n = b := fun b => by
    rw [← List.mem_map, ← List.mem_map, bindings_of_parsed hparsed]
  obtain ⟨hmacros, g, hg, hdefines⟩ :=
    h.defines hs.apart hparsed (f := ⟨[], none⟩) rfl
  have hlookup := Store.lookup_root hg hdefines.outer
  rw [← hmacros] at hlookup
  -- values and functions are bound where their statements are evaluated; macros
  -- are so where the definitions are taken out, and only there
  refine ⟨fun name σ hσ hkind => ?_, fun name σ hσ hkind => ?_,
    fun name hname => ?_⟩
  · obtain ⟨n, hn, hbinding⟩ := (hsame _).mp (Index.binding_of_symbol hσ)
    refine (h.binds hs.whole hparsed hn hbinding ?_).lookup
    rcases hkind with hkind | hkind <;> rw [hkind] <;> nofun
  · obtain ⟨n, hn, hbinding⟩ := (hsame _).mp (Index.binding_of_symbol hσ)
    obtain ⟨params, body, hdef⟩ :=
      Symbol.macroDefinition?_of_binding (hkind ▸ hbinding)
    obtain ⟨⟨ps, b⟩, hlast⟩ := Option.isSome_iff_exists.mp
      (Node.isSome_definition?.mpr
        ⟨_, List.mem_filterMap.mpr ⟨n, hn, hdef⟩, rfl⟩)
    obtain ⟨id, hid⟩ := hdefines.defined name ps b hlast
    exact ⟨_, (hlookup name).trans hid⟩
  · have hlast : Node.definition? name (Node.program ss).definitions ≠ none := by
      intro hnone
      rw [hlookup, hdefines.kept name hnone] at hname
      cases hname
    obtain ⟨⟨_, params, body⟩, hd, rfl⟩ := Node.isSome_definition?.mp
      (Option.isSome_iff_ne_none.mpr hlast)
    obtain ⟨n, hn, hdef⟩ := List.mem_filterMap.mp hd
    obtain ⟨m, hm, hbinding⟩ :=
      (hsame _).mpr ⟨n, hn, Symbol.binding?_of_macroDefinition hdef⟩
    exact Index.isSome_of_binding hm hbinding

/-- A function and a macro, used in the definition of a name. -/
def functionAndMacro : String := "let f = fn(a) \x7b a + 1 \x7d; " ++
  "let y = m(f); let m = macro(x) \x7b quote(unquote(x)(2)) \x7d"

set_option maxRecDepth 4000 in
/-- Its index has `f`, `y` and `m`. -/
theorem RunsThrough.agrees_functionAndMacro : ∃ s',
    (Session.start false).RunsThrough 19 functionAndMacro s' ∧
    (Index.ofText functionAndMacro).symbols.map (fun p => (p.1, p.2.kind)) =
      [("f", .function), ("y", .value), ("m", .macroFn)] ∧
    (∃ v?, (Session.start false).evaluate 20 functionAndMacro =
      some (.ok v?, s')) ∧ (Index.ofText functionAndMacro).Agrees s' := by
  obtain ⟨cs, t, last, store, hexpand, hrun, hlast⟩ :
      ∃ cs t last store, (Session.start false).expand 20 functionAndMacro =
          some (.ok (.program cs), t) ∧
        sequence (MonkeyLang.eval 19) t.program none cs t.store =
          some (.ok last, store) ∧ last = none :=
    ⟨_, _, _, _, rfl, rfl, rfl⟩
  have hthrough : (Session.start false).RunsThrough 19 functionAndMacro
      { t with store } := .intro hexpand hrun (by rw [hlast]; nofun)
  exact ⟨_, hthrough, by decide +kernel, hthrough.agrees⟩

end Session

end MonkeyLang

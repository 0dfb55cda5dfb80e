/-
Programs in which one name is put for another one.

* `Ordinary name`: a name of no function of the language and of no special form;
* `Store.Neutral x y e s`: nothing that the frame `e` leads to tells `x` from `y`;
* `Store.reading`: how the frames are read then, and `Neutral.respelled`: so read
  the store is the same as itself;
* `eval_rename`: a program without the name `y`, in which no `let` binds `x`, gives
  the same scalar if `y` is put for `x`, and prints the same if it prints scalars.
-/
import MonkeyLang.Proofs.Eval.Respell
import MonkeyLang.Proofs.Session.Isolation
import MonkeyLang.Proofs.Session.Whole

namespace MonkeyLang

open List (Forall₂)
open Relation (ReflTransGen)

/-! ### Names -/

/-- A name that is none of a function of the language, `quote` or `unquote`. -/
structure Ordinary (name : String) : Prop where
  builtin : Builtin.ofName? name = none
  quote : name ≠ "quote"
  unquote : name ≠ "unquote"

variable {x y : String}

/-- Exchanging two such names keeps all others. -/
lemma Ordinary.spares_swap (hx : Ordinary x) (hy : Ordinary y) :
    Spares (Equiv.swap x y) where
  builtin b := by
    have hne : ∀ {z : String}, Ordinary z → b.name ≠ z := by
      rintro _ hz rfl
      have hnone := hz.builtin
      rw [Builtin.ofName?_name] at hnone
      cases hnone
    exact Equiv.swap_apply_of_ne_of_ne (hne hx) (hne hy)
  quote := Equiv.swap_apply_of_ne_of_ne hx.quote.symm hy.quote.symm
  unquote := Equiv.swap_apply_of_ne_of_ne hx.unquote.symm hy.unquote.symm

/-! ### What is there -/

namespace Store

variable {s : Store} {e d : ℕ} {v : Value}

/-- From a frame that is there only frames that are there are reached, and values
made in such frames. -/
lemma Whole.of_links (h : s.Whole) (he : e < s.frames.size) {i : Item}
    (hi : ReflTransGen s.Link (.frame e) i) :
    (∀ d, i = .frame d → d < s.frames.size) ∧
      ∀ v, i = .value v → v.Renamed s.identity v := by
  -- what is related to itself by the identity lies within the store
  have hframe : ∀ {d : ℕ} {f : Frame}, d < s.frames.size →
      s.frames[d]? = some f → f.Renamed s.identity f := by
    intro d f hd hf
    obtain ⟨g, g', hg, hg', hgg⟩ := h.frames d d ⟨rfl, hd⟩
    obtain rfl := Option.some.inj (hf.symm.trans hg)
    obtain rfl := Option.some.inj (hf.symm.trans hg')
    exact hgg
  -- by induction over the way, with the parts of values by the constructor that
  -- holds them
  induction hi with
  | refl =>
      refine ⟨?_, nofun⟩
      rintro _ ⟨⟩
      exact he
  | tail _ hlink ih =>
      cases hlink with
      | bound hf hv =>
          have hbound := (hframe (ih.1 _ rfl) hf).bindings
          refine ⟨nofun, ?_⟩
          rintro _ ⟨⟩
          exact (List.forall₂_same.mp hbound _ hv).2
      | outer hf ho =>
          have houter := (hframe (ih.1 _ rfl) hf).outer
          rw [ho] at houter
          refine ⟨?_, nofun⟩
          rintro _ ⟨⟩
          cases houter with
          | some ho => exact ho.2
      | inside hw =>
          refine ⟨nofun, ?_⟩
          rintro _ ⟨⟩
          have hv := ih.2 _ rfl
          cases hw with
          | element hw =>
              cases hv with
              | array hvs => exact List.forall₂_same.mp hvs _ hw
          | key hp =>
              cases hv with
              | hash ht =>
                  cases List.forall₂_same.mp ht _ hp with
                  | mk hk _ => exact hk
          | value hp =>
              cases hv with
              | hash ht =>
                  cases List.forall₂_same.mp ht _ hp with
                  | mk _ hv => exact hv
          | content =>
              cases hv with
              | returned hv => exact hv
      | function =>
          refine ⟨?_, nofun⟩
          rintro _ ⟨⟩
          cases ih.2 _ rfl with
          | function hc => exact hc.frame.2
      | macroFn =>
          refine ⟨?_, nofun⟩
          rintro _ ⟨⟩
          cases ih.2 _ rfl with
          | macroFn hc => exact hc.frame.2

end Store

/-! ### What does not tell the names -/

/-- A closure that mentions a name neither in its parameters nor in its body. -/
def Closure.Avoids (name : String) (c : Closure) : Prop :=
  (∀ p ∈ c.params, p.Avoids name) ∧ c.body.Avoids name

/-- A value that does not tell two names: a quote that mentions neither, and a
function that discloses neither in what it quotes, or that mentions neither and
was made where neither is bound. -/
def Value.Blind (s : Store) (x y : String) : Value → Prop
  | .function c => c.body.Discreet (Equiv.swap x y) ∨
      (c.Avoids x ∧ c.Avoids y) ∧
        s.lookup c.frame x = none ∧ s.lookup c.frame y = none
  | .quote m => m.Avoids x ∧ m.Avoids y
  | _ => True

namespace Store

/-- In the frame `e` neither of two names is bound, and no value that it leads to
tells them; the store is whole, and all parameters in it are identifiers. -/
structure Neutral (x y : String) (e : ℕ) (s : Store) : Prop where
  whole : s.Whole
  named : s.Bound Value.Named
  there : e < s.frames.size
  free : s.lookup e x = none ∧ s.lookup e y = none
  blind : ∀ v, ReflTransGen s.Link (.frame e) (.value v) → v.Blind s x y

/-- The frames that a frame leads to are read with the names that they have, and
with the two in each other's place if they are not bound. -/
def reading (s : Store) (x y : String) (e : ℕ) : Reading :=
  ⟨fun d σ => s.Reaches e d ∧ (σ = .refl _ ∨
    σ = Equiv.swap x y ∧ s.lookup d x = none ∧ s.lookup d y = none)⟩

variable {s : Store} {e d : ℕ} {v : Value} {σ : Equiv.Perm String}

lemma mem_reading_refl (hd : s.Reaches e d) :
    .refl _ ∈ (s.reading x y e).frame d := ⟨hd, Or.inl rfl⟩

lemma mem_reading_swap (hd : s.Reaches e d)
    (hfree : s.lookup d x = none ∧ s.lookup d y = none) :
    Equiv.swap x y ∈ (s.reading x y e).frame d := ⟨hd, Or.inr ⟨rfl, hfree⟩⟩

end Store

/-- A tree that mentions neither name stays as it is. -/
lemma Node.settled_of_avoids {n : Node} (hx : n.Avoids x) (hy : n.Avoids y) :
    n.Settled (Equiv.swap x y) :=
  settled_swap (fun m hm h => hx m hm (mentions_of_binds h))
    fun m hm h => hy m hm (mentions_of_binds h)

lemma Closure.respell_refl (c : Closure) : c.respell (.refl _) = c := by
  have hparams : c.params.map (Node.respell (.refl _)) = c.params :=
    (List.map_congr_left fun p _ => Node.respell_refl p).trans (List.map_id _)
  rw [respell, hparams, Node.respell_refl]

lemma Closure.Avoids.respell_swap {c : Closure} (hx : c.Avoids x)
    (hy : c.Avoids y) : c.respell (Equiv.swap x y) = c := by
  have hparams : c.params.map (Node.respell (Equiv.swap x y)) = c.params :=
    (List.map_congr_left fun p hp => (hx.1 p hp).respell_swap (hy.1 p hp)).trans
      (List.map_id _)
  rw [respell, hparams, hx.2.respell_swap hy.2]

namespace Store.Neutral

variable {s : Store} {e d : ℕ} {v : Value} (h : s.Neutral x y e)

include h

/-- A function that is reached is the same as itself. -/
lemma closure {c : Closure}
    (hc : ReflTransGen s.Link (.frame e) (.value (.function c))) :
    c.Respelled (Equiv.swap x y) (s.reading x y e) c := by
  have hnamed : c.Named := Value.Named.function (h.named.of_links hc _ rfl)
  have hframe : s.Reaches e c.frame := hc.tail .function
  rcases h.blind _ hc with hdiscreet | ⟨⟨hx, hy⟩, hfree⟩
  · have hself := Closure.Respelled.mk (r := s.reading x y e)
      (mem_reading_refl hframe) hnamed.params
      ⟨hnamed.body, Or.inr ⟨rfl, hdiscreet⟩⟩
    rwa [Closure.respell_refl] at hself
  · have hself := Closure.Respelled.mk (mem_reading_swap hframe hfree)
      hnamed.params ⟨hnamed.body, Or.inl ⟨rfl, Node.settled_of_avoids hx.2 hy.2⟩⟩
    rwa [hx.respell_swap hy] at hself

/-- So is every value. -/
lemma value (hv : ReflTransGen s.Link (.frame e) (.value v)) :
    v.Respelled (Equiv.swap x y) (s.reading x y e) v := by
  induction v using Value.induct with
  | integer n => exact .integer n
  | boolean b => exact .boolean b
  | null => exact .null
  | string t => exact .string t
  | array vs ih =>
      exact .array (List.forall₂_same.mpr fun w hw =>
        ih w hw (hv.tail (.inside (.element hw))))
  | hash t ih =>
      refine .hash (List.forall₂_same.mpr ?_)
      rintro ⟨k, a, b⟩ hp
      exact .mk ((ih _ hp).1 (hv.tail (.inside (.key hp))))
        ((ih _ hp).2 (hv.tail (.inside (.value hp))))
  | returned w ih => exact .returned (ih (hv.tail (.inside .content)))
  | error f => exact .error f
  | function c => exact .function (h.closure hv)
  | builtin b => exact .builtin b
  -- a quote says neither name, and a tree that says neither is not changed by
  -- exchanging them
  | quote m =>
      obtain ⟨hx, hy⟩ := h.blind _ hv
      have hnamed : m.Named := (Value.every_iff.mp (h.named.of_links hv _ rfl)).1
      have hself := Value.Respelled.quote (r := s.reading x y e) hnamed
        (Node.settled_of_avoids hx hy)
      rwa [hx.respell_swap hy] at hself
  | macroFn c => exact .macroFn rfl

/-- So is every frame, in each way that it is read. -/
lemma frame {σ : Equiv.Perm String} (hσ : σ ∈ (s.reading x y e).frame d)
    {f : Frame} (hf : s.frames[d]? = some f) :
    f.Respelled (Equiv.swap x y) (s.reading x y e) σ f where
  bindings := by
    refine List.forall₂_map_left_iff.mpr (List.forall₂_same.mpr fun b hb => ?_)
    refine ⟨?_, h.value (hσ.1.tail (.bound hf hb))⟩
    rcases hσ.2 with rfl | ⟨rfl, hx, hy⟩
    · rfl
    · have hne : ∀ z, s.lookup d z = none → b.1 ≠ z := by
        rintro _ hz rfl
        rw [lookup_eq h.whole.nested.1 hf, Option.or_eq_none_iff] at hz
        have hkey := (Bindings.isSome_get? b.1 f.bindings).mpr
          (List.mem_map_of_mem hb)
        rw [hz.1] at hkey
        cases hkey
      exact Equiv.swap_apply_of_ne_of_ne (hne x hx) (hne y hy)
  outer := rfl
  reads o ho := by
    have hreaches : s.Reaches e o := hσ.1.tail (.outer hf ho)
    have hnone : ∀ z, s.lookup d z = none → s.lookup o z = none := by
      intro z hz
      rw [lookup_eq h.whole.nested.1 hf, ho, Option.or_eq_none_iff] at hz
      exact hz.2
    exact ⟨hreaches, hσ.2.imp id fun ⟨hσ, hx, hy⟩ =>
      ⟨hσ, hnone x hx, hnone y hy⟩⟩

/-- **Nothing tells the names.**  So read the store is the same as itself. -/
theorem respelled (quiet : Bool) :
    s.Respelled (Equiv.swap x y) quiet (s.reading x y e) s where
  frames d σ hσ := by
    have hd := (h.whole.of_links h.there hσ.1).1 d rfl
    have hf := Array.getElem?_eq_getElem hd
    exact ⟨_, _, hf, hf, h.frame hσ hf⟩
  readings d σ hσ := hσ.2.symm.imp And.left id
  size := rfl
  closures := rfl
  nested := ⟨h.whole.nested.1, h.whole.nested.1⟩
  printed _ := rfl

end Store.Neutral

/-! ### Renaming -/

/-- **Renaming.**  Of two names that neither functions of the language nor special
forms have, `y` is not mentioned in a program without faults and `x` is not bound
by `let` in it.  In a frame from which neither is bound and that leads to no
value that tells them, the program with `y` for `x` gives the same integer, truth
value or string, and prints the same if all that is printed are such values. -/
theorem eval_rename {source : String} {tracing : Bool} {n : Node} {s s' : Store}
    {depth e : ℕ} {v : Value} (hx : Ordinary x) (hy : Ordinary y)
    (hparsed : Session.parsed source tracing = .ok n) (hmentions : n.Avoids y)
    (hbinds : ∀ m ∈ n.postorder, ¬ m.Binds x) (hs : s.Neutral x y e)
    (hrun : eval depth n e s = some (.ok (some v), s'))
    (hv : v.isScalar = true) :
    ∃ t', eval depth (n.transform (Node.Rule.rename x y)) e s =
        some (.ok (some v), t') ∧
      ((∀ q args, ReflTransGen Moment.Calls ⟨depth, .eval n e, s⟩ q →
          q.job = .apply (.builtin .puts) args →
          ∀ a ∈ args, a.isScalar = true) →
        t'.printed = s'.printed) := by
  have hprogram := Session.parsed_eq_ok source tracing hparsed
  have hcomplete : n = .missing ∨ ∃ role, Node.Complete role n := by
    obtain ⟨ss, -, hss, hcomplete, -⟩ :=
      ofSource_complete (Session.parsed_clean source tracing hparsed)
    rw [hprogram, hss]
    exact Or.inr ⟨_, hcomplete⟩
  have hlegible : n.Legible (Equiv.swap x y) (s.reading x y e) (Equiv.swap x y)
      e := {
    reads := Store.mem_reading_swap .refl hs.free
    named := hprogram ▸ Parser.named_ofSource source tracing
    fits := Or.inl ⟨rfl, Node.settled_swap hbinds fun m hm h =>
      hmentions m hm (Node.mentions_of_binds h)⟩ }
  -- the run that only has the allowed calls is the run wherever they are allowed
  have hside : ∀ quiet : Bool,
      (∀ q f args, ReflTransGen Moment.Calls ⟨depth, .eval n e, s⟩ q →
        q.job = .apply f args → scalarsOnly quiet f args = true) →
      ∃ t', eval depth (n.respell (Equiv.swap x y)) e s =
        some (.ok (some v), t') ∧ (quiet = true → s'.printed = t'.printed) := by
    intro quiet hallowed
    have honly := (evalOnly_eq hallowed).trans hrun
    obtain ⟨w?, t', r', hrun', -, ht', hw⟩ :=
      (respells_evalOnly (hx.spares_swap hy) quiet depth _ _ e n hlegible).ok_inv
        (hs.respelled quiet) honly
    cases hw with
    | some hw =>
        rw [← hw.eq_of_isScalar hv] at hrun'
        exact ⟨t', evalOnly_refines depth _ e _ _ hrun', ht'.printed⟩
  rw [Node.rename_eq hcomplete hmentions]
  obtain ⟨t', hrun', -⟩ := hside false fun _ f args _ _ => by
    cases f with
    | builtin b => cases b <;> rfl
    | _ => rfl
  refine ⟨t', hrun', fun hscalars => ?_⟩
  obtain ⟨u', hrun'', hprinted⟩ := hside true fun q f args hq hjob => by
    cases f with
    | builtin b =>
        cases b with
        | puts => exact List.all_eq_true.mpr (hscalars q args hq hjob)
        | _ => rfl
    | _ => rfl
  obtain rfl : t' = u' :=
    congrArg Prod.snd (Option.some.inj (hrun'.symm.trans hrun''))
  exact (hprinted rfl).symm

/-- The body of `fn(x) \x7b quote(1 + unquote(x)) \x7d`. -/
def quotesNext : Node :=
  .block (.made .lbrace "\x7b") [.exprStmt (.made .ident "quote")
    (.call (.made .lparen "(") (.ofName "quote")
      [.infixOp (.made .plus "+") (.ofInt 1)
        (.call (.made .lparen "(") (.ofName "unquote") [.ofName "x"])])]

/-- A frame without names in which this function is bound. -/
def withNext : Store :=
  let root := Store.empty.addRoot.2
  let next := root.makeClosure [.ofName "x"] quotesNext 0
  next.2.bind 0 "next" (.function next.1)

lemma named_quotesNext : quotesNext.Named := by
  have hbuilds := Node.builds_named fun _ => True
  refine hbuilds.block _ _ (List.forall_mem_singleton.mpr
    (hbuilds.exprStmt _ _ (hbuilds.call _ _ _ (hbuilds.ident _)
      (List.forall_mem_singleton.mpr (hbuilds.infixOp _ _ _ ?_
        (hbuilds.call _ _ _ (hbuilds.ident _)
          (List.forall_mem_singleton.mpr (hbuilds.ident _))))))))
  exact Node.named_of_children rfl nofun

/-- It mentions `x` only in what it unquotes. -/
lemma discreet_quotesNext (π : Equiv.Perm String) :
    quotesNext.Discreet π := by
  intro t c arg hmem hquote
  have hcalls : Node.call t c [arg] = .call (.made .lparen "(")
        (.ofName "unquote") [.ofName "x"] ∨
      Node.call t c [arg] = .call (.made .lparen "(") (.ofName "quote")
        [.infixOp (.made .plus "+") (.ofInt 1)
          (.call (.made .lparen "(") (.ofName "unquote") [.ofName "x"])] := by
    simpa [quotesNext, Node.postorder, Node.postorderList, Node.ofName,
      Node.ofInt] using hmem
  rcases hcalls with h | h <;> cases h
  · cases hquote
  · exact .of_children (by decide) rfl (List.forall_mem_cons.mpr
      ⟨.of_children (by decide) rfl (List.forall_mem_nil _),
        List.forall_mem_singleton.mpr (.unquote rfl rfl)⟩)

lemma neutral_withNext : withNext.Neutral "x" "y" 0 where
  whole := by
    have hroot : Frame.Renamed Store.empty.identity ⟨[], none⟩ ⟨[], none⟩ :=
      ⟨.nil, .none⟩
    have hclose := (Store.whole_empty.addFrame hroot).close Nat.zero_lt_one
      [.ofName "x"] quotesNext
    exact hclose.1.bind Nat.zero_lt_one "next" (.function hclose.2)
  named := by
    have hroot : Store.empty.addRoot.2.Bound Value.Named :=
      Store.Bound.empty.addFrame nofun none
    have hnamed : Value.Named (.function
        (Store.empty.addRoot.2.makeClosure [.ofName "x"] quotesNext 0).1) :=
      Value.named_function
        ⟨List.forall_mem_singleton.mpr rfl, named_quotesNext⟩
    exact Store.Bound.bind (s := (Store.empty.addRoot.2.makeClosure
      [.ofName "x"] quotesNext 0).2) hroot 0 "next" hnamed
  there := Nat.zero_lt_one
  free := ⟨rfl, rfl⟩
  blind v hv := by
    -- from the root nothing is reached but the root and the closure that is
    -- bound there
    have hall : ∀ i, ReflTransGen withNext.Link (.frame 0) i → i = .frame 0 ∨
        ∃ c, i = .value (.function c) ∧ c.body = quotesNext ∧ c.frame = 0 := by
      intro i hi
      induction hi with
      | refl => exact Or.inl rfl
      | tail _ hlink ih =>
          rcases ih with rfl | ⟨c, rfl, hbody, hframe⟩
          · cases hlink with
            | bound hf hv =>
                cases hf
                cases List.mem_singleton.mp hv
                exact Or.inr ⟨_, rfl, rfl, rfl⟩
            | outer hf ho =>
                cases hf
                cases ho
          · cases hlink with
            | inside hw => cases hw
            | function => exact Or.inl (congrArg _ hframe)
    rcases hall _ hv with h | ⟨c, h, hbody, -⟩ <;> cases h
    exact Or.inl (hbody ▸ discreet_quotesNext _)

/-- A program with `x` as a parameter and as a name in a quote. -/
def usesNext : String :=
  "let f = fn(x) \x7b next(x) \x7d; puts(f(2) == quote(1 + 2)); quote(x) == quote(z)"

set_option maxRecDepth 4000 in
theorem eval_rename_usesNext : ∃ n s' t',
    Session.parsed usesNext false = .ok n ∧
    eval 12 n 0 withNext = some (.ok (some (.boolean false)), s') ∧
    s'.printed = #["true"] ∧
    eval 12 (n.transform (Node.Rule.rename "x" "y")) 0 withNext =
      some (.ok (some (.boolean false)), t') ∧
    ((∀ q args, ReflTransGen Moment.Calls ⟨12, .eval n 0, withNext⟩ q →
        q.job = .apply (.builtin .puts) args → ∀ a ∈ args, a.isScalar = true) →
      t'.printed = s'.printed) := by
  have hordinary : Ordinary "x" ∧ Ordinary "y" :=
    ⟨⟨rfl, by decide, by decide⟩, ⟨rfl, by decide, by decide⟩⟩
  obtain ⟨n, s', hn, hmentions, hbinds, hrun, hprinted⟩ : ∃ n s',
      Session.parsed usesNext false = .ok n ∧
      (∀ m ∈ n.postorder, ¬ m.Mentions "y") ∧
      (∀ m ∈ n.postorder, ¬ m.Binds "x") ∧
      eval 12 n 0 withNext = some (.ok (some (.boolean false)), s') ∧
      s'.printed = #["true"] :=
    ⟨_, _, rfl, by decide +kernel, by decide +kernel, rfl, by decide +kernel⟩
  obtain ⟨t', hrun', hprinted'⟩ := eval_rename hordinary.1 hordinary.2 hn
    hmentions hbinds neutral_withNext hrun rfl
  exact ⟨n, s', t', hn, hrun, hprinted, hrun', hprinted'⟩

/-- A frame without names in which a quote is bound that mentions `y`. -/
def withQuote : Store :=
  Store.empty.addRoot.2.bind 0 "q" (.quote (.ofName "y"))

/-- What `let` binds is not renamed, and a quote in the frame can be told from
the one with the new name only before. -/
theorem rename_differs :
    (Ordinary "x" ∧ Ordinary "y") ∧
    (∃ n s' t', Session.parsed "let x = 1; x" false = .ok n ∧
      n.definitions = [] ∧ n.Avoids "y" ∧
      eval 4 n 0 Store.empty.addRoot.2 =
        some (.ok (some (.integer 1)), s') ∧
      eval 4 (n.transform (Node.Rule.rename "x" "y")) 0 Store.empty.addRoot.2 =
        some (.error (.identifierNotFound "y"), t')) ∧
    ∃ n s' t', Session.parsed "q == quote(x)" false = .ok n ∧
      n.definitions = [] ∧ n.Avoids "y" ∧
      withQuote.lookup 0 "x" = none ∧ withQuote.lookup 0 "y" = none ∧
      eval 6 n 0 withQuote = some (.ok (some (.boolean false)), s') ∧
      eval 6 (n.transform (Node.Rule.rename "x" "y")) 0 withQuote =
        some (.ok (some (.boolean true)), t') := by
  refine ⟨⟨⟨rfl, by decide, by decide⟩, ⟨rfl, by decide, by decide⟩⟩,
    ⟨_, _, _, rfl, rfl, ?_, rfl, rfl⟩, ⟨_, _, _, rfl, rfl, ?_, rfl, rfl, rfl, rfl⟩⟩
  · show ∀ m ∈ _, ¬ _
    decide +kernel
  · show ∀ m ∈ _, ¬ _
    decide +kernel

end MonkeyLang

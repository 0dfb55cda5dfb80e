/-
Sessions within a regime.

* `Regime.sessions`: a regime followed along sessions, which also may have
  recorded more before;
* `Regime.Reads`: what a frame leads to by name is within the regime;
* `Lawful.moves_defined`: definitions of macros keep the regime;
* `Lawful.ends_expandAll_of`: so does expansion, if the arguments of macros
  are plain and the calls in their bodies are allowed;
* `Regime.Admits`, `Lawful.expand`, `Lawful.evaluate`: so do whole inputs, and
  so does every evaluation that they begin (`Lawful.begins`).
-/
import MonkeyLang.Proofs.Eval.Moments
import MonkeyLang.Proofs.Session.Phases

namespace MonkeyLang

namespace Regime

variable (R : Regime)

/-- One session may come after another one: its store may, and it works in the
same frames and is traced if the other is. -/
def follows (s t : Session) : Prop :=
  R.le s.store t.store ∧ t.program = s.program ∧ t.macros = s.macros ∧
    t.tracing = s.tracing

lemma follows_refl (s : Session) : R.follows s s :=
  ⟨R.refl s.store, rfl, rfl, rfl⟩

lemma follows_trans {s t u : Session} (h : R.follows s t)
    (h' : R.follows t u) : R.follows s u :=
  ⟨R.trans h.1 h'.1, h'.2.1.trans h.2.1, h'.2.2.1.trans h.2.2.1,
    h'.2.2.2.trans h.2.2.2⟩

/-- A regime followed along sessions, where nothing depends on what was
recorded before. -/
def sessions (before : Array Event) : World Session where
  good s := R.good s.store
  le := R.follows
  image s := { s with store := R.image s.store, events := before ++ s.events }
  refl := R.follows_refl
  trans := R.follows_trans

/-- What a frame leads to by name is within the regime, and the same in the
image of the store. -/
def Reads (e : ℕ) : Prop :=
  ∀ s name, R.good s → (R.image s).lookup e name = s.lookup e name ∧
    ∀ v, s.lookup e name = some v → R.value s v

/-- The regime covers the macros of a session. -/
structure Covers (s : Session) : Prop where
  good : R.good s.store
  macros : R.frame s.store s.macros
  reads : R.Reads s.macros

/-- The regime covers what an input comes to: the macros that it defines are
trees and so is the expanded program, arguments of macros are plain, and all
calls are allowed. -/
structure Admits (aim : Session.Aim) (depth : ℕ) (source : String)
    (s : Session) : Prop where
  definitions : ∀ n, Session.parsed source s.tracing = .ok n →
    ∀ d ∈ n.definitions, ∃ t, R.tree (.macroFn t d.2.1 d.2.2)
  arguments : ∀ n t callee args s₁ c,
    Session.parsed source s.tracing = .ok n →
    Node.Comes (Expanding.expandNode depth) n.remainder
      (s.prepared source n) (.call t callee args) s₁ →
    Expanding.macroOf? callee s₁ = some c → ∀ a ∈ args, R.plain a
  program : ∀ n s₁, s.expand depth source = some (.ok n, s₁) → R.tree n
  calls : ∀ m, s.Begins aim depth source m → R.Permits m

namespace Lawful

variable {R} (h : R.Lawful) (before : Array Event) {s : Session} {depth : ℕ}

include h

lemma reads_of_frame {e : ℕ} (he : ∀ s, R.good s → R.frame s e) :
    R.Reads e :=
  fun s name hs => h.lookup s e name hs (he s hs)

/-! ### Definitions of macros -/

/-- The definition of a macro keeps the regime. -/
lemma moves_defineMacro (name : String) (hs : R.good s.store)
    (hm : R.frame s.store s.macros) {t : Token} {params : List Node}
    {body : Node}
    (hn : R.tree (.macroFn t params body)) :
    (R.sessions before).Moves (Session.defineMacro name params body) s := by
  obtain ⟨himage, hgood, hle, hclosure⟩ :=
    (h.macroFn s.store s.macros t params body hs hm hn).modifyGet_inv
  obtain ⟨himage', hgood', hle'⟩ := h.bind _ s.macros name _ hgood
    (h.frame_mono hle hm) hclosure
  refine ⟨?_, hgood', R.trans hle hle', rfl, rfl, rfl⟩
  simp only [Session.defineMacro, Session.record, sessions, himage, himage']
  simp

/-- So do several ones. -/
lemma moves_defined {ds : List (String × List Node × Node)}
    (hs : R.good s.store) (hm : R.frame s.store s.macros)
    (hds : ∀ d ∈ ds, ∃ t, R.tree (.macroFn t d.2.1 d.2.2)) :
    (R.sessions before).Moves (Session.defined ds) s := by
  induction ds generalizing s with
  | nil => exact ⟨rfl, hs, R.follows_refl s⟩
  | cons d ds ih =>
      obtain ⟨t, ht⟩ := hds d List.mem_cons_self
      have hfirst := h.moves_defineMacro before d.1 hs hm ht
      have hmacros : (s.defineMacro d.1 d.2.1 d.2.2).macros = s.macros :=
        hfirst.le.2.2.1
      have hrest := ih hfirst.good
        (hmacros ▸ h.frame_mono hfirst.le.1 hm)
        fun d hd => hds d (List.mem_cons_of_mem _ hd)
      refine ⟨?_, hrest.good, R.follows_trans hfirst.le hrest.le⟩
      show Session.defined ds (Session.defineMacro _ _ _ _) = _
      rw [hfirst.image, hrest.image]
      rfl

/-! ### Expansion -/

omit h in
/-- A part of a program runs in the store of the session. -/
lemma ends_run {A : Store → Option Value → Prop} {r : Run (Option Value)}
    (hr : Ends R.toWorld A r s.store) :
    Ends (R.sessions before)
      (fun s out => ∀ v?, out = .ok v? → A s.store v?)
      (Expanding.run r) s where
  image := by
    show (r (R.image s.store)).map _ = ((r s.store).map _).map _
    rw [hr.image, Option.map_map, Option.map_map]
    rfl
  good hrun := by
    obtain ⟨⟨out, store⟩, hout, heq⟩ := Option.map_eq_some_iff.mp hrun
    cases heq
    exact hr.good hout
  le hrun := by
    obtain ⟨⟨out, store⟩, hout, heq⟩ := Option.map_eq_some_iff.mp hrun
    cases heq
    exact ⟨hr.le hout, rfl, rfl, rfl⟩
  answer hrun := by
    obtain ⟨⟨out, store⟩, hout, heq⟩ := Option.map_eq_some_iff.mp hrun
    cases heq
    rintro v? rfl
    exact hr.answer hout

omit h in
lemma ends_record (hs : R.good s.store) (event : Event) :
    Ends (R.sessions before) (fun _ _ => True)
      (modify (Session.record event) : Expanding Unit) s := by
  refine Ends.modifyGet (f := fun s => ((), Session.record event s)) ?_ hs
    ⟨R.refl _, rfl, rfl, rfl⟩ trivial
  simp [sessions, Session.record]

/-- The call of a macro with plain arguments gives a plain tree. -/
lemma ends_expandCall {c : Closure} {call callee : Node} {args : List Node}
    (hs : R.good s.store) (hc : R.value s.store (.macroFn c))
    (hargs : ∀ a ∈ args, R.plain a)
    (hcalls : ∀ e store, args.length = c.params.length →
      callFrame c (args.map .quote) s.store = some (.ok e, store) →
      R.Permits ⟨depth, .eval c.body e, store⟩) :
    Ends (R.sessions before) (fun _ n => R.plain n)
      (Expanding.expandCall depth c call callee args) s := by
  by_cases hcount : args.length = c.params.length
  · have hquotes : ∀ v ∈ args.map Value.quote, R.value s.store v := by
      intro v hv
      obtain ⟨a, ha, rfl⟩ := List.mem_map.mp hv
      exact h.quote s.store a (hargs a ha)
    have hbody := (h.enter s.store c _ hs (Or.inr hc) hquotes).bind
      fun e s₁ hframe hgood hle he =>
        (h.ends_eval depth c.body e s₁ (hcalls e s₁ hcount hframe) hgood
          ⟨he, h.body s₁ c (Or.inr (h.value_mono hle hc))⟩).bind
            fun v? s₂ _ hgood' _ hv => h.ends_deliver hgood' hv.1
    rw [Expanding.expandCall, if_pos hcount]
    refine (ends_run before hbody).bind fun out s₁ _ hgood _ hout => ?_
    split
    · next n _ =>
      have hn : R.plain n :=
        h.syntaxOf s₁.store _ n (hout _ rfl _ rfl) rfl
      exact (ends_record before hgood _).bind fun _ _ _ hgood' _ _ =>
        Ends.pure hgood' hn
    · exact Ends.throw hgood _
    · exact Ends.throw hgood _
  · rw [Expanding.expandCall, if_neg hcount]
    exact Ends.throw (W := R.sessions before) hs _

/-- Expansion keeps what is asked of trees, if it is asked of no more than
plain ones and arguments of macros are plain. -/
lemma ends_expandAll_of {T : Node → Prop} {K : Node → Node → Prop} {n : Node}
    (hK : Node.Rebuilds T K) (hplain : ∀ m c, R.plain c → T c ∧ K m c)
    (hs : R.good s.store) (hreads : R.Reads s.macros) (hn : T n)
    (hargs : ∀ t callee args s₁ c,
      Node.Comes (Expanding.expandNode depth) n s (.call t callee args) s₁ →
      T (.call t callee args) → Expanding.macroOf? callee s₁ = some c →
      ∀ a ∈ args, R.plain a)
    (hcalls : ∀ t callee args s₁ c e store,
      Node.Comes (Expanding.expandNode depth) n s (.call t callee args) s₁ →
      Expanding.macroOf? callee s₁ = some c → args.length = c.params.length →
      callFrame c (args.map .quote) s₁.store = some (.ok e, store) →
      R.Permits ⟨depth, .eval c.body e, store⟩) :
    Ends.RuleKeeps (R.sessions before) (Expanding.expandNode depth) T K n s ∧
    Ends (R.sessions before) (fun _ c => T c ∧ K n c)
      (Expanding.expandAll depth n) s := by
  suffices hrule : Ends.RuleKeeps (R.sessions before)
      (Expanding.expandNode depth) T K n s from
    ⟨hrule, Ends.transformM hK hn hs hrule⟩
  intro m s₁ hcomes hm hgood hle
  have hreads₁ : R.Reads s₁.macros := hle.2.2.1 ▸ hreads
  have himage : ∀ callee,
      Expanding.macroOf? callee ((R.sessions before).image s₁) =
        Expanding.macroOf? callee s₁ := fun callee =>
    Expanding.macroOf?_congr fun name => (hreads₁ s₁.store name hgood).1
  -- whether a call is one of a macro is asked where the expansion has come to,
  -- and answered alike from the image
  by_cases hcall : ∃ t callee args c, m = .call t callee args ∧
      Expanding.macroOf? callee s₁ = some c
  · obtain ⟨t, callee, args, c, rfl, hcallee⟩ := hcall
    obtain ⟨name, hname⟩ := Expanding.macroOf?_inv hcallee
    have hvalue := (hreads₁ s₁.store name hgood).2 _ hname
    refine ((h.ends_expandCall before hgood hvalue
      (hargs t callee args s₁ c hcomes hm hcallee)
      fun e store hcount hframe => hcalls t callee args s₁ c e store hcomes
        hcallee hcount hframe).congr
      (Expanding.expandNode_macro hcallee t args)
      (Expanding.expandNode_macro ((himage callee).trans hcallee) t args)).mono
      fun _ c _ _ _ hc => hplain _ c hc
  · have hother : ∀ t callee args, m = .call t callee args →
        Expanding.macroOf? callee s₁ = none := by
      intro t callee args hm
      by_contra hcallee
      obtain ⟨c, hc⟩ := Option.ne_none_iff_exists'.mp hcallee
      exact hcall ⟨t, callee, args, c, hm, hc⟩
    refine (Ends.pure hgood (A := fun _ c => T c ∧ K m c) (a := m)
      ⟨hm, hK.refl m⟩).congr (Expanding.expandNode_other hother)
      (Expanding.expandNode_other fun t callee args hm =>
        (himage callee).trans (hother t callee args hm))

/-! ### Inputs -/

variable {aim : Session.Aim} {source : String}

/-- Parsing an input and binding its macros keeps the regime. -/
lemma moves_prepared (source : String) {n : Node} (hs : R.Covers s)
    (hdefinitions : ∀ d ∈ n.definitions, ∃ t, R.tree (.macroFn t d.2.1 d.2.2)) :
    (R.sessions before).Moves (Session.prepared source n) s := by
  have hdefined := h.moves_defined before
    (s := s.heard source) hs.good hs.macros hdefinitions
  refine ⟨?_, hdefined.good, hdefined.le⟩
  have hheard : Session.heard source ((R.sessions before).image s) =
      (R.sessions before).image (s.heard source) := by
    simp only [Session.heard, sessions, Session.mk.injEq, true_and]
    exact Array.ext' (by simp)
  show Session.defined _ (Session.heard _ _) = _
  rw [hheard]
  exact hdefined.image

/-- The expansion of an input that is admitted. -/
lemma ends_prepared {n : Node} (hs : R.Covers s)
    (ha : R.Admits aim depth source s)
    (hn : Session.parsed source s.tracing = .ok n) :
    Ends.RuleKeeps (R.sessions before) (Expanding.expandNode depth)
      (fun _ => True) (fun _ _ => True) n.remainder (s.prepared source n) ∧
    Ends (R.sessions before) (fun _ _ => True)
      (Expanding.expandAll depth n.remainder) (s.prepared source n) := by
  have hprepared := h.moves_prepared before source hs
    (ha.definitions n hn)
  obtain ⟨hrule, hends⟩ := h.ends_expandAll_of before
    Node.rebuilds_true (fun _ _ _ => ⟨trivial, trivial⟩) hprepared.good
    (hprepared.le.2.2.1 ▸ hs.reads) trivial
    (fun t callee args s₁ c hcomes _ =>
      ha.arguments n t callee args s₁ c hn hcomes)
    fun t callee args s₁ c e store hcomes hcallee hcount hframe =>
      ha.calls _ (.body hn hcomes hcallee hcount hframe)
  exact ⟨hrule, hends.mono fun _ _ _ _ _ _ => trivial⟩

omit before in
/-- **Expansion.**  The expansion of an input that the regime admits keeps the
regime, whatever comes of it. -/
theorem expand {out : Except Failure Node} {s' : Session} (hs : R.Covers s)
    (ha : R.Admits aim depth source s)
    (hrun : s.expand depth source = some (out, s')) :
    R.good s'.store ∧ R.follows s s' := by
  rcases Session.expand_inv hrun with
    ⟨f, -, -, rfl⟩ | ⟨n, result, hn, hexpand, -⟩
  · exact ⟨hs.good, R.refl s.store, rfl, rfl, rfl⟩
  · have hprepared := h.moves_prepared #[] source hs (ha.definitions n hn)
    have hends := (h.ends_prepared #[] hs ha hn).2
    exact ⟨hends.good hexpand,
      R.follows_trans hprepared.le (hends.le hexpand)⟩

/-- It goes alike from the image of the session. -/
theorem expand_image (hs : R.Covers s)
    (ha : R.Admits aim depth source s) :
    ((R.sessions before).image s).expand depth source =
      (s.expand depth source).map
        fun p => (p.1, (R.sessions before).image p.2) := by
  have htracing : ((R.sessions before).image s).tracing = s.tracing := rfl
  rcases hparsed : Session.parsed source s.tracing with f | n
  · rw [Session.expand_of_rejected hparsed,
      Session.expand_of_rejected (htracing ▸ hparsed)]
    refine congrArg some (Prod.ext rfl ?_)
    simp only [Session.heard, sessions, Session.mk.injEq, true_and]
    exact Array.ext' (by simp)
  · have hprepared := h.moves_prepared before source hs
      (ha.definitions n hparsed)
    have hends := (h.ends_prepared before hs ha hparsed).2
    rw [Session.expand_of_parsed hparsed,
      Session.expand_of_parsed (htracing ▸ hparsed), hprepared.image]
    show (Expanding.expandAll depth n.remainder _).map _ =
      ((Expanding.expandAll depth n.remainder _).map _).map _
    rw [hends.image, Option.map_map, Option.map_map]
    rfl

/-- Where an expansion comes to the call of a macro with plain arguments, the
body of the macro starts within the regime. -/
lemma asked_of_comes {n callee : Node} {t : Token} {args : List Node}
    {s₁ : Session} {c : Closure} {e : ℕ} {store : Store}
    (hs : R.good s.store) (hreads : R.Reads s.macros)
    (hrule : Ends.RuleKeeps (R.sessions #[]) (Expanding.expandNode depth)
      (fun _ => True) (fun _ _ => True) n s)
    (hcomes : Node.Comes (Expanding.expandNode depth) n s
      (.call t callee args) s₁)
    (hcallee : Expanding.macroOf? callee s₁ = some c)
    (hargs : ∀ a ∈ args, R.plain a)
    (hframe : callFrame c (args.map .quote) s₁.store =
      some (.ok e, store)) :
    R.good store ∧ R.le s.store store ∧ R.asked store (.eval c.body e) := by
  obtain ⟨-, hgood, hle⟩ := Ends.of_comes Node.rebuilds_true hcomes trivial hs
    hrule
  obtain ⟨name, hname⟩ := Expanding.macroOf?_inv hcallee
  have hvalue : R.value s₁.store (.macroFn c) :=
    (hle.2.2.1 ▸ hreads) s₁.store _ hgood |>.2 _ hname
  have hquotes : ∀ v ∈ args.map Value.quote, R.value s₁.store v := by
    intro v hv
    obtain ⟨a, hmem, rfl⟩ := List.mem_map.mp hv
    exact h.quote s₁.store a (hargs a hmem)
  have henter := h.enter s₁.store c _ hgood (Or.inr hvalue) hquotes
  exact ⟨henter.good hframe, R.trans hle.1 (henter.le hframe),
    henter.answer hframe,
    h.body store c (Or.inr (h.value_mono (henter.le hframe) hvalue))⟩

/-- **Beginnings.**  Every evaluation that such an input begins starts within
the regime. -/
theorem begins {m : Moment} (hs : R.Covers s)
    (hprogram : aim = .evaluate → R.frame s.store s.program)
    (ha : R.Admits aim depth source s) (hm : s.Begins aim depth source m) :
    R.good m.store ∧ R.le s.store m.store ∧ R.asked m.store m.job := by
  cases hm with
  | @body n callee t args s₁ c e store hn hcomes hcallee hargs hframe =>
      have hprepared := h.moves_prepared #[] source hs
        (ha.definitions n hn)
      obtain ⟨hgood, hle, hasked⟩ := h.asked_of_comes hprepared.good
        (hprepared.le.2.2.1 ▸ hs.reads) (h.ends_prepared #[] hs ha hn).1 hcomes
        hcallee (ha.arguments n t callee args s₁ c hn hcomes hcallee) hframe
      exact ⟨hgood, R.trans hprepared.le.1 hle, hasked⟩
  | @program n s₁ haim hexpand =>
      obtain ⟨hgood, hle⟩ := h.expand hs ha hexpand
      exact ⟨hgood, hle.1, hle.2.1 ▸ h.frame_mono hle.1 (hprogram haim),
        ha.program n s₁ hexpand⟩

/-- So does every job inside it. -/
theorem inside_begins {m q : Moment} (hs : R.Covers s)
    (hprogram : aim = .evaluate → R.frame s.store s.program)
    (ha : R.Admits aim depth source s)
    (hm : s.Begins aim depth source m)
    (hq : Relation.ReflTransGen Moment.Calls m q) : R.Inside m q := by
  obtain ⟨hgood, -, hasked⟩ := h.begins hs hprogram ha hm
  exact h.inside hq (ha.calls m hm) hgood hasked

/-- **Evaluation.**  The evaluation of an input that the regime admits keeps
the regime, whatever comes of it. -/
theorem evaluate {out : Except Failure (Option Value)} {s' : Session}
    (hs : R.Covers s) (hprogram : R.frame s.store s.program)
    (ha : R.Admits .evaluate depth source s)
    (hrun : s.evaluate depth source = some (out, s')) :
    R.good s'.store ∧ R.follows s s' := by
  rcases Session.evaluate_inv hrun with
    ⟨f, hexpand, -⟩ | ⟨n, t, result, store, hexpand, heval, -, rfl⟩
  · exact h.expand hs ha hexpand
  · obtain ⟨-, hle⟩ := h.expand hs ha hexpand
    have hends := (h.inside_begins hs (fun _ => hprogram) ha
      (.program rfl hexpand) .refl).ends
    exact ⟨hends.good heval, R.trans hle.1 (hends.le heval), hle.2⟩

/-- The result of an input, if it is a value and no error, is within the
regime if the expanded program is plain. -/
theorem evaluate_result {v : Value} {s' : Session} (hs : R.Covers s)
    (hprogram : R.frame s.store s.program)
    (ha : R.Admits .evaluate depth source s)
    (hplain : ∀ n s₁, s.expand depth source = some (.ok n, s₁) → R.plain n)
    (hrun : s.evaluate depth source = some (.ok (some v), s')) :
    v.kind = .error ∨ R.value s'.store v := by
  rcases Session.evaluate_inv hrun with
    ⟨f, -, hout⟩ | ⟨n, t, result, store, hexpand, heval, hout, rfl⟩
  · cases hout
  · have hends := (h.inside_begins hs (fun _ => hprogram) ha
      (.program rfl hexpand) .refl).ends
    cases result with
    | error f =>
        cases hout
        exact Or.inl rfl
    | ok v? =>
        cases hout
        exact Or.inr ((hends.answer heval).2 (hplain n t hexpand) v rfl)

/-! ### Inputs whose programs are within the regime -/

/-- Where trees are plain as soon as they stand in a macro's place, an input
is admitted if its program is a tree, with its definitions and without. -/
theorem admits_of_tree (hs : R.Covers s)
    (htree : ∀ n, Session.parsed source s.tracing = .ok n →
      R.tree n ∧ R.tree n.remainder)
    (hcalls : ∀ m, s.Begins aim depth source m → R.Permits m) :
    R.Admits aim depth source s := by
  have hdefinitions : ∀ n, Session.parsed source s.tracing = .ok n →
      ∀ d ∈ n.definitions, ∃ t, R.tree (.macroFn t d.2.1 d.2.2) := by
    rintro n hn ⟨name, params, body⟩ hd
    cases n with
    | program ss =>
        obtain ⟨k, hk, hdef⟩ := List.mem_filterMap.mp hd
        obtain ⟨t, u, v, rfl⟩ := Node.macroDefinition?_inv hdef
        have hlet := h.trees.tail _ (htree _ hn).1 _ hk
        exact ⟨v, h.trees.tree_of_plain _
          (h.trees.valued _ hlet _ List.mem_cons_self)⟩
    | _ => cases hd
  -- each tree that stands in a macro's place is plain, so that the program
  -- stays a tree while it is expanded
  have hends : ∀ n, Session.parsed source s.tracing = .ok n →
      Ends.RuleKeeps (R.sessions #[]) (Expanding.expandNode depth) R.tree
        (fun n m => R.plain n → R.plain m) n.remainder (s.prepared source n) ∧
      Ends (R.sessions #[])
        (fun _ c => R.tree c ∧ (R.plain n.remainder → R.plain c))
        (Expanding.expandAll depth n.remainder) (s.prepared source n) := by
    intro n hn
    have hprepared := h.moves_prepared #[] source hs
      (hdefinitions n hn)
    exact h.ends_expandAll_of #[] h.trees.rebuilds
      (fun m c hc => ⟨h.trees.tree_of_plain c hc, fun _ => hc⟩)
      hprepared.good (hprepared.le.2.2.1 ▸ hs.reads) (htree n hn).2
      (fun t callee args s₁ c _ hcall _ a ha =>
        h.trees.valued _ hcall a (List.mem_cons_of_mem _ ha))
      fun t callee args s₁ c e store hcomes hcallee hcount hframe =>
        hcalls _ (.body hn hcomes hcallee hcount hframe)
  refine ⟨hdefinitions, ?_, ?_, hcalls⟩
  · intro n t callee args s₁ c hn hcomes _ a ha
    have hprepared := h.moves_prepared #[] source hs
      (hdefinitions n hn)
    -- the call that is come to may hold results of macros; it is a tree all the
    -- same, and its arguments are plain
    obtain ⟨hcall, -, -⟩ := Ends.of_comes h.trees.rebuilds hcomes
      (htree n hn).2 hprepared.good (hends n hn).1
    exact h.trees.valued _ hcall a (List.mem_cons_of_mem _ ha)
  · intro n s₁ hexpand
    rcases Session.expand_inv hexpand with
      ⟨f, -, hout, -⟩ | ⟨k, result, hk, hrun, hout⟩
    · cases hout
    · cases result with
      | error f => cases hout
      | ok c =>
          cases hout
          exact ((hends k hk).2.answer hrun).1

end Lawful

end Regime

end MonkeyLang

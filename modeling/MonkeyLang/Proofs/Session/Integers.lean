/-
Integers in sessions.

* `Value.Fits`: a value whose own integers are in range: its number, the
  numbers that its entries lie under, the literals in its trees;
* `Value.Short`: a value with no more elements than an integer can count;
* `Value.safe_fits`: no step of evaluation leaves values that fit at any depth,
  as long as only short ones are handed over;
* `Session.StaysShort`: whatever an input hands over is short;
* `Node.CallFree`, `Session.staysShort_of_callFree`: an input without calls
  does, since it hands nothing over;
* `Session.Led.integers`: then every integer of the session is in range.
-/
import MonkeyLang.Proofs.Session.Values
import MonkeyLang.Proofs.Session.WellFormed
import MonkeyLang.Proofs.Tree.Literals
import Mathlib.Algebra.Group.Nat.Defs

namespace MonkeyLang

open Relation (ReflTransGen)

namespace Value

/-! ### Values that fit -/

/-- The integers of a value itself are in range, not counting those of the
values in it. -/
def Fits : Value → Prop
  | integer n => Integer.InRange n
  | hash t => ∀ p ∈ t, ∀ n, p.1 = .integer n → Integer.InRange n
  | function c | macroFn c => c.body.LiteralsFit
  | quote n => n.LiteralsFit
  | _ => True

/-- A string or an array has fewer than two to the power 63 elements. -/
def Short : Value → Prop
  | string s => s.length < 2 ^ 63
  | array vs => vs.length < 2 ^ 63
  | _ => True

lemma fits_wrap (n : Int) : Integer.InRange (wrap n) := wrap_bounds n

/-- What counts the elements of something short is in range. -/
lemma inRange_of_short {n : ℕ} (h : n < 2 ^ 63) : Integer.InRange n := by
  simp only [Integer.InRange, minInteger, maxInteger]
  omega

/-- What is made of values that fit fits. -/
lemma formed_fits : Formed (Every Fits) := by
  refine formed_every (fun v hv => ?_) fits_wrap nofun
    fun t k v h ht hk hkey => ?_
  · cases v <;> trivial
  · intro p hp n hn
    rcases Bindings.mem_set hp with rfl | hp
    · cases hn
      cases k with
      | integer m =>
          cases hkey
          exact hk
      | _ => cases hkey
    · exact ht p hp n hn

/-- No step of evaluation leaves values and trees that fit, as long as nothing
is handed over that is not short. -/
theorem safe_fits : Safe (Every Fits) Node.LiteralsFit Node.LiteralsFit
    (fun _ args => ∀ a ∈ args, a.Short) where
  formed := formed_fits
  trees := Node.hereditary_literalsFit.graded
  literal t n hn := every_of_empty (hn t n .refl) nofun
  quote _ hn := every_of_empty hn nofun
  -- a value that becomes a tree becomes one whose literals are in it already
  syntaxOf v n hv hn := by
    cases v with
    | integer k =>
        cases hn
        exact Node.literalsFit_intLit (hv _ .refl)
    | boolean b =>
        cases hn
        cases b <;> exact Node.literalsFit_of_children nofun nofun
    | quote m =>
        cases hn
        exact hv _ .refl
    | _ => cases hn
  function t id ps b e hn := every_of_empty
    (hn.child (List.mem_append_right ps List.mem_cons_self)) nofun
  macroFn t id ps b e hn := every_of_empty
    (hn.child (List.mem_append_right ps List.mem_cons_self)) nofun
  body c hc := hc.elim (fun hc => hc _ .refl) fun hc => hc _ .refl
  marked t n v _ hv := by
    refine every_iff.mpr ⟨trivial, ?_⟩
    rintro w ⟨⟩
    exact hv
  unmarked v hv := (every_iff.mp hv).2 v .content
  -- only the lengths of strings and arrays are integers that come from no
  -- others, and these are short
  result b args v hshort hargs hv := formed_fits.result
    (by
      rintro s rfl
      exact every_of_empty (inRange_of_short (hshort _ List.mem_cons_self))
        nofun)
    (by
      rintro vs rfl
      exact every_of_empty (inRange_of_short (hshort _ List.mem_cons_self))
        nofun)
    hargs hv

end Value

/-! ### Inputs -/

/-- The regime of values and trees that fit. -/
abbrev Regime.fits : Regime :=
  .ofValues (Value.Every Value.Fits) Node.LiteralsFit Node.LiteralsFit
    fun _ args => ∀ a ∈ args, a.Short

namespace Session

/-- No string and no array that an input hands to a function, be it in the
body of a macro, has too many elements to be counted. -/
def StaysShort (aim : Aim) (depth : ℕ) (source : String) (s : Session) :
    Prop :=
  ∀ m, s.Begins aim depth source m → ∀ q, ReflTransGen Moment.Calls m q →
    ∀ f args, q.job = .apply f args → ∀ a ∈ args, a.Short

variable {aim : Aim} {depth : ℕ} {source : String} {s : Session}

/-- The regime admits inputs that stay short. -/
lemma StaysShort.admits (h : s.StaysShort aim depth source)
    (hs : s.store.Bound (Value.Every Value.Fits)) :
    Regime.fits.Admits aim depth source s := by
  refine Value.safe_fits.lawful.admits_of_tree (Value.safe_fits.covers hs)
    (fun n hn => ?_) h
  have htree : n.LiteralsFit := by
    rw [parsed_eq_ok source s.tracing hn]
    exact Parser.literalsFit_ofSource source s.tracing
  refine ⟨htree, ?_⟩
  cases n with
  | program ss =>
      exact Node.literalsFit_of_children nofun fun m hm =>
        htree.child (List.mem_filter.mp hm).1
  | _ => exact htree

end Session

/-! ### Inputs without calls -/

/-- A tree without calls. -/
inductive Node.CallFree : Node → Prop where
  | node {n : Node} (hn : n.kind ≠ .call)
      (hchildren : ∀ m ∈ n.children, CallFree m) : CallFree n

namespace Node.CallFree

lemma child {n m : Node} (h : n.CallFree) (hm : m ∈ n.children) :
    m.CallFree := by
  cases h with
  | node _ hchildren => exact hchildren m hm

lemma hereditary : Hereditary CallFree where
  children _ hn _ hm := hn.child hm
  withChildren n cs hn hcs := by
    refine .node ?_ fun m hm => ?_
    · rw [kind_withChildren]
      cases hn with
      | node hkind _ => exact hkind
    · rcases mem_children_withChildren hm with hm | hm | rfl
      · exact hcs m hm
      · exact hn.child hm
      · exact .node nofun nofun

/-- Evaluating a tree without calls asks for nothing but its children. -/
lemma of_asks {rec : Node → ℕ → Run (Option Value)} {n : Node} {e : ℕ}
    {i : Job} {s s' : Store} (h : n.CallFree)
    (hi : Asks rec (.eval n e) s i s') :
    ∃ m d, i = .eval m d ∧ m.CallFree := by
  have hmiddle : ∀ {α : Type} (pre post : List α) (a : α),
      a ∈ pre ++ a :: post := fun pre post a =>
    List.mem_append_right pre List.mem_cons_self
  cases hi with
  | part hm =>
      exact ⟨_, _, rfl, h.child (mem_children_of_parts (hm ▸ hmiddle _ _ _))⟩
  | statement hm =>
      exact ⟨_, _, rfl, h.child (mem_children_of_tailParts
        (mem_tailParts_of_statements (hm ▸ hmiddle _ _ _)))⟩
  | key =>
      exact ⟨_, _, rfl, h.child (List.mem_flatMap.mpr
        ⟨_, hmiddle _ _ _, List.mem_cons_self⟩)⟩
  | value =>
      exact ⟨_, _, rfl, h.child (List.mem_flatMap.mpr
        ⟨_, hmiddle _ _ _, List.mem_cons_of_mem _ List.mem_cons_self⟩)⟩
  | consequence => exact ⟨_, _, rfl, h.child (by simp [children])⟩
  | alternative => exact ⟨_, _, rfl, h.child (by simp [children])⟩
  | unquote | call =>
      cases h with
      | node hkind _ => exact absurd rfl hkind

/-- So does all that lies inside. -/
lemma of_calls {p q : Moment} (hpq : ReflTransGen Moment.Calls p q)
    (hp : ∃ n e, p.job = .eval n e ∧ n.CallFree) :
    ∃ n e, q.job = .eval n e ∧ n.CallFree := by
  induction hpq with
  | refl => exact hp
  | tail _ hstep ih =>
      obtain ⟨n, e, hjob, hn⟩ := ih
      cases hstep with
      | ofEval hi =>
          cases hjob
          exact hn.of_asks hi
      | ofApply => cases hjob

/-- Expanding a tree without calls comes to trees without calls. -/
lemma ends_expandAll {depth : ℕ} {n : Node} {s : Session} (hn : n.CallFree) :
    Ends.RuleKeeps (.free Session) (Expanding.expandNode depth) CallFree
      (fun n m => n.CallFree → m.CallFree) n s ∧
    Ends (.free Session) (fun _ m => m.CallFree ∧ (n.CallFree → m.CallFree))
      (Expanding.expandAll depth n) s := by
  have hrule : Ends.RuleKeeps (.free Session) (Expanding.expandNode depth)
      CallFree (fun n m => n.CallFree → m.CallFree) n s := by
    intro m s' _ hm _ _
    have hother : ∀ s, Expanding.expandNode depth m s = some (.ok m, s) := by
      refine fun s => Expanding.expandNode_other ?_
      rintro t callee args rfl
      cases hm with
      | node hkind _ => exact absurd rfl hkind
    exact (Ends.pure (W := .free Session) trivial (A := fun _ c =>
      c.CallFree ∧ (m.CallFree → c.CallFree)) ⟨hm, id⟩).congr (hother s')
      (hother s')
  exact ⟨hrule, Ends.transformM hereditary.graded.rebuilds hn trivial hrule⟩

end Node.CallFree

/-- An input without calls hands nothing over. -/
theorem Session.staysShort_of_callFree {depth : ℕ} {source : String}
    {s : Session}
    (h : ∀ n, parsed source s.tracing = .ok n → n.remainder.CallFree)
    (aim : Aim) : s.StaysShort aim depth source := by
  intro m hm q hq f args hjob
  cases hm with
  | @body n callee t args s₁ c e store hn hcomes hcallee hargs hframe =>
      -- the expansion comes to no call, so no macro runs
      obtain ⟨hcall, -⟩ := Ends.of_comes
        Node.CallFree.hereditary.graded.rebuilds hcomes (h n hn) trivial
        (Node.CallFree.ends_expandAll (h n hn)).1
      cases hcall with
      | node hkind _ => exact absurd rfl hkind
  | @program k s₁ haim hexpand =>
      have hk : k.CallFree := by
        rcases expand_inv hexpand with
          ⟨g, -, hout, -⟩ | ⟨n, result, hn, hrun, hout⟩
        · cases hout
        · cases result with
          | error g => cases hout
          | ok c =>
              cases hout
              exact ((Node.CallFree.ends_expandAll (h n hn)).2.answer hrun).1
      obtain ⟨l, d, hl, -⟩ := Node.CallFree.of_calls hq ⟨k, _, rfl, hk⟩
      rw [hl] at hjob
      cases hjob

/-! ### All integers -/

namespace Session

/-- **Integers stay in range.**  In a session of inputs that stay short every
integer is one of 64 bits: in whatever a frame leads to, be it the program's
or that of the macros, in all that the evaluations which an input begins find,
hand over, be it to print it, and give, and in its result; likewise hash keys
and the literals in functions, macros and quotes. -/
theorem Led.integers {s : Session} (h : Led StaysShort s) :
    (∀ e v, ReflTransGen s.store.Link (.frame e) (.value v) → v.Fits) ∧
    ∀ aim depth source, s.StaysShort aim depth source →
      (∀ m q, s.Begins aim depth source m → ReflTransGen Moment.Calls m q →
        q.Only (Value.Every Value.Fits)) ∧
      (aim = .evaluate → ∀ v s',
        s.evaluate depth source = some (.ok (some v), s') →
        Value.Every Value.Fits v) := by
  have hbound : s.store.Bound (Value.Every Value.Fits) :=
    h.bound Value.safe_fits fun hs hP => hP.admits hs
  have hlawful := Value.safe_fits.lawful
  have hcovers := Value.safe_fits.covers hbound
  refine ⟨fun e v hv => hbound.of_links hv v rfl v .refl,
    fun aim depth source hs => ⟨?_, ?_⟩⟩
  · intro m q hm hq
    exact (hlawful.inside_begins hcovers (fun _ => trivial) (hs.admits hbound)
      hm hq).only
  · rintro rfl v s' hrun
    have hadmits := hs.admits hbound
    rcases hlawful.evaluate_result hcovers trivial hadmits hadmits.program hrun
      with herror | hv
    · cases v with
      | error f => exact Value.every_of_empty trivial nofun
      | _ => cases herror
    · exact hv

/-- A sum that is too great for 64 bits. -/
def wrappedSum : String := "9223372036854775807 + 1"

/-- What it is parsed to. -/
lemma parsed_wrappedSum : ∃ t p q r,
    parsed wrappedSum false = .ok (.program [.exprStmt t
      (.infixOp ⟨.plus, "+", p⟩ (.intLit q 9223372036854775807)
        (.intLit r 1))]) :=
  ⟨_, _, _, _, rfl⟩

/-- It wraps around in every session. -/
lemma evaluate_wrappedSum {s : Session} (hs : s.tracing = false) :
    ∃ s', s.evaluate 20 wrappedSum =
      some (.ok (some (.integer (-9223372036854775808))), s') := by
  obtain ⟨t, p, q, r, hsum⟩ := parsed_wrappedSum
  rw [Session.evaluate, expand_of_parsed (hs ▸ hsum)]
  exact ⟨_, rfl⟩

/-- Such a sum in a session that has bound a number before. -/
theorem Led.integers_wrappedSum : ∃ s s',
    Led StaysShort s ∧ s.store.lookup s.program "a" = some (.integer 9) ∧
    s.StaysShort .evaluate 20 wrappedSum ∧
    s.evaluate 20 wrappedSum =
      some (.ok (some (.integer (-9223372036854775808))), s') ∧
    (∀ e v, ReflTransGen s.store.Link (.frame e) (.value v) → v.Fits) ∧
    Value.Every Value.Fits (.integer (-9223372036854775808)) := by
  have hleaf : ∀ {n : Node}, n.kind ≠ .call → n.children = [] → n.CallFree :=
    fun hkind hnone => .node hkind (by rw [hnone]; nofun)
  -- inputs without calls hand nothing over, so that they stay short
  have hlet : (Session.start false).StaysShort .evaluate 20 "let a = 9;" := by
    refine staysShort_of_callFree (fun n hn => ?_) .evaluate
    obtain ⟨t, u, l, m, hlet⟩ : ∃ t u l m, parsed "let a = 9;" false =
        .ok (.program [.letStmt t u (.intLit l m)]) := ⟨_, _, _, _, rfl⟩
    cases hlet.symm.trans hn
    exact .node nofun (List.forall_mem_singleton.mpr
      (.node nofun (List.forall_mem_singleton.mpr (hleaf nofun rfl))))
  obtain ⟨out, s, hrun, htracing, hbound⟩ : ∃ out s,
      (Session.start false).evaluate 20 "let a = 9;" = some (out, s) ∧
      s.tracing = false ∧
      s.store.lookup s.program "a" = some (.integer 9) :=
    ⟨_, _, rfl, rfl, rfl⟩
  have hled : Led StaysShort s := .evaluate (.start false) hlet hrun
  have hsum : s.StaysShort .evaluate 20 wrappedSum := by
    refine staysShort_of_callFree (fun n hn => ?_) .evaluate
    obtain ⟨t, p, q, r, hparsed⟩ := parsed_wrappedSum
    rw [htracing] at hn
    cases hparsed.symm.trans hn
    exact .node nofun (List.forall_mem_singleton.mpr
      (.node nofun (List.forall_mem_singleton.mpr
        (.node nofun (List.forall_mem_cons.mpr ⟨hleaf nofun rfl,
          List.forall_mem_singleton.mpr (hleaf nofun rfl)⟩)))))
  obtain ⟨s', hresult⟩ := evaluate_wrappedSum htracing
  have hintegers := hled.integers
  exact ⟨s, s', hled, hbound, hsum, hresult, hintegers.1,
    (hintegers.2 _ _ _ hsum).2 rfl _ s' hresult⟩

end Session

end MonkeyLang

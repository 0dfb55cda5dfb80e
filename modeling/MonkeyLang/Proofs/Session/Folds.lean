/-
Sums of arrays in a session.

* `Session.foldDefinitions`, `Session.doubled`, `Session.doubledSum`: the inputs;
  `Session.ReadsAs`: their trees are known but for places;
* `Session.Resembles s t`: a session without macros whose store is the same as `t`
  but for names and places; `Resembles.evaluate`: a tree in no text comes to plain
  data there exactly as an input with this tree;
* `Session.Folders xs t`: the definitions and an array are bound in `t`;
  `Folders.doubled`, `Folders.doubledSum`: what the inputs come to;
* `Session.sums_doubles`: so it is in a new session.
-/
import MonkeyLang.Proofs.Eval.Folds
import MonkeyLang.Proofs.Session.Unexpanded
import MonkeyLang.Proofs.Value.Bare

namespace MonkeyLang

open FunctionDefinition Node

namespace Session

/-- The definitions of `map`, `reduce` and `sum`. -/
def foldDefinitions : String :=
  "
    let map = fn(arr, f) \x7b
      let iter = fn(arr, accumulated) \x7b
        if (len(arr) == 0) \x7b accumulated \x7d else \x7b iter(rest(arr), push(accumulated, f(first(arr)))) \x7d
      \x7d;
      iter(arr, []);
    \x7d;
    let reduce = fn(arr, initial, f) \x7b
      let iter = fn(arr, result) \x7b
        if (len(arr) == 0) \x7b result \x7d else \x7b iter(rest(arr), f(result, first(arr))) \x7d
      \x7d;
      iter(arr, initial);
    \x7d;
    let sum = fn(arr) \x7b reduce(arr, 0, fn(initial, el) \x7b initial + el \x7d) \x7d;
"

/-- An input that doubles the members of the array `xs`. -/
def doubled : String := "map(xs, fn(x) \x7b x * 2 \x7d)"

/-- An input that adds them up, too. -/
def doubledSum : String := "sum(map(xs, fn(x) \x7b x * 2 \x7d))"

/-- The trees of the definitions. -/
def folders : List FunctionDefinition := [FunctionDefinition.map, reduce, sum]

/-- The node of `{ x * 2 }`. -/
def doubles : Node :=
  blockOf (.made .ident "x") (.infixOp (.made .asterisk "*") (.ofName "x") (.ofInt 2))

/-- The tree of `map(xs, fn(x) { x * 2 })`. -/
def doubledNode : Node :=
  callOf "map" [.ofName "xs", functionOf ["x"] doubles]

/-! ### Parsing -/

/-- An input that defines no macro and has a given tree but for places. -/
def ReadsAs (source : String) (tracing : Bool) (m : Node) : Prop :=
  ∃ n, parsed source tracing = .ok n ∧ n.definitions = [] ∧ m.bare = n.bare

/-- The test whether a text is such an input. -/
def readsAs (cs : List Char) (tracing : Bool) (m : Node) : Bool :=
  let result := Parser.ofTokens
    (Piece.tokens .start (Piece.cut cs) ++ [Token.endAt (Position.start.after cs)])
    tracing
  result.diagnostics.isEmpty && result.program.definitions.isEmpty &&
    m.alike result.program

lemma ReadsAs.of_readsAs {source : String} {cs : List Char} {m : Node}
    (hsource : source = String.ofList cs)
    (h : ∀ tracing, readsAs cs tracing m = true) (tracing : Bool) :
    ReadsAs source tracing m := by
  simp only [readsAs, Bool.and_eq_true, List.isEmpty_iff, alike_iff] at h
  obtain ⟨⟨hclean, hplain⟩, hbare⟩ := h tracing
  have hstream : Token.stream source = Piece.tokens .start (Piece.cut cs) ++
      [Token.endAt (Position.start.after cs)] := by
    rw [Token.stream, hsource, String.toList_ofList]
  refine ⟨_, ?_, hplain, hbare⟩
  rw [parsed, Parser.ofSource, hstream, hclean]
  rfl

set_option maxRecDepth 8000 in
lemma readsAs_foldDefinitions (tracing : Bool) :
    ReadsAs foldDefinitions tracing (.program (folders.map node)) :=
  .of_readsAs rfl (by decide +kernel) tracing

lemma readsAs_doubled (tracing : Bool) :
    ReadsAs doubled tracing
      (.program [.exprStmt (.made .ident "map") doubledNode]) :=
  .of_readsAs rfl (by decide +kernel) tracing

lemma readsAs_doubledSum (tracing : Bool) :
    ReadsAs doubledSum tracing
      (.program [.exprStmt (.made .ident "sum") (callOf "sum" [doubledNode])]) :=
  .of_readsAs rfl (by decide +kernel) tracing

/-! ### Sessions without macros -/

/-- A session without macros whose store is like `t`, where its first frame is
that of the program and its second one that of the macros. -/
def Resembles (s : Session) (t : Store) : Prop :=
  t.frames[1]? = some ⟨[], none⟩ ∧ ∃ ρ, t.Renamed #[] #[] ρ s.store ∧
    ρ.frames.pair 0 s.program ∧ ρ.frames.pair 1 s.macros

namespace Resembles

variable {s : Session} {t t' : Store} {source name : String} {v : Value}

lemma start (tracing : Bool) :
    (Session.start tracing).Resembles (Session.start tracing).store := by
  have hwhole := (Led.start (P := fun _ _ _ _ => True) tracing).whole
  exact ⟨rfl, _, hwhole.store, ⟨rfl, hwhole.program⟩, ⟨rfl, hwhole.macros⟩⟩

lemma nested (h : s.Resembles t) : t.Nested := by
  obtain ⟨-, ρ, hstore, -⟩ := h
  exact hstore.nested.1

lemma lookup (h : s.Resembles t) (hv : t.lookup 0 name = some v) (hplain : v.Plain) :
    s.store.lookup s.program name = some v := by
  obtain ⟨-, ρ, hstore, hprogram, -⟩ := h
  have hlookup := hstore.lookup hprogram name
  rw [hv] at hlookup
  generalize s.store.lookup s.program name = w? at hlookup
  cases hlookup with
  | some hvw => rw [hvw.eq_of_plain hplain]

/-- No name is bound to a macro. -/
lemma lookup_macros (h : s.Resembles t) (name : String) :
    s.store.lookup s.macros name = none := by
  obtain ⟨hmacros, ρ, hstore, -, hpair⟩ := h
  have hlookup := hstore.lookup hpair name
  rw [Store.lookup_root hmacros rfl] at hlookup
  generalize s.store.lookup s.macros name = w? at hlookup
  cases hlookup
  rfl

lemma bind (h : s.Resembles t) (name : String) (xs : List ℤ) :
    (s.changeStore (Store.bind s.program name (.array (xs.map .integer)))).Resembles
      (t.bind 0 name (.array (xs.map .integer))) := by
  obtain ⟨hmacros, ρ, hstore, hprogram, hpair⟩ := h
  refine ⟨?_, ρ, hstore.bind hprogram name (.array ?_), hprogram, hpair⟩
  · show (t.frames.modify 0 _)[1]? = _
    rw [Array.getElem?_modify, if_neg Nat.zero_ne_one, hmacros]
  · refine List.forall₂_same.mpr fun v hv => ?_
    obtain ⟨x, -, rfl⟩ := List.mem_map.mp hv
    exact .integer x

/-- **Evaluation.**  A tree in no text comes to plain data exactly as an input
does that has this tree. -/
lemma evaluate (h : s.Resembles t) {m : Node} {v? : Option Value} {height : ℕ}
    (hreads : ReadsAs source s.tracing m)
    (hmacros : t'.frames[1]? = some ⟨[], none⟩)
    (hrun : eval height m 0 t = some (.ok v?, t'))
    (hplain : ∀ v, v? = some v → v.Plain) :
    ∃ s', s'.Resembles t' ∧ s'.tracing = s.tracing ∧
      ∀ depth, height ≤ depth → s.evaluate depth source = some (.ok v?, s') := by
  obtain ⟨n, hparsed, hnone, hbare⟩ := hreads
  -- no macro is bound in this session, so that no call is one of a macro
  have hcalled : ∀ m ∈ n.postorder, Expanding.called? s m = none := by
    intro m hm
    cases m with
    | call t callee args =>
      cases callee with
      | ident u =>
        rw [Expanding.called?, Expanding.macroOf?, h.lookup_macros]
      | _ => rfl
    | _ => rfl
  obtain ⟨-, ρ, hstore, hprogram, hpair⟩ := h
  -- the run of the tree is repeated on the text in a store that is the same up
  -- to fresh numbers, and plain data is the same there
  obtain ⟨w?, u, ρ', hrun', hρ, hstore', hvw⟩ :=
    ((Store.lockstep_renamed #[] #[]).evaluates_eval height ρ 0 s.program m n
      hprogram hbare).ok_inv hstore hrun
  obtain rfl : v? = w? := by
    cases hvw with
    | none => rfl
    | some hvw => rw [hvw.eq_of_plain (hplain _ rfl)]
  refine ⟨{ s.heard source with store := u }, ⟨hmacros, ρ', hstore',
    hρ.1 _ _ hprogram, hρ.1 _ _ hpair⟩, rfl, fun depth hdepth => ?_⟩
  have hdeep : eval depth n s.program s.store = some (.ok v?, u) :=
    eval_mono hdepth n s.program s.store _ hrun'
  rw [evaluate_of_expand (expand_uncalled hparsed hnone hcalled depth)]
  show ((eval depth n s.program s.store).map _).map _ = _
  rw [hdeep]
  rfl

end Resembles

end Session

/-! ### Doubling -/

/-- `fn(x) { x * 2 }` doubles. -/
lemma Value.Takes.doubles {s : Store} {frame id : ℕ} (hs : s.Scope frame) (x : ℤ) :
    (Value.function (.of ["x"] Session.doubles id frame)).Takes [.integer x] s
      (· = .integer (wrap (2 * x))) := by
  refine function_of_reckons hs rfl rfl
    (show ∀ p ∈ ["x"], Builtin.ofName? p = none by decide) fun t e h => .block ?_
  have hx : (Node.ofName "x").Reckons e t (· = .integer x) :=
    .own h rfl (.integer x)
  refine .infixOp hx (.intLit 2) ?_ (.integer _)
  show Except.ok (Value.integer (wrap (x * 2))) = _
  rw [Int.mul_comm]

/-- The sum of doubles that are wrapped. -/
lemma wrap_sum_doubles (xs : List ℤ) :
    wrap (xs.map fun x => wrap (2 * x)).sum = wrap (2 * xs.sum) := by
  induction xs with
  | nil => rfl
  | cons x xs ih =>
    simp only [wrap_eq_bmod] at ih ⊢
    rw [List.map_cons, List.sum_cons, Int.bmod_add_bmod, ← Int.add_bmod_bmod, ih,
      Int.add_bmod_bmod, List.sum_cons, Int.mul_add]

namespace Session

variable {t : Store} {xs : List ℤ}

/-- The program's frame has the definitions, and `xs` is bound there. -/
structure Folders (xs : List ℤ) (t : Store) : Prop extends t.Scope 0 where
  map : t.lookup 0 "map" = some (.function (FunctionDefinition.map.closure 0 0))
  reduce : t.lookup 0 "reduce" =
    some (.function (FunctionDefinition.reduce.closure 1 0))
  sum : t.lookup 0 "sum" = some (.function (FunctionDefinition.sum.closure 2 0))
  array : t.lookup 0 "xs" = some (.array (xs.map .integer))

lemma Folders.doubled (h : Folders xs t) :
    doubledNode.Reckons 0 t
      (· = .array (xs.map fun x => .integer (wrap (2 * x)))) := by
  have hmap : (Node.ofName "map").Reckons 0 t
      (· = .function (FunctionDefinition.map.closure 0 0)) :=
    .name h.toScope h.map (.function _)
  have hxs : (Node.ofName "xs").Reckons 0 t (· = .array (xs.map .integer)) :=
    .name h.toScope h.array (.array _)
  refine .callOf_function [.ofName "xs"] rfl hmap (.cons hxs .nil) fun _ => ?_
  exact .map h.toScope (.function _) Value.Proper.integer (.doubles h.toScope) xs

lemma Folders.doubledSum (h : Folders xs t) :
    (callOf "sum" [doubledNode]).Reckons 0 t
      (· = .integer (wrap (2 * xs.sum))) := by
  have hsum : (Node.ofName "sum").Reckons 0 t
      (· = .function (FunctionDefinition.sum.closure 2 0)) :=
    .name h.toScope h.sum (.function _)
  have hdoubled : doubledNode.Reckons 0 t
      (· = .array ((xs.map fun x => wrap (2 * x)).map .integer)) := by
    rw [List.map_map]
    exact h.doubled
  rw [← wrap_sum_doubles]
  exact .callOf rfl hsum (.cons hdoubled .nil) (.sum h.toScope h.reduce _)

/-- Integers are plain data, and so are their arrays. -/
lemma plain_integer (x : ℤ) : (Value.integer x).Plain :=
  Value.every_iff.mpr ⟨by simp [Value.kind], nofun⟩

lemma plain_integers {ι : Type} (ys : List ι) (f : ι → ℤ) :
    (Value.array (ys.map fun y => .integer (f y))).Plain := by
  refine Value.every_iff.mpr ⟨by simp [Value.kind], fun v hv => ?_⟩
  cases hv with
  | element hmem =>
    obtain ⟨y, -, rfl⟩ := List.mem_map.mp hmem
    exact plain_integer (f y)

/-- Within every bound on nesting that is high enough, an input has this value
and leads to this session. -/
def Gives (s : Session) (source : String) (v? : Option Value) (s' : Session) : Prop :=
  ∃ height, ∀ depth, height ≤ depth →
    s.evaluate depth source = some (.ok v?, s')

/-- The definitions are bound. -/
lemma gives_foldDefinitions (tracing : Bool) : ∃ s,
    s.Resembles ((Session.start tracing).store.define 0 folders) ∧
      s.tracing = tracing ∧ (Session.start tracing).Gives foldDefinitions none s := by
  have hrun : eval 3 (.program (folders.map node)) 0 (Session.start tracing).store =
      some (.ok none, (Session.start tracing).store.define 0 folders) :=
    bind_ok (sequence_definitions 0 0 folders none _)
  obtain ⟨s, hs, htracing, hgives⟩ := (Resembles.start tracing).evaluate
    (readsAs_foldDefinitions tracing) rfl hrun nofun
  exact ⟨s, hs, htracing, 3, hgives⟩

/-- Such is the store where they are bound and the array is, too. -/
lemma folders_define (tracing : Bool) (xs : List ℤ) :
    Folders xs (((start tracing).store.define 0 folders).bind 0 "xs"
      (.array (xs.map .integer))) := by
  have hframe : (((start tracing).store.define 0 folders).bind 0 "xs"
      (.array (xs.map .integer))).frames[0]? = some
        ⟨[("map", .function (FunctionDefinition.map.closure 0 0)),
          ("reduce", .function (FunctionDefinition.reduce.closure 1 0)),
          ("sum", .function (FunctionDefinition.sum.closure 2 0)),
          ("xs", .array (xs.map .integer))], none⟩ := rfl
  obtain ⟨s, hs, -⟩ := gives_foldDefinitions tracing
  have hscope := Store.Scope.root (hs.bind "xs" xs).nested hframe
    (show ∀ name ∈ ["map", "reduce", "sum", "xs"],
      Builtin.ofName? name = none by decide)
  have hlookup := Store.lookup_root hframe rfl
  exact ⟨hscope, hlookup "map", hlookup "reduce", hlookup "sum", hlookup "xs"⟩

/-- An input of one statement whose tree comes to plain data gives it, and `xs`
stays as it is. -/
lemma Folders.gives (h : Folders xs t) {s : Session} (hs : s.Resembles t)
    {source : String} {u : Token} {m : Node} {v : Value}
    (hreads : ReadsAs source s.tracing (.program [.exprStmt u m]))
    (hm : m.Reckons 0 t (· = v)) (hplain : v.Plain) (hnull : v ≠ .null) :
    ∃ s', s.Gives source (some v) s' ∧
      s'.store.lookup s'.program "xs" = some (.array (xs.map .integer)) := by
  obtain ⟨_, t', heval, hgrown, hproper, rfl⟩ := hm t (.refl t)
  obtain ⟨height, hrun⟩ := heval.exprStmt.program_single hproper hnull
  have hmacros : t'.frames[1]? = some ⟨[], none⟩ :=
    (hgrown.kept 1 (Array.getElem?_eq_some_iff.mp hs.1).1).trans hs.1
  obtain ⟨s', hs', -, hgives⟩ := hs.evaluate hreads hmacros hrun
    (by rintro _ ⟨⟩; exact hplain)
  have hxs : t'.lookup 0 "xs" = some (.array (xs.map .integer)) :=
    (hgrown.lookup_eq h.nested h.lt "xs").trans h.array
  exact ⟨s', ⟨height, hgives⟩, hs'.lookup hxs (plain_integers xs id)⟩

/-- **Recursion over arrays.**  Let the definitions of `map`, `reduce` and `sum` be
evaluated in a new session and `xs` be bound to an array of integers of any
length.  Then the members can be doubled, and the doubles, each of them wrapped,
stand in their order; so can they be added up, and the sum is the exact one,
doubled and wrapped.  Neither changes `xs`. -/
theorem sums_doubles (tracing : Bool) (xs : List ℤ) :
    ∃ s₁, (start tracing).Gives foldDefinitions none s₁ ∧
      let s₂ := s₁.changeStore
        (Store.bind s₁.program "xs" (.array (xs.map .integer)))
      (∃ s₃, s₂.Gives doubled
          (some (.array (xs.map fun x => .integer (wrap (2 * x))))) s₃ ∧
        s₃.store.lookup s₃.program "xs" = some (.array (xs.map .integer))) ∧
      ∃ s₃, s₂.Gives doubledSum (some (.integer (wrap (2 * xs.sum)))) s₃ ∧
        s₃.store.lookup s₃.program "xs" = some (.array (xs.map .integer)) := by
  obtain ⟨s₁, hs₁, rfl, hgives⟩ := gives_foldDefinitions tracing
  have hs₂ := hs₁.bind "xs" xs
  have hfolders := folders_define s₁.tracing xs
  refine ⟨s₁, hgives, ?_, ?_⟩
  · exact hfolders.gives hs₂ (readsAs_doubled _) hfolders.doubled
      (plain_integers xs _) nofun
  · exact hfolders.gives hs₂ (readsAs_doubledSum _) hfolders.doubledSum
      (plain_integer _) nofun

end Session

end MonkeyLang

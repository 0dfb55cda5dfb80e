/-
Functions of the language that go over an array.

* `Node.folds name next start`: the body of a function of an array `arr` that
  makes a function `iter` and calls it with `arr` and `start`: while members are
  left, `iter` calls itself with the rest and `next`;
* `Value.Takes.iterates`: the calls of `iter` compute a fold, by induction on the
  array, and `Value.Takes.folds`: so does the function around it;
* `FunctionDefinition.map`, `reduce`, `sum`: functions of this kind;
* `Value.Takes.map`, `Value.Takes.reduce`, `Value.Takes.sum`: what they compute.
-/
import MonkeyLang.Proofs.Eval.Definitions
import MonkeyLang.Proofs.Eval.Reckoning
import Mathlib.Algebra.Ring.Int.Defs

namespace MonkeyLang

open List (Forall₂)

/-! ### Trees in no text -/

namespace Node

/-- A block of one expression that starts with a token. -/
def blockOf (t : Token) (n : Node) : Node :=
  .block (.made .lbrace "\x7b") [.exprStmt t n]

/-- A call of what a name stands for. -/
def callOf (name : String) (args : List Node) : Node :=
  .call (.made .lparen "(") (.ofName name) args

/-- A function literal. -/
def functionOf (params : List String) (body : Node) : Node :=
  .function (.made .function "fn") (params.map .ofName) body

end Node

/-- The closure that it makes. -/
def Closure.of (params : List String) (body : Node) (id frame : ℕ) : Closure :=
  ⟨id, params.map .ofName, body, frame⟩

open Node Value

namespace Node.Reckons

variable {e : ℕ} {s : Store} {v f : Value} {V : Value → Prop} {args : List Node}
  {vs : List Value} {name : String}

lemma functionOf (params : List String) (body : Node) :
    (Node.functionOf params body).Reckons e s fun v =>
      ∃ id, v = .function (.of params body id e) :=
  function _

/-- Values of which all but the last one are known. -/
lemma exists_last {ws : List Value}
    (h : Forall₂ (fun V v => v.Proper ∧ V v) (vs.map (fun v w => w = v) ++ [V]) ws) :
    ∃ w, ws = vs ++ [w] ∧ V w := by
  induction vs generalizing ws with
  | nil =>
    cases h with
    | cons hw h =>
      cases h
      exact ⟨_, rfl, hw.2⟩
  | cons v vs ih =>
    cases h with
    | cons hv h =>
      obtain ⟨w, rfl, hw⟩ := ih h
      exact ⟨w, by rw [hv.2, List.cons_append], hw⟩

/-- A call with values that are known. -/
lemma callOf (hplain : SpecialForm.ofCallee? (.ofName name) = none)
    (hcallee : (ofName name).Reckons e s (· = f))
    (hargs : Forall₂ (fun n v => n.Reckons e s (· = v)) args vs)
    (happly : f.Takes vs s V) : (Node.callOf name args).Reckons e s V := by
  have hargs : Forall₂ (fun n V => n.Reckons e s V) args
      (vs.map fun v w => w = v) := List.forall₂_map_right_iff.mpr hargs
  refine call hplain hcallee hargs fun ws hws => ?_
  obtain rfl : vs = ws := by
    refine List.forall₂_eq_eq_eq ▸ ?_
    exact (List.forall₂_map_left_iff.mp hws).imp fun _ _ h => h.2.symm
  exact happly

/-- A call with values that are known and with a function. -/
lemma callOf_function (args : List Node) {params : List String} {body : Node}
    (hplain : SpecialForm.ofCallee? (.ofName name) = none)
    (hcallee : (ofName name).Reckons e s (· = f))
    (hargs : Forall₂ (fun n v => n.Reckons e s (· = v)) args vs)
    (happly : ∀ id, f.Takes (vs ++ [.function (.of params body id e)]) s V) :
    (Node.callOf name (args ++ [Node.functionOf params body])).Reckons e s V := by
  let isFunction (v : Value) : Prop := ∃ id, v = .function (.of params body id e)
  have hall : Forall₂ (fun n V => n.Reckons e s V)
      (args ++ [Node.functionOf params body])
      (vs.map (fun v w => w = v) ++ [isFunction]) :=
    List.rel_append (List.forall₂_map_right_iff.mpr hargs)
      (.cons (functionOf params body) .nil)
  refine call hplain hcallee hall fun ws hws => ?_
  obtain ⟨_, rfl, id, rfl⟩ := exists_last hws
  exact happly id

/-- A call of a function that the language comes with. -/
lemma builtinCall {b : Builtin} (hs : s.Scope e) (hb : b ≠ .puts)
    (hargs : Forall₂ (fun n v => n.Reckons e s (· = v)) args vs)
    (hresult : b.result vs = .ok v) (hv : v.Proper) :
    (Node.callOf b.name args).Reckons e s (· = v) := by
  have hplain : SpecialForm.ofCallee? (.ofName b.name) = none := by
    cases b <;> decide
  have hsilent : b.prints vs = [] := by
    cases b with
    | puts => exact absurd rfl hb
    | _ => rfl
  exact callOf hplain (builtin hs (Builtin.ofName?_name b)) hargs
    (.builtin hresult hv hsilent)

end Node.Reckons

/-! ### Folds -/

namespace Node

/-- The node of `{ if (len(arr) == 0) { name } else { iter(rest(arr), next) } }`. -/
def iterates (name : String) (next : Node) : Node :=
  blockOf (.made .ifKey "if") <| .conditional (.made .ifKey "if")
    (.infixOp (.made .eq "==") (callOf "len" [.ofName "arr"]) (.ofInt 0))
    (blockOf (.made .ident name) (.ofName name))
    (blockOf (.made .ident "iter")
      (callOf "iter" [callOf "rest" [.ofName "arr"], next]))

/-- The node of `{ let iter = fn(arr, name) { … }; iter(arr, start); }`. -/
def folds (name : String) (next start : Node) : Node :=
  .block (.made .lbrace "\x7b")
    [.letStmt (.made .letKey "let") (.made .ident "iter")
      (functionOf ["arr", name] (iterates name next)),
     .exprStmt (.made .ident "iter") (callOf "iter" [.ofName "arr", start])]

end Node

/-- What the parameters of `iter` are bound to in a call. -/
def iterBindings (name : String) (vs : List Value) (w : Value) :
    Bindings String Value := [("arr", .array vs), (name, w)]

namespace Node.Reckons

variable {s t : Store} {frame e : ℕ} {bs : Bindings String Value} {name : String}
  {v w w' f : Value} {vs : List Value} {V : Value → Prop} {next : Node}

/-- In a call with an array, the test whether it has no members. -/
lemma isEmpty (h : s.Inside frame bs t e)
    (harr : Bindings.get? "arr" bs = some (.array vs)) :
    (Node.infixOp (.made .eq "==") (Node.callOf "len" [.ofName "arr"])
      (.ofInt 0)).Reckons e t (· = .boolean vs.isEmpty) := by
  have hlen : (Node.callOf "len" [.ofName "arr"]).Reckons e t
      (· = .integer vs.length) :=
    builtinCall (b := .len) h.toScope nofun
      (.cons (own h harr (.array vs)) .nil) rfl (.integer _)
  refine infixOp hlen (intLit 0) ?_ (.boolean _)
  show Except.ok (Value.boolean (decide ((vs.length : ℤ) = 0))) = _
  cases vs with
  | nil => rfl
  | cons v vs => rfl

/-- Its first member. -/
lemma first (h : s.Inside frame bs t e)
    (harr : Bindings.get? "arr" bs = some (.array (v :: vs))) (hv : v.Proper) :
    (Node.callOf "first" [.ofName "arr"]).Reckons e t (· = v) :=
  builtinCall (b := .first) h.toScope nofun
    (.cons (own h harr (.array _)) .nil) rfl hv

/-- Its other members. -/
lemma rest (h : s.Inside frame bs t e)
    (harr : Bindings.get? "arr" bs = some (.array (v :: vs))) :
    (Node.callOf "rest" [.ofName "arr"]).Reckons e t (· = .array vs) :=
  builtinCall (b := .rest) h.toScope nofun
    (.cons (own h harr (.array _)) .nil) rfl (.array vs)

/-- Where no members are left `iter` gives what was gathered. -/
lemma iterates_nil (hname : "arr" ≠ name)
    (h : s.Inside frame (iterBindings name [] w) t e) (hw : w.Proper) :
    (Node.iterates name next).Reckons e t (· = w) := by
  have hgathered : (Node.ofName name).Reckons e t (· = w) :=
    own h ((if_neg hname).trans (if_pos rfl)) hw
  exact .block (conditional (isEmpty h rfl) rfl (fun _ => .block hgathered) nofun)

/-- Else it gives what it gives for the rest and what is gathered next. -/
lemma iterates_cons (hname : name ≠ "iter")
    (h : s.Inside frame (iterBindings name (v :: vs) w) t e)
    (hself : s.lookup frame "iter" = some f) (hf : f.Proper)
    (hnext : next.Reckons e t (· = w')) (hcall : f.Takes [.array vs, w'] t V) :
    (Node.iterates name next).Reckons e t V := by
  have hiter : (Node.ofName "iter").Reckons e t (· = f) :=
    around h ((if_neg (by decide)).trans (if_neg hname)) hself hf
  have hagain : (Node.callOf "iter"
      [Node.callOf "rest" [.ofName "arr"], next]).Reckons e t V :=
    callOf rfl hiter (.cons (rest h rfl) (.cons hnext .nil)) hcall
  exact .block (conditional (isEmpty h rfl) rfl nofun fun _ => .block hagain)

end Node.Reckons

namespace Value.Takes

section

variable {α β : Type} {item : β → Value} {put : α → Value} {step : α → β → α}
  {name : String} {next start : Node} {s : Store} {id frame : ℕ}
  (harr : "arr" ≠ name) (hiter : name ≠ "iter")
  (hown : Builtin.ofName? name = none) (hput : ∀ a, (put a).Proper)

include harr hiter hown hput

/-- **The loop.**  Calls of `iter` compute a fold if `next` computes its step in
the frame of every call. -/
theorem iterates (hs : s.Scope frame)
    (hself : s.lookup frame "iter" =
      some (.function (.of ["arr", name] (.iterates name next) id frame)))
    (hnext : ∀ a x vs t e,
      s.Inside frame (iterBindings name (item x :: vs) (put a)) t e →
        next.Reckons e t (· = put (step a x))) (xs : List β) (a : α) :
    (Value.function (.of ["arr", name] (.iterates name next) id frame)).Takes
      [.array (xs.map item), put a] s (· = put (xs.foldl step a)) := by
  have hbindings : ∀ vs w, parameterBindings
      (Closure.of ["arr", name] (.iterates name next) id frame).names
        [.array vs, w] = iterBindings name vs w := by
    intro vs w
    show Bindings.set name w [("arr", .array vs)] = _
    rw [Bindings.set, if_neg harr]
    rfl
  have hnames : ∀ vs w, ∀ p ∈ Bindings.keys (iterBindings name vs w),
      Builtin.ofName? p = none := by
    simpa [iterBindings, Bindings.keys] using ⟨by decide, hown⟩
  induction xs generalizing a with
  | nil =>
    refine function_of_reckons hs rfl (hbindings [] (put a)) (hnames _ _) ?_
    exact fun t e h => .iterates_nil harr h (hput a)
  | cons x xs ih =>
    refine function_of_reckons hs rfl (hbindings _ (put a)) (hnames _ _) ?_
    -- the frame of this call only adds to the store, so the rest is gone over in it
    exact fun t e h => .iterates_cons hiter h hself (.function _)
      (hnext a x _ t e h) ((ih (step a x)).mono h.grown)

/-- **The function around it** computes the fold from what `start` comes to. -/
theorem folds {c : Closure} {args : List Value} {bs : Bindings String Value}
    {xs : List β} {a : α} (hs : s.Scope c.frame)
    (hbody : c.body = .folds name next start)
    (hlength : args.length = c.params.length)
    (hbindings : parameterBindings c.names args = bs)
    (hparams : ∀ p ∈ Bindings.keys bs, Builtin.ofName? p = none)
    (harray : Bindings.get? "arr" bs = some (.array (xs.map item)))
    (hstart : ∀ f t e, s.Inside c.frame (Bindings.set "iter" f bs) t e →
      start.Reckons e t (· = put a))
    (hnext : ∀ f t e, s.Inside c.frame (Bindings.set "iter" f bs) t e →
      ∀ a x vs u d,
        t.Inside e (iterBindings name (item x :: vs) (put a)) u d →
          next.Reckons d u (· = put (step a x))) :
    (Value.function c).Takes args s (· = put (xs.foldl step a)) := by
  refine function hlength fun t ht => ?_
  rw [hbody, hbindings]
  -- the function `iter` is made in the frame of the call and bound there
  obtain ⟨_, u, hmade, hu, -, id, rfl⟩ :=
    Node.Reckons.functionOf ["arr", name] (.iterates name next) _
      (.refl (t.addFrame bs (some c.frame)).2)
  let iter : Value :=
    .function (.of ["arr", name] (.iterates name next) id t.frames.size)
  have hframe := ((Store.Inside.enter hs ht hparams).mono hu).bind
    (show Builtin.ofName? "iter" = none by decide) iter
  have hself : (u.bind t.frames.size "iter" iter).lookup t.frames.size "iter" =
      some iter := by
    rw [hframe.lookup_eq, Bindings.get?_set, if_pos rfl, Option.some_or]
  have hcall : (Node.callOf "iter" [.ofName "arr", start]).Reckons t.frames.size
      (u.bind t.frames.size "iter" iter) (· = put (xs.foldl step a)) := by
    have hiterName : (Node.ofName "iter").Reckons t.frames.size
        (u.bind t.frames.size "iter" iter) (· = iter) :=
      .name hframe.toScope hself (.function _)
    have harrName : (Node.ofName "arr").Reckons t.frames.size
        (u.bind t.frames.size "iter" iter) (· = .array (xs.map item)) :=
      .own hframe ((Bindings.get?_set ..).trans
        ((if_neg (by decide)).trans harray)) (.array _)
    exact .callOf rfl hiterName
      (.cons harrName (.cons (hstart _ _ _ hframe) .nil))
      (iterates harr hiter hown hput hframe.toScope hself
        (hnext _ _ _ hframe) xs a)
  obtain ⟨v, s₂, heval, hs₂, hproper, hv⟩ := hcall _ (.refl _)
  refine ⟨v, s₂, ?_, ?_, hproper, hv⟩
  · exact hmade.letStmt.block_cons .null
      (heval.exprStmt.block_single hproper)
  · have hgrown := (Store.Grown.addFrame bs (hs.mono ht).lt).trans hu
    exact (hgrown.bind le_rfl "iter" iter).trans hs₂

end

end Value.Takes

/-! ### The definitions -/

namespace FunctionDefinition

/-- The definition `let name = fn(x, …) { … };`. -/
def ofBody (name : String) (params : List String) (body : Node) :
    FunctionDefinition where
  key := .made .letKey "let"
  name := .made .ident name
  literal := .made .function "fn"
  params := params.map .ofName
  body := body

/-- The closure that a definition makes. -/
def closure (d : FunctionDefinition) (id frame : ℕ) : Closure :=
  ⟨id, d.params, d.body, frame⟩

/-- The definition of `map`. -/
def map : FunctionDefinition :=
  ofBody "map" ["arr", "f"] <| folds "accumulated"
    (callOf "push" [.ofName "accumulated",
      callOf "f" [callOf "first" [.ofName "arr"]]])
    (.array (.made .lbracket "[") [])

/-- The definition of `reduce`. -/
def reduce : FunctionDefinition :=
  ofBody "reduce" ["arr", "initial", "f"] <| folds "result"
    (callOf "f" [.ofName "result", callOf "first" [.ofName "arr"]])
    (.ofName "initial")

/-- The node of `{ initial + el }`. -/
def adds : Node :=
  blockOf (.made .ident "initial")
    (.infixOp (.made .plus "+") (.ofName "initial") (.ofName "el"))

/-- The definition of `sum`. -/
def sum : FunctionDefinition :=
  ofBody "sum" ["arr"] <| blockOf (.made .ident "reduce") <|
    callOf "reduce" [.ofName "arr", .ofInt 0, functionOf ["initial", "el"] adds]

end FunctionDefinition

/-- Wrapped sums from the left are the exact sum, wrapped once. -/
lemma foldl_wrap_add (xs : List ℤ) (a : ℤ) :
    xs.foldl (fun a x => wrap (a + x)) (wrap a) = wrap (a + xs.sum) := by
  induction xs generalizing a with
  | nil => rw [List.foldl_nil, List.sum_nil, Int.add_zero]
  | cons x xs ih =>
    have hstep : wrap (wrap a + x) = wrap (a + x) := by
      rw [wrap_eq_bmod, wrap_eq_bmod, wrap_eq_bmod, Int.bmod_add_bmod]
    rw [List.foldl_cons, hstep, ih, List.sum_cons, Int.add_assoc]

namespace Value.Takes

variable {α β : Type} {item : β → Value} {s : Store} {id frame : ℕ} {f : Value}

/-- **Map.**  The array of what `f` gives for the members, in their order. -/
theorem map (hs : s.Scope frame) (hf : f.Proper) (hitem : ∀ x, (item x).Proper)
    {g : β → Value} (hg : ∀ x, f.Takes [item x] s (· = g x)) (xs : List β) :
    (Value.function (FunctionDefinition.map.closure id frame)).Takes
      [.array (xs.map item), f] s (· = .array (xs.map g)) := by
  let step (ys : List Value) (x : β) : List Value := ys ++ [g x]
  have hfold : xs.foldl step [] = xs.map g := by
    rw [List.foldl_append_eq_append, List.nil_append]
    exact List.map_eq_flatMap.symm
  rw [← hfold]
  refine folds (by decide) (by decide) (by decide) Proper.array hs
    rfl rfl rfl (show ∀ p ∈ ["arr", "f"], Builtin.ofName? p = none by decide) rfl
    (fun _ t e _ => ?_) fun _ t e ht ys x vs u d hu => ?_
  · refine (Node.Reckons.array .nil).imp fun v hv => ?_
    obtain ⟨_, rfl, h⟩ := hv
    cases h
    rfl
  -- its body finds `f` in the frame around it and `accumulated` in its own
  · have hfName : (Node.ofName "f").Reckons d u (· = f) :=
      .around hu rfl (by rw [ht.lookup_eq]; rfl) hf
    have hfCall : (callOf "f" [callOf "first" [.ofName "arr"]]).Reckons d u
        (· = g x) :=
      .callOf rfl hfName (.cons (.first hu rfl (hitem x)) .nil)
        ((hg x).mono (ht.grown.trans hu.grown))
    have haccumulated : (Node.ofName "accumulated").Reckons d u (· = .array ys) :=
      .own hu rfl (.array ys)
    exact .builtinCall (b := .push) hu.toScope nofun
      (.cons haccumulated (.cons hfCall .nil)) rfl (.array _)

/-- **Reduce.**  The fold of what `f` gives, from `initial`. -/
theorem reduce {put : α → Value} {step : α → β → α} (hs : s.Scope frame)
    (hf : f.Proper) (hitem : ∀ x, (item x).Proper) (hput : ∀ a, (put a).Proper)
    (hstep : ∀ a x, f.Takes [put a, item x] s (· = put (step a x)))
    (xs : List β) (a : α) :
    (Value.function (FunctionDefinition.reduce.closure id frame)).Takes
      [.array (xs.map item), put a, f] s (· = put (xs.foldl step a)) := by
  refine folds (by decide) (by decide) (by decide) hput hs rfl rfl rfl
    (show ∀ p ∈ ["arr", "initial", "f"], Builtin.ofName? p = none by decide) rfl
    (fun _ t e ht => .own ht rfl (hput a)) fun _ t e ht a x vs u d hu => ?_
  have hfName : (Node.ofName "f").Reckons d u (· = f) :=
    .around hu rfl (by rw [ht.lookup_eq]; rfl) hf
  have hresult : (Node.ofName "result").Reckons d u (· = put a) :=
    .own hu rfl (hput a)
  exact .callOf rfl hfName
    (.cons hresult (.cons (.first hu rfl (hitem x)) .nil))
    ((hstep a x).mono (ht.grown.trans hu.grown))

/-- The function of two integers that `sum` hands to `reduce`. -/
lemma adds (hs : s.Scope frame) (a x : ℤ) :
    (Value.function (.of ["initial", "el"] FunctionDefinition.adds id frame)).Takes
      [.integer a, .integer x] s (· = .integer (wrap (a + x))) := by
  refine function_of_reckons hs rfl rfl
    (show ∀ p ∈ ["initial", "el"], Builtin.ofName? p = none by decide)
    fun t e h => .block ?_
  have hleft : (Node.ofName "initial").Reckons e t (· = .integer a) :=
    .own h rfl (.integer a)
  have hright : (Node.ofName "el").Reckons e t (· = .integer x) :=
    .own h rfl (.integer x)
  exact .infixOp hleft hright rfl (.integer _)

/-- **Sum.**  The exact sum of integers, wrapped. -/
theorem sum {id' : ℕ} (hs : s.Scope frame) (hreduce : s.lookup frame "reduce" =
      some (.function (FunctionDefinition.reduce.closure id' frame)))
    (xs : List ℤ) :
    (Value.function (FunctionDefinition.sum.closure id frame)).Takes
      [.array (xs.map .integer)] s (· = .integer (wrap xs.sum)) := by
  have hsum := foldl_wrap_add xs 0
  rw [Int.zero_add] at hsum
  rw [← hsum]
  refine function_of_reckons hs rfl rfl
    (show ∀ p ∈ ["arr"], Builtin.ofName? p = none by decide)
    fun t e h => .block ?_
  have hreduceName : (Node.ofName "reduce").Reckons e t
      (· = .function (FunctionDefinition.reduce.closure id' frame)) :=
    .around h rfl hreduce (.function _)
  have harrName : (Node.ofName "arr").Reckons e t
      (· = .array (xs.map .integer)) := .own h rfl (.array _)
  refine .callOf_function [.ofName "arr", .ofInt 0] rfl hreduceName
    (.cons harrName (.cons (.intLit 0) .nil)) fun _ => ?_
  exact reduce (hs.mono h.grown) (.function _) Proper.integer Proper.integer
    (adds h.toScope) xs 0

end Value.Takes

end MonkeyLang

/-
Values with other names in their trees.

* `Value.relabel π`: a value with `π` applied to all identifiers in the trees of
  its functions, macros and quotes and to the names in its faults;
* `relabel_relabel_symm`: nothing gets lost by that;
* `alike_relabel`, `prefixOp_relabel`, `infixOp_relabel`, `index_relabel`,
  `Builtin.result_relabel`: what is made of such values is the same, relabelled;
* `Value.Named`: the trees in a value have identifiers for parameters;
* `closed_named`: this is a closed property;
* `relabel_of_plain`: a value without trees and names stays as it is.
-/
import MonkeyLang.Proofs.Eval.Regime
import MonkeyLang.Proofs.Tree.Relabel
import MonkeyLang.Proofs.Value.Closed

namespace MonkeyLang

variable (π : Equiv.Perm String)

/-! ### Faults -/

/-- The fault, naming the identifier that stands in the place of the old
one. -/
def Fault.relabel : Fault → Fault
  | .identifierNotFound name => .identifierNotFound (π name)
  | f => f

/-- How the wording of a missing identifier starts. -/
lemma Fault.message_start (name : String) :
    (identifierNotFound name).message.toList.take 2 = ['i', 'd'] := by
  show ("identifier not found: " ++ name).toList.take 2 = _
  rw [String.toList_append]
  rfl

/-- No other fault has a wording that starts so. -/
lemma Fault.of_message_start {f : Fault}
    (h : f.message.toList.take 2 = ['i', 'd']) :
    ∃ name, f = .identifierNotFound name := by
  unfold message at h
  split at h
  case h_1 name => exact ⟨name, rfl⟩
  all_goals simp [String.toList_append] at h

/-- A fault with the wording of a missing identifier is one. -/
lemma Fault.eq_of_message {f : Fault} {name : String}
    (h : f.message = (identifierNotFound name).message) :
    f = .identifierNotFound name := by
  obtain ⟨name', rfl⟩ := of_message_start (h ▸ message_start name)
  have hnames : "identifier not found: " ++ name' =
      "identifier not found: " ++ name := h
  rw [String.append_right_inj] at hnames
  rw [hnames]

/-- Relabelled faults have the same wording if they had it before. -/
lemma Fault.message_relabel_inj (f g : Fault) :
    (f.relabel π).message = (g.relabel π).message ↔ f.message = g.message := by
  -- only one fault tells a name, and no other one has its wording
  have hsame : ∀ f : Fault, (∃ name, f = .identifierNotFound name) ∨
      (f.relabel π = f ∧ ∀ name, f ≠ .identifierNotFound name) := by
    intro f
    cases f with
    | identifierNotFound name => exact Or.inl ⟨name, rfl⟩
    | _ => exact Or.inr ⟨rfl, nofun⟩
  rcases hsame f with ⟨name, rfl⟩ | ⟨hf, hfnone⟩
  · rcases hsame g with ⟨name', rfl⟩ | ⟨hg, hgnone⟩
    · refine ⟨fun h => ?_, fun h => ?_⟩
      · have hnames := eq_of_message h
        simp_all [relabel]
      · have hnames := eq_of_message h
        rw [hnames]
    · rw [hg]
      exact ⟨fun h => absurd (eq_of_message h.symm) (hgnone _),
        fun h => absurd (eq_of_message h.symm) (hgnone _)⟩
  · rcases hsame g with ⟨name', rfl⟩ | ⟨hg, hgnone⟩
    · rw [hf]
      exact ⟨fun h => absurd (eq_of_message h) (hfnone _),
        fun h => absurd (eq_of_message h) (hfnone _)⟩
    · rw [hf, hg]

/-! ### Values -/

/-- The function or macro with other names in its parameters and its body. -/
def Closure.relabel (c : Closure) : Closure :=
  { c with params := c.params.map (Node.relabel π), body := c.body.relabel π }

lemma Closure.relabel_relabel_symm (c : Closure) :
    (c.relabel π).relabel π.symm = c := by
  have hparams : (c.params.map (Node.relabel π)).map (Node.relabel π.symm) =
      c.params := by
    rw [List.map_map]
    exact (List.map_congr_left fun p _ =>
      Node.relabel_relabel_symm π p).trans (List.map_id _)
  simp only [relabel, hparams, Node.relabel_relabel_symm]

namespace Value

mutual

/-- The value with other names in all its trees and faults. -/
def relabel (π : Equiv.Perm String) : Value → Value
  | integer n => integer n
  | boolean b => boolean b
  | null => null
  | string s => string s
  | array vs => array (relabelList π vs)
  | hash es => hash (relabelEntries π es)
  | returned v => returned (relabel π v)
  | error f => error (f.relabel π)
  | function c => function (c.relabel π)
  | builtin b => builtin b
  | quote n => quote (n.relabel π)
  | macroFn c => macroFn (c.relabel π)

/-- The same for several values. -/
def relabelList (π : Equiv.Perm String) : List Value → List Value
  | [] => []
  | v :: vs => relabel π v :: relabelList π vs

/-- The same for the entries of a hash. -/
def relabelEntries (π : Equiv.Perm String) :
    List (HashKey × Value × Value) → List (HashKey × Value × Value)
  | [] => []
  | (h, k, v) :: es => (h, relabel π k, relabel π v) :: relabelEntries π es

end

end Value

/-- A hash with other names in its keys and values. -/
def Table.relabel (t : Table) : Table :=
  t.map fun p => (p.1, p.2.1.relabel π, p.2.2.relabel π)

/-- A result with other names in its value or its fault. -/
def relabelResult : Except Fault Value → Except Fault Value
  | .ok v => .ok (v.relabel π)
  | .error f => .error (f.relabel π)

/-- Binding a hash key in a relabelled hash. -/
lemma Table.relabel_set (h : HashKey) (k v : Value) (t : Table) :
    Table.relabel π (Bindings.set h (k, v) t) =
      Bindings.set h (k.relabel π, v.relabel π) (t.relabel π) :=
  Bindings.set_mapKeys Function.injective_id
    (fun q : Value × Value => (q.1.relabel π, q.2.relabel π)) h (k, v) t

namespace Value

lemma relabelList_eq_map (vs : List Value) :
    relabelList π vs = vs.map (relabel π) := by
  induction vs with
  | nil => rfl
  | cons v vs ih => rw [relabelList, ih, List.map_cons]

lemma relabelEntries_eq_map (t : Table) : relabelEntries π t = t.relabel π := by
  induction t with
  | nil => rfl
  | cons p t ih =>
      rw [relabelEntries, ih]
      rfl

/-! ### Nothing gets lost -/

/-- The inverse permutation gives the names back. -/
theorem relabel_relabel_symm (v : Value) : (v.relabel π).relabel π.symm = v := by
  induction v using induct with
  | array vs ih =>
      rw [relabel, relabel, relabelList_eq_map, relabelList_eq_map,
        List.map_map]
      exact congrArg array ((List.map_congr_left ih).trans (List.map_id vs))
  | hash t ih =>
      rw [relabel, relabel, relabelEntries_eq_map, relabelEntries_eq_map,
        Table.relabel, Table.relabel, List.map_map]
      refine congrArg hash ((List.map_congr_left fun p hp => ?_).trans
        (List.map_id t))
      exact Prod.ext rfl (Prod.ext (ih p hp).1 (ih p hp).2)
  | returned v ih => rw [relabel, relabel, ih]
  | error f => cases f <;> simp [relabel, Fault.relabel]
  | function c => rw [relabel, relabel, Closure.relabel_relabel_symm]
  | macroFn c => rw [relabel, relabel, Closure.relabel_relabel_symm]
  | quote n => rw [relabel, relabel, Node.relabel_relabel_symm]
  | _ => rfl

/-! ### What does not tell names -/

lemma kind_relabel (v : Value) : (v.relabel π).kind = v.kind := by
  cases v <;> rfl

lemma isTruthy_relabel (v : Value) : (v.relabel π).isTruthy = v.isTruthy := by
  cases v <;> rfl

lemma holds_relabel (v? : Option Value) :
    holds (v?.map (relabel π)) = holds v? := by
  cases v? with
  | none => rfl
  | some v => exact isTruthy_relabel π v

lemma hashKey_relabel (v : Value) : (v.relabel π).hashKey = v.hashKey := by
  cases v <;> rfl

lemma unwrap_relabel (v? : Option Value) :
    unwrap (v?.map (relabel π)) = (unwrap v?).map (relabel π) := by
  cases v? with
  | none => rfl
  | some v => cases v <;> rfl

/-- The tree of a relabelled value. -/
lemma toNode?_relabel (v : Value) :
    (v.relabel π).toNode? = v.toNode?.map (Node.relabel π) := by
  cases v with
  | boolean b => cases b <;> rfl
  | _ => rfl

/-! ### Equality -/

lemma alikeList_relabel {vs : List Value}
    (h : ∀ v ∈ vs, ∀ w, (v.relabel π).alike (w.relabel π) = v.alike w)
    (ws : List Value) :
    alikeList (vs.map (relabel π)) (ws.map (relabel π)) = alikeList vs ws := by
  induction vs generalizing ws with
  | nil => cases ws <;> rfl
  | cons v vs ih =>
      obtain ⟨hv, hvs⟩ := List.forall_mem_cons.mp h
      cases ws with
      | nil => rfl
      | cons w ws => simp only [List.map_cons, alikeList, hv, ih hvs]

lemma alikeEntries_relabel {t : Table}
    (h : ∀ p ∈ t, (∀ w, (p.2.1.relabel π).alike (w.relabel π) = p.2.1.alike w) ∧
      ∀ w, (p.2.2.relabel π).alike (w.relabel π) = p.2.2.alike w) (u : Table) :
    alikeEntries (t.relabel π) (u.relabel π) = alikeEntries t u := by
  induction t with
  | nil => rfl
  | cons p t ih =>
      obtain ⟨⟨hk, hv⟩, ht⟩ := List.forall_mem_cons.mp h
      have hget := Bindings.get?_map (fun q : Value × Value =>
        (q.1.relabel π, q.2.relabel π)) p.1 u
      have hrest : alikeEntries (Table.relabel π t) (u.relabel π) =
          alikeEntries t u := ih ht
      show alikeEntries ((p.1, p.2.1.relabel π, p.2.2.relabel π) ::
        Table.relabel π t) (u.relabel π) = _
      rw [alikeEntries, hrest, alikeEntries, Table.relabel, hget]
      cases Bindings.get? p.1 u with
      | none => rfl
      | some q => simp only [Option.map_some, hk, hv]

/-- Relabelled values are equal as they were before. -/
theorem alike_relabel (v w : Value) :
    (v.relabel π).alike (w.relabel π) = v.alike w := by
  -- by induction over the first value; closures are compared by their numbers,
  -- which are kept
  induction v using induct generalizing w with
  | array vs ih =>
      cases w with
      | array ws =>
          simp only [relabel, relabelList_eq_map, alike, alikeList_relabel π ih]
      | _ => rfl
  | hash t ih =>
      cases w with
      | hash u =>
          simp only [relabel, relabelEntries_eq_map, alike,
            alikeEntries_relabel π ih]
          simp only [Table.relabel, List.length_map]
      | _ => rfl
  | returned v ih =>
      cases w with
      | returned w => exact ih w
      | _ => rfl
  | error f =>
      cases w with
      | error g =>
          simp only [relabel, alike, Fault.message_relabel_inj]
      | _ => rfl
  | quote n =>
      cases w with
      | quote m => exact Node.alike_relabel π n m
      | _ => rfl
  | _ => cases w <;> rfl

/-! ### Operators -/

lemma prefixOp_relabel (op : String) (v : Value) :
    prefixOp op (v.relabel π) = relabelResult π (prefixOp op v) := by
  have hplain : ∀ r : Except Fault Value, r = prefixOp op v →
      relabelResult π r = r := by
    rintro _ rfl
    rw [prefixOp.eq_def]
    split
    · rfl
    · split <;> rfl
    · rfl
  rw [hplain _ rfl]
  cases v <;> rfl

lemma onIntegers_relabel (op : String) (a b : Int) :
    relabelResult π (Operator.onIntegers op a b) =
      Operator.onIntegers op a b := by
  rw [Operator.onIntegers.eq_def]
  split
  case h_4 => split <;> rfl
  all_goals rfl

lemma onStrings_relabel (op s t : String) :
    relabelResult π (Operator.onStrings op s t) =
      Operator.onStrings op s t := by
  rw [Operator.onStrings.eq_def]
  split <;> rfl

/-- Operators between other values than two integers or two strings. -/
lemma infixOp_eq_of_kind {op : String} {v w : Value}
    (hinteger : ¬ (v.kind = .integer ∧ w.kind = .integer))
    (hstring : ¬ (v.kind = .string ∧ w.kind = .string)) :
    infixOp op v w = match op with
      | "==" => .ok (.boolean (v.alike w))
      | "!=" => .ok (.boolean (!v.alike w))
      | _ =>
        if v.kind = w.kind then .error (.unknownInfix v.kind op w.kind)
        else .error (.typeMismatch v.kind op w.kind) := by
  rw [infixOp.eq_def]
  split
  · exact absurd ⟨rfl, rfl⟩ hinteger
  · exact absurd ⟨rfl, rfl⟩ hstring
  · rfl

/-- An operator between relabelled values. -/
theorem infixOp_relabel (op : String) (v w : Value) :
    infixOp op (v.relabel π) (w.relabel π) =
      relabelResult π (infixOp op v w) := by
  by_cases hinteger : v.kind = .integer ∧ w.kind = .integer
  · obtain ⟨hv, hw⟩ := hinteger
    cases v <;> cases hv
    cases w <;> cases hw
    exact (onIntegers_relabel π op _ _).symm
  · by_cases hstring : v.kind = .string ∧ w.kind = .string
    · obtain ⟨hv, hw⟩ := hstring
      cases v <;> cases hv
      cases w <;> cases hw
      exact (onStrings_relabel π op _ _).symm
    · rw [infixOp_eq_of_kind hinteger hstring, infixOp_eq_of_kind
        (by rwa [kind_relabel, kind_relabel])
        (by rwa [kind_relabel, kind_relabel])]
      simp only [kind_relabel, alike_relabel]
      split
      · rfl
      · rfl
      · split <;> rfl

/-! ### Indexing and functions of the language -/

lemma getD_relabel (v? : Option Value) :
    (v?.map (relabel π)).getD null = (v?.getD null).relabel π := by
  cases v? <;> rfl

lemma index_relabel (v i : Value) :
    index (v.relabel π) (i.relabel π) = relabelResult π (index v i) := by
  cases v with
  | array vs =>
      cases i with
      | integer n =>
          show Except.ok (member (relabelList π vs) n) =
            Except.ok ((member vs n).relabel π)
          rw [relabelList_eq_map, member, member]
          split
          · rw [List.getD_eq_getElem?_getD, List.getD_eq_getElem?_getD,
              List.getElem?_map, getD_relabel]
          · rfl
      | _ => rfl
  | hash t =>
      show index (.hash (relabelEntries π t)) _ = _
      rw [relabelEntries_eq_map, index, index, Table.get?, Table.get?,
        hashKey_relabel, hashKey]
      cases i.hashKey? with
      | none => rfl
      | some h =>
          have hget := Bindings.get?_map (fun q : Value × Value =>
            (q.1.relabel π, q.2.relabel π)) h t
          show Except.ok (((Bindings.get? h (Table.relabel π t)).map
              fun q => q.2).getD null) =
            Except.ok ((((Bindings.get? h t).map
              fun q => q.2).getD null).relabel π)
          rw [Table.relabel, hget]
          cases Bindings.get? h t <;> rfl
  | _ => cases i <;> rfl

end Value

namespace Builtin

open Value

lemma onArray_relabel (b : Builtin) {f g : List Value → Value}
    (hfg : ∀ vs, g (vs.map (Value.relabel π)) = (f vs).relabel π) (v : Value) :
    b.onArray g (v.relabel π) = relabelResult π (b.onArray f v) := by
  cases v with
  | array vs =>
      show Except.ok (g (relabelList π vs)) = Except.ok ((f vs).relabel π)
      rw [relabelList_eq_map, hfg]
  | _ => rfl

lemma length_relabel (v : Value) :
    Builtin.length (v.relabel π) = relabelResult π (Builtin.length v) := by
  cases v with
  | array vs =>
      show Except.ok (Value.integer (relabelList π vs).length) = _
      rw [relabelList_eq_map, List.length_map]
      rfl
  | _ => rfl

/-- What a function of the language gives for relabelled arguments. -/
theorem result_relabel (b : Builtin) (args : List Value) :
    b.result (args.map (Value.relabel π)) =
      relabelResult π (b.result args) := by
  rcases args with _ | ⟨v, _ | ⟨w, _ | ⟨x, args⟩⟩⟩
  · cases b <;> rfl
  · cases b with
    | len => exact length_relabel π v
    | first =>
        refine onArray_relabel π first (fun vs => ?_) v
        rw [List.head?_map, getD_relabel]
    | last =>
        refine onArray_relabel π last (fun vs => ?_) v
        rw [List.getLast?_map, getD_relabel]
    | rest =>
        refine onArray_relabel π rest (fun vs => ?_) v
        cases vs with
        | nil => rfl
        | cons v vs =>
            rw [List.map_cons, withoutFirst, withoutFirst, Value.relabel,
              relabelList_eq_map]
    | _ => rfl
  · cases b with
    | push =>
        refine onArray_relabel π push (fun vs => ?_) v
        rw [Value.relabel, relabelList_eq_map, List.map_append]
        rfl
    | _ => rfl
  · cases b with
    | puts => rfl
    | _ => simp [result, relabelResult, Fault.relabel]

end Builtin

/-! ### Parameters -/

/-- The parameters of a function or a macro, and of all in its body, are
identifiers. -/
structure Closure.Named (c : Closure) : Prop where
  params : ∀ p ∈ c.params, p.kind = .ident
  body : c.body.Named

lemma Closure.Named.relabel {c : Closure} (hc : c.Named) :
    (c.relabel π).Named where
  params p hp := by
    obtain ⟨r, hr, rfl⟩ := List.mem_map.mp hp
    rw [Node.kind_relabel, hc.params r hr]
  body := hc.body.relabel π

lemma Closure.Named.names_relabel {c : Closure} (hc : c.Named) :
    (c.relabel π).names = c.names.map π := by
  rw [names, names, Closure.relabel, List.map_map, List.map_map]
  exact List.map_congr_left fun p hp => Node.name_relabel π (hc.params p hp)

/-- The trees that a value itself has, all in it left aside, have identifiers
for parameters. -/
def Value.TreesNamed : Value → Prop
  | .function c | .macroFn c => c.Named
  | .quote n => n.Named
  | _ => True

/-- The trees in a value, at any depth, have identifiers for parameters. -/
def Value.Named (v : Value) : Prop := v.Every TreesNamed

namespace Value

lemma Named.function {c : Closure} (h : Named (.function c)) : c.Named :=
  (every_iff.mp h).1

lemma named_function {c : Closure} (hc : c.Named) : Named (.function c) :=
  every_of_empty hc nofun

lemma named_macroFn {c : Closure} (hc : c.Named) : Named (.macroFn c) :=
  every_of_empty hc nofun

lemma named_quote {n : Node} (hn : n.Named) : Named (.quote n) :=
  every_of_empty hn nofun

lemma named_integer (n : Int) : Named (.integer n) :=
  every_of_empty trivial nofun

/-- What is made of such values is such a value. -/
theorem closed_named : Closed Named where
  __ := formed_every (P := TreesNamed)
    (fun v hv => by cases v <;> trivial)
    (fun _ => trivial) trivial fun _ _ _ _ _ _ _ => trivial
  length _ _ := named_integer _
  size _ _ := named_integer _
  returned v hv := by
    refine every_iff.mpr ⟨trivial, ?_⟩
    rintro w ⟨⟩
    exact hv
  unmarked v h := (every_iff.mp h).2 v .content

/-- Relabelled values are such values, too. -/
lemma Named.relabel {v : Value} (hv : v.Named) : (v.relabel π).Named := by
  induction v using induct with
  | array vs ih =>
      rw [Value.relabel, relabelList_eq_map]
      refine closed_named.array _ fun w hw => ?_
      obtain ⟨u, hu, rfl⟩ := List.mem_map.mp hw
      exact ih u hu (closed_named.elements vs hv u hu)
  | hash t ih =>
      rw [Value.relabel, relabelEntries_eq_map]
      refine every_iff.mpr ⟨trivial, ?_⟩
      rintro w (_ | hp | hp | _) <;>
        obtain ⟨⟨h, k, v⟩, hmem, heq⟩ := List.mem_map.mp hp <;> cases heq
      · exact (ih _ hmem).1 ((every_iff.mp hv).2 k (.key hmem))
      · exact (ih _ hmem).2 ((every_iff.mp hv).2 v (.value hmem))
  | returned w ih =>
      exact closed_named.returned _ (ih (closed_named.unmarked w hv))
  | error f => exact every_of_empty trivial nofun
  | function c => exact named_function (hv.function.relabel π)
  | macroFn c =>
      exact named_macroFn (Closure.Named.relabel π (every_iff.mp hv).1)
  | quote n => exact named_quote (Node.Named.relabel π (every_iff.mp hv).1)
  | _ => exact hv

/-- The tree of such a value. -/
lemma Named.toNode? {v : Value} (hv : v.Named) {n : Node}
    (hn : v.toNode? = some n) : n.Named := by
  have hleaf : ∀ n : Node, n.children = [] → n.params = [] → n.Named :=
    fun n hchildren hparams => .node (by rw [hparams]; nofun)
      (by rw [hchildren]; nofun)
  cases v with
  | integer k =>
      cases hn
      exact hleaf _ rfl rfl
  | boolean b =>
      cases hn
      cases b <;> exact hleaf _ rfl rfl
  | quote m =>
      cases hn
      exact (every_iff.mp hv).1
  | _ => cases hn

/-! ### Plain data -/

/-- Plain data: nothing in it has a tree or names anything. -/
def Plain (v : Value) : Prop :=
  v.Every fun w => w.kind ∉ [Kind.function, .macroFn, .quote, .error]

/-- **Plain data has no names.**  It stays as it is. -/
theorem relabel_of_plain {v : Value} (hv : v.Plain) : v.relabel π = v := by
  induction v using induct with
  | array vs ih =>
      rw [relabel, relabelList_eq_map]
      have hvs := List.map_congr_left fun w hw =>
        ih w hw ((every_iff.mp hv).2 w (.element hw))
      rw [hvs, List.map_id']
  | hash t ih =>
      rw [relabel, relabelEntries_eq_map, Table.relabel]
      have ht : ∀ p ∈ t, (p.1, p.2.1.relabel π, p.2.2.relabel π) = p := by
        rintro ⟨h, k, w⟩ hp
        obtain ⟨hk, hw⟩ := ih _ hp
        rw [hk ((every_iff.mp hv).2 k (.key hp)),
          hw ((every_iff.mp hv).2 w (.value hp))]
      rw [List.map_congr_left ht, List.map_id']
  | returned w ih => rw [relabel, ih ((every_iff.mp hv).2 w .content)]
  | error f => exact absurd (every_iff.mp hv).1 (by simp [kind])
  | function c => exact absurd (every_iff.mp hv).1 (by simp [kind])
  | macroFn c => exact absurd (every_iff.mp hv).1 (by simp [kind])
  | quote n => exact absurd (every_iff.mp hv).1 (by simp [kind])
  | _ => rfl

end Value

end MonkeyLang

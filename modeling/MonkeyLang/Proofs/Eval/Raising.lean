/-
Evaluation where something can be raised.

* `Raised`: what the operations under the evaluator raise where they do not
  apply: taking the hash key of a value, dividing, taking a member of an array
  and giving up an unquotation;
* `Raising.evalWith`, `Raising.eval`: evaluation on top of these operations; an
  error is a value that is looked for behind every part, and only a quote
  catches what is raised inside it;
* `Raising.carry`: a run whose fault counts as an answer; `carry_bind`: it goes
  on behind another one if errors are passed on;
* `replaceUnquote_eq`, `quote_eq`: inside a quote a fault gives up the
  unquotation, and the quote catches that;
* `Raising.eval_eq`: whatever is evaluated, nothing is raised, and the answer is
  the result of `eval`.
-/
import MonkeyLang.Proofs.Eval.FirstError

namespace MonkeyLang

/-- What an operation raises that does not apply. -/
inductive Raised where
  | unusableKey (kind : Value.Kind)
  | division
  | position
  | unquoting (fault : Fault)
deriving DecidableEq, Repr

/-- What changes the store and gives an answer, raises something, or is nested
too deep. -/
abbrev Raising := ExceptT Raised (StateT Store Option)

namespace Value

/-- Whether a result is an error. -/
def isError : Option Value → Bool
  | some (error _) => true
  | _ => false

/-- Whether a value is of a type that keys can have. -/
def isHashable : Value → Bool
  | integer _ | boolean _ | string _ => true
  | _ => false

end Value

namespace Raising

open Value (isError)

/-! ### Operations that raise -/

/-- The hash key of a value of a type that keys can have. -/
def hashKeyOf (key : Value) : Raising HashKey :=
  match key.hashKey? with
  | some h => return h
  | none => throw (.unusableKey key.kind)

/-- Puts a value under a key. -/
def put (key value : Value) (t : Table) : Raising Table :=
  return t.set (← hashKeyOf key) (key, value)

/-- The value under a key, null if there is none. -/
def get (key : Value) (t : Table) : Raising Value :=
  return ((Bindings.get? (← hashKeyOf key) t).map (·.2)).getD .null

/-- A quotient by a number that is not zero, rounded toward zero. -/
def quotient (a b : Int) : Raising Int :=
  if b = 0 then throw .division else return a.tdiv b

/-- A member of an array, counted from its end if the index is negative. -/
def member (vs : List Value) (i : Int) : Raising Value :=
  let j := if i < 0 then i + vs.length else i
  match if j < 0 then none else vs[j.toNat]? with
  | some v => return v
  | none => throw .position

/-! ### Operations that are guarded -/

/-- An operator between two values. -/
def infixOp (op : String) (left right : Value) : Raising Value :=
  match op, left, right with
  | "/", .integer a, .integer b =>
    if b = 0 then return .error .divisionByZero
    else return .integer (wrap (← quotient a b))
  | op, left, right => return Value.ofExcept (Value.infixOp op left right)

/-- The value that an array or a hash has at an index. -/
def index : Value → Value → Raising Value
  | .array vs, .integer i =>
    if i < 0 ∨ vs.length ≤ i then return .null else member vs i
  | .hash t, key =>
    if key.isHashable then get key t
    else return .error (.unusableKey key.kind)
  | left, _ => return .error (.noIndex left.kind)

/-- Calls a function that the language comes with. -/
def call (b : Builtin) (args : List Value) : Raising (Option Value) := do
  modify fun s => (b.prints args).foldl (fun s text => s.print text) s
  match b, args with
  | .first, [.array vs] =>
    if vs.isEmpty then return some .null else return some (← member vs 0)
  | .last, [.array vs] =>
    if vs.isEmpty then return some .null else return some (← member vs (-1))
  | b, args => return some (Value.ofExcept (b.result args))

/-! ### Evaluation -/

/-- An error is the result at once; behind any other result a run goes on. -/
def pass (v? : Option Value) (next : Raising (Option Value)) :
    Raising (Option Value) :=
  if isError v? then return v? else next

/-- A list whose only member is an error, as a failed list of operands is. -/
def isFailed : List Value → Bool
  | [v] => isError (some v)
  | _ => false

section

variable (rec : Node → ℕ → Raising (Option Value)) (e : ℕ)

/-- The value of a part where a value is needed. -/
def operand (n : Node) : Raising Value := return (← rec n e).getD .null

/-- The values of several parts behind those there are; the first error stands
alone. -/
def operands (vs : List Value) : List Node → Raising (List Value)
  | [] => return vs
  | n :: ns => do
    let v? ← rec n e
    if isError v? then return [v?.getD .null]
    else operands (vs ++ [v?.getD .null]) ns

/-- The value of the last of some statements; a returned value or an error ends
them. -/
def sequence : Option Value → List Node → Raising (Option Value)
  | last, [] => return last
  | _, n :: ns => do
    match ← rec n e with
    | some (.returned v) => return some (.returned v)
    | some (.error f) => return some (.error f)
    | v? => sequence v? ns

/-- A hash with further entries. -/
def entries (t : Table) : List (Node × Node) → Raising (Option Value)
  | [] => return some (.hash t)
  | (k, v) :: ps => do
    let key ← operand rec e k
    pass (some key) <|
      if key.isHashable then do
        let v? ← rec v e
        pass v? do entries (← put key (v?.getD .null) t) ps
      else return some (.error (.unusableKey key.kind))

/-- The value of a name. -/
def named (name : String) : Raising (Option Value) := do
  match (← MonadState.get).lookup e name with
  | some v => return some v
  | none =>
    match Builtin.ofName? name with
    | some b => return some (.builtin b)
    | none => return some (.error (.identifierNotFound name))

/-- Replaces a call of `unquote` on one argument, or gives up. -/
def replaceUnquote : Node → Raising Node
  | .call t callee [arg] =>
    if SpecialForm.ofCallee? callee = some .unquote then do
      match ← rec arg e with
      | some (.error f) => throw (.unquoting f)
      | v? =>
        match v? >>= Value.toNode? with
        | some n => return n
        | none => throw (.unquoting (.notSyntax (v?.map Value.kind)))
    else return .call t callee [arg]
  | n => return n

/-- A quote, or the error for which its unquotations were given up. -/
def quote (n : Node) : Raising (Option Value) :=
  tryCatch
    (do return some (.quote (← n.transformM (replaceUnquote rec e))))
    fun
      | .unquoting f => return some (.error f)
      | r => throw r

/-- The result of a function's body in a new frame with its arguments. -/
def bodyWith (c : Closure) (args : List Value) : Raising (Option Value) := do
  let e ← modifyGet fun s : Store =>
    s.addFrame (parameterBindings c.names args) (some c.frame)
  return Value.unwrap (← rec c.body e)

/-- The result of calling a value. -/
def applyWith (f : Value) (args : List Value) : Raising (Option Value) :=
  match f with
  | .function c =>
    if args.length = c.params.length then bodyWith rec c args
    else return some (.error (.argumentCount c.params.length args.length))
  | .builtin b => call b args
  | v => return some (.error (.notAFunction v.kind))

/-- The result of a call. -/
def callWith (callee : Node) (args : List Node) : Raising (Option Value) :=
  match SpecialForm.ofCallee? callee, args with
  | some .quote, [n] => quote rec e n
  | some .quote, ns => return some (.error (.quoteArgumentCount ns.length))
  | some .unquote, _ => return some (.error .strayUnquote)
  | none, ns => do
    let f ← operand rec e callee
    pass (some f) do
      let vs ← operands rec e [] ns
      if isFailed vs then return vs.head? else applyWith rec f vs

/-- The value of a node in a frame. -/
def evalWith (n : Node) (e : ℕ) : Raising (Option Value) :=
  match n with
  | .missing => return none
  | .program ss => return Value.unwrap (← sequence rec e none ss)
  | .block _ ss => sequence rec e none ss
  | .exprStmt _ n => rec n e
  | .returnStmt _ n => do
    let v? ← rec n e
    pass v? (return some (.returned (v?.getD .null)))
  | .letStmt _ name n => do
    let v? ← rec n e
    pass v? do
      modify (Store.bind e name.text (v?.getD .null))
      return none
  | .intLit _ n => return some (.integer n)
  | .boolLit _ b => return some (.boolean b)
  | .strLit t => return some (.string t.text)
  | .array _ ns => do
    let vs ← operands rec e [] ns
    if isFailed vs then return vs.head? else return some (.array vs)
  | .hash _ ps => entries rec e .empty ps
  | .function _ ps b =>
    return some (.function (← modifyGet (Store.makeClosure ps b e)))
  | .macroFn _ ps b =>
    return some (.macroFn (← modifyGet (Store.makeClosure ps b e)))
  | .prefixOp t r => do
    let v ← operand rec e r
    pass (some v) (return some (Value.ofExcept (Value.prefixOp t.text v)))
  | .infixOp t l r => do
    let v ← operand rec e l
    pass (some v) do
      let w ← operand rec e r
      pass (some w) do return some (← infixOp t.text v w)
  | .conditional _ c a b => do
    let v? ← rec c e
    pass v? <|
      if Value.holds v? then rec a e
      else if b.isMissing then return some .null
      else rec b e
  | .ident t => named e t.text
  | .index _ l i => do
    let v ← operand rec e l
    pass (some v) do
      let w ← operand rec e i
      pass (some w) do return some (← index v w)
  | .call _ callee args => callWith rec e callee args

end

/-- The value of a node in a frame, with at most `n` evaluations nested in each
other. -/
def eval : ℕ → Node → ℕ → Raising (Option Value)
  | 0, _, _ => fun _ => none
  | n + 1, node, e => evalWith (eval n) node e

end Raising

namespace Raising

variable {α β γ δ : Type}

/-! ### Faults as answers -/

/-- A run that gives something also for its fault and raises nothing. -/
def carry (p : α → β) (q : Fault → β) (r : Run α) : Raising β :=
  fun s => (r s).map fun (out, s) =>
    (.ok (match out with | .ok a => p a | .error f => q f), s)

/-- A run whose fault is an error among the values. -/
abbrev carryValue (r : Run (Option Value)) : Raising (Option Value) :=
  carry id (fun f => some (.error f)) r

lemma carry_map (p : β → γ) (q : Fault → γ) (r : Run α) (g : α → β) :
    carry p q (r >>= fun a => pure (g a)) = carry (fun a => p (g a)) q r := by
  funext s
  rcases hrun : r s with _ | ⟨f | a, s'⟩
  · have hbind : (r >>= fun a => pure (g a)) s = none := by
      show (r s).bind _ = none
      rw [hrun]
      rfl
    rw [carry, carry, hbind, hrun]
    rfl
  · rw [carry, carry, bind_error hrun, hrun]
    rfl
  · rw [carry, carry, bind_ok hrun, hrun]
    rfl

/-- Behind a run another one goes on in both ways if it does behind each answer,
and if faults are passed on. -/
lemma carry_bind {p : α → β} {q : Fault → β} {p' : γ → δ} {q' : Fault → δ}
    {r : Run α} {A : α → Prop} (hr : Keeps (fun _ => True) A r)
    {k : α → Run γ} {next : β → Raising δ}
    (hok : ∀ a, A a → next (p a) = carry p' q' (k a))
    (herror : ∀ f, next (q f) = pure (q' f)) :
    carry p q r >>= next = carry p' q' (r >>= k) := by
  funext s
  rcases hrun : r s with _ | ⟨f | a, s'⟩
  · have hcarry : carry p q r s = none := by rw [carry, hrun]; rfl
    have hbind : (r >>= k) s = none := by
      show (r s).bind _ = none
      rw [hrun]
      rfl
    show (carry p q r s).bind _ = _
    rw [hcarry, carry, hbind]
    rfl
  · have hcarry : carry p q r s = some (.ok (q f), s') := by
      rw [carry, hrun]; rfl
    rw [bind_ok hcarry, herror, carry, bind_error hrun]
    rfl
  · have hcarry : carry p q r s = some (.ok (p a), s') := by
      rw [carry, hrun]; rfl
    rw [bind_ok hcarry, hok a ((hr s _ s' trivial hrun).2 a rfl), carry, carry,
      bind_ok hrun]

open Value (isError NoError)

lemma isError_of_noError {v? : Option Value} (hv : NoError v?) :
    isError v? = false := by
  rcases v? with _ | v
  · rfl
  · cases v with
    | error f => exact absurd rfl (hv f)
    | _ => rfl

/-- What is no error is not passed on. -/
lemma pass_of_noError {v? : Option Value} (hv : NoError v?)
    (next : Raising (Option Value)) : pass v? next = next := by
  rw [pass, isError_of_noError hv]
  rfl

lemma isFailed_of_noError {vs : List Value}
    (hvs : ∀ v ∈ vs, NoError (some v)) : isFailed vs = false := by
  rcases vs with _ | ⟨v, _ | ⟨w, vs⟩⟩
  · rfl
  · exact isError_of_noError (hvs v List.mem_cons_self)
  · rfl

/-- A part whose error is passed on. -/
lemma carry_pass {r : Run (Option Value)} (hr : r.Settled)
    {k : Option Value → Run (Option Value)}
    {next : Option Value → Raising (Option Value)}
    (hok : ∀ v?, next v? = carryValue (k v?)) :
    (carryValue r >>= fun v? => pass v? (next v?)) = carryValue (r >>= k) :=
  carry_bind hr (fun v? hv => (pass_of_noError hv _).trans (hok v?))
    fun _ => rfl

/-! ### Operations -/

lemma carry_settle (r : Except Fault Value) :
    carryValue (Run.settle r) = pure (some (Value.ofExcept r)) := by
  rcases r with f | v
  · rfl
  · cases v <;> rfl

lemma carry_deliver (v? : Option Value) :
    carryValue (Run.deliver v?) = pure (Value.unwrap v?) := by
  unfold Run.deliver
  split
  · next v hv =>
    rw [carry_settle, hv]
    rfl
  · next hv =>
    rw [hv]
    rfl

/-- Only the quotient by a number that is not zero is taken. -/
lemma infixOp_eq (op : String) (v w : Value) :
    infixOp op v w = pure (Value.ofExcept (Value.infixOp op v w)) := by
  unfold infixOp
  split
  · next a b =>
    by_cases hb : b = 0
    · simp [Value.infixOp, Operator.onIntegers, hb, Value.ofExcept]
    · simp [Value.infixOp, Operator.onIntegers, hb, Value.ofExcept, quotient,
        Integer.quotient_eq_tdiv]
  · rfl

/-- A member that is there is taken. -/
lemma member_eq {vs : List Value} {i : Int} {j : ℕ} {v : Value}
    (hj : (if i < 0 then i + vs.length else i) = j) (hv : vs[j]? = some v) :
    member vs i = pure v := by
  have hpos : ¬ (j : Int) < 0 := by omega
  simp only [member, hj, if_neg hpos, Int.toNat_natCast, hv]

lemma hashKeyOf_eq {key : Value} {h : HashKey} (hkey : key.hashKey? = some h) :
    hashKeyOf key = pure h := by
  rw [hashKeyOf, hkey]

/-- The values of the types that keys can have are those with a hash key. -/
lemma isHashable_cases (key : Value) :
    (∃ h, key.isHashable = true ∧ key.hashKey? = some h) ∨
    key.isHashable = false ∧ key.hashKey? = none := by
  cases key with
  | integer | boolean | string => exact Or.inl ⟨_, rfl, rfl⟩
  | _ => exact Or.inr ⟨rfl, rfl⟩

/-- Only members that are there are taken, and only keys of types that have
hash keys are looked up. -/
lemma index_eq (v w : Value) :
    index v w = pure (Value.ofExcept (Value.index v w)) := by
  unfold index
  -- an array and an integer, a hash and any value, or what cannot be indexed
  split
  · next vs i =>
    by_cases hi : i < 0 ∨ vs.length ≤ i
    · rw [if_pos hi]
      rcases hi with hi | hi
      · simp [Value.index, Value.member, Value.ofExcept, Int.not_le.mpr hi]
      · have hnone : vs[i.toNat]? = none := List.getElem?_eq_none (by omega)
        simp [Value.index, Value.member, Value.ofExcept, hnone]
    · have hlt : i.toNat < vs.length := by omega
      -- the position is known to be inside, so that the member is there and
      -- nothing is raised
      have hmember : member vs i = pure vs[i.toNat] :=
        member_eq (by rw [if_neg (by omega)]; omega)
          (List.getElem?_eq_getElem hlt)
      rw [if_neg hi, hmember]
      simp [Value.index, Value.member, Value.ofExcept, hlt,
        show 0 ≤ i by omega]
  · next t =>
    -- the key is tested before it is hashed, and the test holds of just the
    -- values that have keys
    rcases isHashable_cases w with ⟨h, hkey, hhash⟩ | ⟨hkey, hhash⟩
    · have hindex : Value.index (.hash t) w =
          .ok (((Bindings.get? h t).map (·.2)).getD .null) := by
        rw [Value.index, Table.get?, Value.hashKey, hhash]
        rfl
      rw [if_pos hkey, get, hashKeyOf_eq hhash, pure_bind, hindex]
      rfl
    · have hindex : Value.index (.hash t) w =
          .error (.unusableKey w.kind) := by
        rw [Value.index, Table.get?, Value.hashKey, hhash]
        rfl
      rw [if_neg (by simp [hkey]), hindex]
      rfl
  · next harray hhash =>
    rw [Value.index]
    · rfl
    · exact harray
    · exact hhash

/-- Only members of arrays that have some are taken. -/
lemma call_eq (b : Builtin) (args : List Value) :
    call b args = carryValue (b.call args) := by
  have hprint : ∀ next : Raising (Option Value),
      next = carryValue (Run.settle (b.result args)) →
      (modify (fun s => (b.prints args).foldl (fun s text => s.print text) s) >>=
        fun _ : PUnit => next) = carryValue (b.call args) := by
    rintro next rfl
    rfl
  refine hprint _ ?_
  rw [carry_settle]
  split
  · next vs =>
    cases vs with
    | nil => rfl
    | cons v vs =>
        have hmember : member (v :: vs) 0 = pure v := member_eq rfl rfl
        simp [hmember, Builtin.result, Builtin.onArray, Value.ofExcept]
  · next vs =>
    rcases List.eq_nil_or_concat vs with rfl | ⟨vs, v, rfl⟩
    · rfl
    -- the position -1 counts from the end, which is the length of what is
    -- before the last member
    · have hlast : (if (-1 : Int) < 0 then -1 + ((vs ++ [v]).length : Int)
          else -1) = vs.length := by
        rw [if_pos (by decide), List.length_append, List.length_singleton]
        omega
      have hmember : member (vs ++ [v]) (-1) = pure v :=
        member_eq hlast (by simp)
      simp [hmember, Builtin.result, Builtin.onArray, Value.ofExcept]
  · rfl

/-! ### Parts -/

section

variable {rec : Node → ℕ → Run (Option Value)}
  (hrec : ∀ n e, (rec n e).Settled)

/-- Evaluation of parts that counts faults as answers. -/
abbrev carried (rec : Node → ℕ → Run (Option Value)) (n : Node) (e : ℕ) :
    Raising (Option Value) := carryValue (rec n e)

lemma operand_eq (e : ℕ) (n : Node) :
    operand (carried rec) e n = carry id .error (MonkeyLang.operand rec e n) :=
  carry_bind (Run.keeps_true _) (fun _ _ => rfl) fun _ => rfl

include hrec

lemma keeps_operand (e : ℕ) (n : Node) :
    Keeps (fun _ => True) (fun v => NoError (some v))
      (MonkeyLang.operand rec e n) := by
  refine (hrec n e).bind fun v? hv => Keeps.pure ?_
  rcases v? with _ | v
  · exact Value.noError_some nofun
  · exact hv

lemma keeps_operands (e : ℕ) (ns : List Node) :
    Keeps (fun _ => True) (fun vs => ∀ v ∈ vs, NoError (some v))
      (MonkeyLang.operands rec e ns) := by
  induction ns with
  | nil => exact Keeps.pure fun v hv => absurd hv List.not_mem_nil
  | cons n ns ih =>
      exact (keeps_operand hrec e n).bind fun v hv => ih.bind fun vs hvs =>
        Keeps.pure (List.forall_mem_cons.mpr ⟨hv, hvs⟩)

/-- A part where a value is needed and whose error is passed on. -/
lemma carry_operand {k : Value → Run (Option Value)}
    {next : Value → Raising (Option Value)} (e : ℕ) (n : Node)
    (hok : ∀ v, next v = carryValue (k v)) :
    (operand (carried rec) e n >>= fun v => pass (some v) (next v)) =
      carryValue (MonkeyLang.operand rec e n >>= k) := by
  rw [operand_eq]
  exact carry_bind (keeps_operand hrec e n)
    (fun v hv => (pass_of_noError hv _).trans (hok v)) fun _ => rfl

lemma operands_eq (e : ℕ) (vs : List Value) (ns : List Node) :
    operands (carried rec) e vs ns =
      carry (vs ++ ·) (fun f => [.error f])
        (MonkeyLang.operands rec e ns) := by
  induction ns generalizing vs with
  | nil => exact congrArg pure (List.append_nil vs).symm
  | cons n ns ih =>
      have hcons : MonkeyLang.operands rec e (n :: ns) =
          rec n e >>= fun v? => MonkeyLang.operands rec e ns >>= fun ws =>
            pure (v?.getD .null :: ws) := by
        simp [MonkeyLang.operands, MonkeyLang.operand]
      rw [hcons, operands]
      refine carry_bind (hrec n e) (fun v? hv => ?_) fun f => rfl
      rw [carry_map, id, isError_of_noError hv, if_neg Bool.false_ne_true, ih]
      simp only [List.append_assoc, List.singleton_append]

/-- Several parts whose error is passed on. -/
lemma carry_operands {k : List Value → Run (Option Value)}
    {next : List Value → Raising (Option Value)} (e : ℕ) (ns : List Node)
    (hok : ∀ vs, next vs = carryValue (k vs)) :
    (operands (carried rec) e [] ns >>= fun vs =>
        if isFailed vs then pure vs.head? else next vs) =
      carryValue (MonkeyLang.operands rec e ns >>= k) := by
  rw [operands_eq hrec]
  refine carry_bind (keeps_operands hrec e ns) (fun vs hvs => ?_) fun f => rfl
  rw [List.nil_append, isFailed_of_noError hvs, if_neg Bool.false_ne_true, hok]

lemma sequence_eq (e : ℕ) (last : Option Value) (ns : List Node) :
    sequence (carried rec) e last ns =
      carryValue (MonkeyLang.sequence rec e last ns) := by
  induction ns generalizing last with
  | nil => rfl
  | cons n ns ih =>
      refine carry_bind (hrec n e) (fun v? hv => ?_) fun f => rfl
      rcases v? with _ | v
      · exact ih none
      · cases v with
        | returned v => rfl
        | error f => exact absurd rfl (hv f)
        | _ => exact ih _

lemma entries_eq (e : ℕ) (t : Table) (ps : List (Node × Node)) :
    entries (carried rec) e t ps =
      carryValue (MonkeyLang.entries rec e t ps >>= fun t =>
        pure (some (.hash t))) := by
  induction ps generalizing t with
  | nil => rfl
  | cons q ps ih =>
      obtain ⟨kn, vn⟩ := q
      rw [MonkeyLang.entries, bind_assoc]
      refine carry_operand hrec e kn fun key => ?_
      rcases isHashable_cases key with ⟨h, hkey, hhash⟩ | ⟨hkey, hhash⟩
      · rw [if_pos hkey, Value.hashKey, hhash]
        simp only [Run.ofExcept, pure_bind, MonkeyLang.operand, bind_assoc]
        refine carry_pass (hrec vn e) fun v? => ?_
        rw [put, hashKeyOf_eq hhash]
        simp only [pure_bind]
        exact ih _
      · rw [if_neg (by simp [hkey]), Value.hashKey, hhash]
        rfl

omit hrec in
lemma named_eq (e : ℕ) (name : String) :
    named e name = carryValue (MonkeyLang.named e name) := by
  have hget : carryValue (MonkeyLang.named e name) =
      MonadState.get >>= fun s : Store => carryValue <|
        match s.lookup e name with
        | some v => Run.settle (.ok v)
        | none =>
          match Builtin.ofName? name with
          | some b => pure (some (.builtin b))
          | none => throw (.identifierNotFound name) := rfl
  rw [hget, named]
  refine congrArg _ (funext fun s => ?_)
  cases s.lookup e name with
  | some v => exact (carry_settle (.ok v)).symm
  | none => cases Builtin.ofName? name <;> rfl

/-! ### Quotes -/

/-- A run that raises its fault as what gives up an unquotation. -/
def giveUp {α : Type} (r : Run α) : Raising α :=
  fun s => (r s).map fun (out, s) => (out.mapError .unquoting, s)

omit hrec in
lemma giveUp_bind {α β : Type} (r : Run α) (k : α → Run β) :
    giveUp (r >>= k) = giveUp r >>= fun a => giveUp (k a) := by
  funext s
  show ((r s).bind _).map _ = ((r s).map _).bind _
  rcases r s with _ | ⟨f | a, s'⟩ <;> rfl

lemma replaceUnquote_eq (e : ℕ) (n : Node) :
    replaceUnquote (carried rec) e n =
      giveUp (MonkeyLang.replaceUnquote rec e n) := by
  cases n with
  | call t callee args =>
      rcases args with _ | ⟨arg, _ | ⟨m, ns⟩⟩
      · rfl
      · rw [replaceUnquote, MonkeyLang.replaceUnquote]
        split
        · funext s
          have hanswer : ∀ v? s', rec arg e s = some (.ok v?, s') →
              NoError v? := fun v? s' h => (hrec arg e s _ s' trivial h).2 v? rfl
          show ((rec arg e s).map _).bind _ = ((rec arg e s).bind _).map _
          -- only the answer that is an error would be told apart, and no run
          -- has an error as its value
          rcases hrun : rec arg e s with _ | ⟨f | v?, s'⟩
          · rfl
          · rfl
          · rcases v? with _ | v
            · rfl
            · cases v with
              | error f => exact absurd rfl (hanswer _ s' hrun f)
              | _ => rfl
        · rfl
      · rfl
  | _ => rfl

lemma quote_eq (e : ℕ) (n : Node) :
    quote (carried rec) e n =
      carryValue (quoteWith rec e n >>= fun m => pure (some (.quote m))) := by
  have htransform : n.transformM (replaceUnquote (carried rec) e) =
      giveUp (quoteWith rec e n) := by
    rw [funext (replaceUnquote_eq hrec e)]
    exact Node.transformM_hom giveUp (fun _ => rfl) giveUp_bind _ n
  rw [quote, htransform]
  funext s
  show (((quoteWith rec e n s).map _).bind _).bind _ =
    ((quoteWith rec e n s).bind _).map _
  rcases quoteWith rec e n s with _ | ⟨f | m, s'⟩ <;> rfl

/-! ### Calls -/

lemma bodyWith_eq (c : Closure) (args : List Value) :
    bodyWith (carried rec) c args =
      carryValue (callFrame c args >>= fun e =>
        rec c.body e >>= Run.deliver) := by
  have hframe : ∀ k : ℕ → Run (Option Value),
      carryValue (callFrame c args >>= k) =
        (modifyGet fun s : Store =>
          s.addFrame (parameterBindings c.names args) (some c.frame)) >>=
          fun e => carryValue (k e) := fun _ => rfl
  rw [hframe, bodyWith]
  refine congrArg _ (funext fun e => ?_)
  exact carry_bind (hrec c.body e) (fun v? _ => (carry_deliver v?).symm)
    fun _ => rfl

lemma applyWith_eq (f : Value) (args : List Value) :
    applyWith (carried rec) f args =
      carryValue (MonkeyLang.applyWith rec f args) := by
  cases f with
  | function c =>
      rw [applyWith, MonkeyLang.applyWith]
      split
      · exact bodyWith_eq hrec c args
      · rfl
  | builtin b => exact call_eq b args
  | _ => rfl

lemma callWith_eq (e : ℕ) (callee : Node) (args : List Node) :
    callWith (carried rec) e callee args =
      carryValue (MonkeyLang.callWith rec e callee args) := by
  unfold callWith MonkeyLang.callWith
  cases SpecialForm.ofCallee? callee with
  | none =>
      exact carry_operand hrec e callee fun f =>
        carry_operands hrec e args fun vs => applyWith_eq hrec f vs
  | some form =>
      cases form with
      | unquote => rfl
      | quote =>
          rcases args with _ | ⟨n, _ | ⟨m, ns⟩⟩
          · rfl
          · exact quote_eq hrec e n
          · rfl

/-! ### Whole evaluations -/

lemma evalWith_eq (n : Node) (e : ℕ) :
    evalWith (carried rec) n e = carryValue (MonkeyLang.evalWith rec n e) := by
  cases n with
  | missing | intLit | boolLit | strLit | function | macroFn => rfl
  | program ss =>
      rw [evalWith, MonkeyLang.evalWith, sequence_eq hrec]
      exact carry_bind (Run.keeps_true _) (fun v? _ => (carry_deliver v?).symm)
        fun _ => rfl
  | block t ss => exact sequence_eq hrec e none ss
  | exprStmt t m => rfl
  | returnStmt t m =>
      rw [MonkeyLang.evalWith, MonkeyLang.operand, bind_assoc]
      exact carry_pass (hrec m e) fun v? => rfl
  | letStmt t name m =>
      rw [MonkeyLang.evalWith, MonkeyLang.operand, bind_assoc]
      exact carry_pass (hrec m e) fun v? => rfl
  | array t ns => exact carry_operands hrec e ns fun vs => rfl
  | hash t ps => exact entries_eq hrec e .empty ps
  | prefixOp t r =>
      exact carry_operand hrec e r fun v => (carry_settle _).symm
  | infixOp t l r =>
      refine carry_operand hrec e l fun v => carry_operand hrec e r fun w => ?_
      rw [infixOp_eq, carry_settle, pure_bind]
  | index t l i =>
      refine carry_operand hrec e l fun v => carry_operand hrec e i fun w => ?_
      rw [index_eq, carry_settle, pure_bind]
  | conditional t c a b =>
      refine carry_pass (hrec c e) fun v? => ?_
      split
      · rfl
      · split <;> rfl
  | ident t => exact named_eq e t.text
  | call t callee args => exact callWith_eq hrec e callee args

end

/-- **Nothing is raised.**  Evaluation on top of operations that can raise
something raises nothing, in whatever frame and from whatever store: its answer
is the result of evaluation. -/
theorem eval_eq (depth : ℕ) (n : Node) (e : ℕ) :
    eval depth n e = carryValue (MonkeyLang.eval depth n e) := by
  induction depth generalizing n e with
  | zero => rfl
  | succ depth ih =>
      have hrec : eval depth = carried (MonkeyLang.eval depth) :=
        funext fun n => funext fun e => ih n e
      rw [eval, hrec, MonkeyLang.eval]
      exact evalWith_eq (settled_eval depth) n e

end Raising

end MonkeyLang

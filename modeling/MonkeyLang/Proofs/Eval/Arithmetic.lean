/-
Arithmetic in trees is arithmetic of words.

* `wrap_eq_toInt`: to wrap a number is to read its low bits as a word;
* `Arithmetic`: the four operations, between words and between whole numbers;
  `Arithmetic.infixOp_word`: what they make of the values of words;
* `Formula`: literals, a sign and operations; `Formula.word?`, its value over
  words; `Formula.divisors`, the divisors that are reached on the way;
  `Formula.integer?`, its value without bounds;
* `Formula.word?_eq_none_iff`: only a divisor that is zero leaves it without a
  value; `Formula.word?_of_integer?`: without quotients it is enough to wrap once;
* `Node.HasFormula.comesTo`: a tree of such a form comes to the value of its
  formula.
-/
import MonkeyLang.Proofs.Eval.Staged
import MonkeyLang.Proofs.Tree.Literals

namespace MonkeyLang

/-! ### Words -/

/-- To wrap a number is to read its low 64 bits as a word with a sign. -/
lemma wrap_eq_toInt (n : ℤ) : wrap n = (Int64.ofInt n).toInt :=
  (wrap_eq_bmod n).trans Int64.toInt_ofInt.symm

/-- A number in range is the number of its word. -/
lemma Integer.InRange.toInt_ofInt {k : ℤ} (hk : Integer.InRange k) :
    (Int64.ofInt k).toInt = k := by
  rw [← wrap_eq_toInt, wrap_eq_self hk.1 hk.2]

/-- The operations of arithmetic between two numbers. -/
inductive Arithmetic where
  | sum | difference | product | quotient
  deriving DecidableEq, Repr

namespace Arithmetic

/-- How an operation is written. -/
def symbol : Arithmetic → String
  | sum => "+"
  | difference => "-"
  | product => "*"
  | quotient => "/"

/-- An operation between two words of 64 bits in two's complement.  The
quotient is rounded toward zero; by zero there is none. -/
def onWords? : Arithmetic → Int64 → Int64 → Option Int64
  | sum, a, b => some (a + b)
  | difference, a, b => some (a - b)
  | product, a, b => some (a * b)
  | quotient, a, b => if b = 0 then none else some (a / b)

example : quotient.onWords? .minValue (-1) = some .minValue := by decide

/-- An operation between two whole numbers, the quotient left out. -/
def onIntegers? : Arithmetic → ℤ → ℤ → Option ℤ
  | sum, a, b => some (a + b)
  | difference, a, b => some (a - b)
  | product, a, b => some (a * b)
  | quotient, _, _ => none

/-- Words keep the low bits of the exact result. -/
lemma onWords?_of_onIntegers? {op : Arithmetic} {a b c : ℤ}
    (h : op.onIntegers? a b = some c) :
    op.onWords? (.ofInt a) (.ofInt b) = some (.ofInt c) := by
  cases op with
  | sum =>
      obtain rfl := Option.some.inj h
      exact congrArg some (Int64.ofInt_add a b).symm
  | difference =>
      obtain rfl := Option.some.inj h
      exact congrArg some (Int64.ofInt_sub a b).symm
  | product =>
      obtain rfl := Option.some.inj h
      exact congrArg some (Int64.ofInt_mul a b).symm
  | quotient => cases h

/-- Only a quotient by zero is missing. -/
lemma onWords?_eq_none_iff {op : Arithmetic} {a b : Int64} :
    op.onWords? a b = none ↔ op = quotient ∧ b = 0 := by
  cases op <;> simp [onWords?]

end Arithmetic

/-- The outcome of a word: its number, or a division by zero if there is no
word. -/
def wordOutcome : Option Int64 → Except Fault Value
  | some w => .ok (.integer w.toInt)
  | none => .error .divisionByZero

namespace Arithmetic

/-- Where whole numbers have a result it is wrapped. -/
lemma infixOp_integers {op : Arithmetic} {a b c : ℤ}
    (h : op.onIntegers? a b = some c) :
    Value.infixOp op.symbol (.integer a) (.integer b) =
      .ok (.integer (wrap c)) := by
  cases op <;> cases h <;> rfl

/-- The quotient is that of words, also for the smallest one by `-1`. -/
lemma wrap_quotient (a b : Int64) :
    wrap (Integer.quotient a.toInt b.toInt) = (a / b).toInt :=
  calc wrap (Integer.quotient a.toInt b.toInt)
    _ = (a.toInt.tdiv b.toInt).bmod (2 ^ 64) := by
      rw [wrap_eq_bmod, Integer.quotient_eq_tdiv]
      rfl
    _ = (a / b).toInt := (Int64.toInt_div a b).symm

/-- The language's operators are the operations between words. -/
lemma infixOp_word (op : Arithmetic) (a b : Int64) :
    Value.infixOp op.symbol (.integer a.toInt) (.integer b.toInt) =
      wordOutcome (op.onWords? a b) := by
  rcases hexact : op.onIntegers? a.toInt b.toInt with _ | c
  · obtain rfl : op = quotient := by
      cases op <;> first | rfl | cases hexact
    have hzero : b.toInt = 0 ↔ b = 0 := by
      rw [← Int64.toInt_zero, Int64.toInt_inj]
    show (if b.toInt = 0 then _ else _) = wordOutcome (if b = 0 then _ else _)
    by_cases hb : b = 0
    · rw [if_pos (hzero.mpr hb), if_pos hb]
      rfl
    · rw [if_neg (mt hzero.mp hb), if_neg hb, wrap_quotient]
      rfl
  · have hword := onWords?_of_onIntegers? hexact
    rw [Int64.ofInt_toInt, Int64.ofInt_toInt] at hword
    rw [infixOp_integers hexact, hword, wordOutcome, wrap_eq_toInt]

end Arithmetic

/-- A minus sign is the negation of words. -/
lemma Value.prefixOp_word (a : Int64) :
    Value.prefixOp "-" (.integer a.toInt) = wordOutcome (some (-a)) := by
  have hneg : wrap (-a.toInt) = (-a).toInt := by
    rw [wrap_eq_toInt, Int64.ofInt_neg, Int64.ofInt_toInt]
  exact congrArg (Except.ok ∘ Value.integer) hneg

/-! ### Formulas -/

/-- A formula of arithmetic. -/
inductive Formula where
  | literal (k : ℤ)
  | negation (f : Formula)
  | operation (op : Arithmetic) (f g : Formula)
  deriving DecidableEq, Repr

namespace Formula

/-- The value of a formula over words, if every quotient has one. -/
def word? : Formula → Option Int64
  | literal k => some (.ofInt k)
  | negation f => f.word?.map (-·)
  | operation op f g => do op.onWords? (← f.word?) (← g.word?)

/-- The divisors that are reached from left to right, where nothing is reached
behind an operand that has no value. -/
def divisors : Formula → List Int64
  | literal _ => []
  | negation f => f.divisors
  | operation op f g =>
    if f.word?.isNone then f.divisors
    else f.divisors ++ g.divisors ++
      if op = .quotient then g.word?.toList else []

/-- The exact value of a formula without quotients. -/
def integer? : Formula → Option ℤ
  | literal k => some k
  | negation f => f.integer?.map (-·)
  | operation op f g => do op.onIntegers? (← f.integer?) (← g.integer?)

/-- A formula has no value exactly if a divisor that is reached is zero. -/
theorem word?_eq_none_iff (f : Formula) : f.word? = none ↔ 0 ∈ f.divisors := by
  induction f with
  | literal k => simp [word?, divisors]
  | negation f ih => exact Option.map_eq_none_iff.trans ih
  | operation op f g ihf ihg =>
      rcases hf : f.word? with _ | a
      · simp [word?, divisors, hf, ← ihf]
      have hf' : 0 ∉ f.divisors := by rw [← ihf, hf]; nofun
      rcases hg : g.word? with _ | b
      · simp [word?, divisors, hf, hg, ← ihg]
      have hg' : 0 ∉ g.divisors := by rw [← ihg, hg]; nofun
      have hword : (operation op f g).word? = op.onWords? a b := by
        simp [word?, hf, hg]
      rw [hword, Arithmetic.onWords?_eq_none_iff]
      by_cases hop : op = .quotient
      · simp [divisors, hf, hg, hf', hg', hop, eq_comm]
      · simp [divisors, hf, hf', hg', hop]

/-- The exact value has the low bits of the value over words. -/
theorem word?_of_integer? {f : Formula} {k : ℤ} (h : f.integer? = some k) :
    f.word? = some (.ofInt k) := by
  induction f generalizing k with
  | literal j =>
      obtain rfl := Option.some.inj h
      rfl
  | negation f ih =>
      obtain ⟨j, hj, rfl⟩ := Option.map_eq_some_iff.mp h
      rw [word?, ih hj, Int64.ofInt_neg]
      rfl
  | operation op f g ihf ihg =>
      obtain ⟨i, hi, h⟩ := Option.bind_eq_some_iff.mp h
      obtain ⟨j, hj, h⟩ := Option.bind_eq_some_iff.mp h
      rw [word?, ihf hi, ihg hj]
      exact Arithmetic.onWords?_of_onIntegers? h

end Formula

/-! ### Trees -/

namespace Node

/-- The formula that a tree is: literals of numbers in range under minus signs
and operations. -/
inductive HasFormula : Node → Formula → Prop where
  | literal (t : Token) {k : ℤ} (hk : Integer.InRange k) :
      HasFormula (.intLit t k) (.literal k)
  | negation {t : Token} {r : Node} {f : Formula} (ht : t.text = "-")
      (hr : HasFormula r f) : HasFormula (.prefixOp t r) (.negation f)
  | operation {t : Token} {l r : Node} {op : Arithmetic} {f g : Formula}
      (ht : t.text = op.symbol) (hl : HasFormula l f) (hr : HasFormula r g) :
      HasFormula (.infixOp t l r) (.operation op f g)

/-- From some bound on a node has this value or this fault in every frame of
every store, and changes nothing. -/
abbrev ComesTo (n : Node) (r : Except Fault Value) : Prop :=
  n.Settles (r.map some)

/-- The outcome of a word is settled as it is. -/
lemma settle_wordOutcome (w? : Option Int64) (s : Store) :
    Run.settle (wordOutcome w?) s = some ((wordOutcome w?).map some, s) := by
  cases w? <;> rfl

/-- A minus sign before a part. -/
lemma comesTo_negation {t : Token} {r : Node} (ht : t.text = "-")
    {a? : Option Int64} (hr : r.ComesTo (wordOutcome a?)) :
    (prefixOp t r).ComesTo (wordOutcome (a?.map (-·))) := by
  cases a? with
  | none =>
      obtain ⟨height, hstep⟩ := Settles.operand_error hr
        fun v _ _ => Run.settle (Value.prefixOp t.text v)
      exact settles_of_step hstep
  | some a =>
      have hsettle : ∀ (depth e : ℕ) s, 0 ≤ depth →
          Run.settle (Value.prefixOp t.text (.integer a.toInt)) s =
            some ((wordOutcome (some (-a))).map some, s) := fun _ _ s _ => by
        rw [ht, Value.prefixOp_word, settle_wordOutcome]
      obtain ⟨height, hstep⟩ := Settles.operand_ok hr
        (k := fun v _ _ => Run.settle (Value.prefixOp t.text v)) hsettle
      exact settles_of_step hstep

/-- An operation between two parts. -/
lemma comesTo_operation {t : Token} {l r : Node} {op : Arithmetic}
    (ht : t.text = op.symbol) {a? b? : Option Int64}
    (hl : l.ComesTo (wordOutcome a?)) (hr : r.ComesTo (wordOutcome b?)) :
    (infixOp t l r).ComesTo (wordOutcome (do op.onWords? (← a?) (← b?))) := by
  cases a? with
  -- the left part is a division by zero, and the right one is not reached
  | none =>
      obtain ⟨height, hstep⟩ := Settles.operand_error hl fun v depth e =>
        operand (eval depth) e r >>= fun w =>
          Run.settle (Value.infixOp t.text v w)
      exact settles_of_step hstep
  | some a =>
      -- the right part is evaluated behind the value of the left one
      have hright : ∃ height, ∀ depth e s, height ≤ depth →
          (operand (eval depth) e r >>= fun w =>
            Run.settle (Value.infixOp t.text (.integer a.toInt) w)) s =
          some ((wordOutcome (do op.onWords? a (← b?))).map some, s) := by
        cases b? with
        | none => exact Settles.operand_error hr fun w _ _ =>
            Run.settle (Value.infixOp t.text (.integer a.toInt) w)
        | some b =>
            refine Settles.operand_ok hr fun _ _ s (_ : 0 ≤ _) => ?_
            show Run.settle (Value.infixOp t.text (.integer a.toInt)
              (.integer b.toInt)) s = _
            rw [ht, Arithmetic.infixOp_word, settle_wordOutcome]
            rfl
      obtain ⟨height, hright⟩ := hright
      obtain ⟨height, hstep⟩ := Settles.operand_ok hl
        (k := fun v depth e => operand (eval depth) e r >>= fun w =>
          Run.settle (Value.infixOp t.text v w)) hright
      exact settles_of_step hstep

/-- Two outcomes of a tree are one. -/
lemma ComesTo.unique {n : Node} {r r' : Except Fault Value}
    (h : n.ComesTo r) (h' : n.ComesTo r') : r.map some = r'.map some := by
  obtain ⟨height, hrun⟩ := h
  exact congrArg Prod.fst (Settles.eq h' (hrun height 0 .empty (Nat.le_refl _)))

/-- **Arithmetic of words.**  A tree of literals in range under minus signs and
the four operations comes to the value of its formula over words of 64 bits in
two's complement, wherever it is evaluated, and to a division by zero if there
is none; this is so exactly if a divisor that is reached from left to right is
zero.  Without quotients the value is the exact one, wrapped once. -/
theorem HasFormula.comesTo {n : Node} {f : Formula} (h : n.HasFormula f) :
    n.ComesTo (wordOutcome f.word?) ∧
    (n.ComesTo (.error .divisionByZero) ↔ 0 ∈ f.divisors) ∧
    (∀ k, f.integer? = some k → n.ComesTo (.ok (.integer (wrap k)))) ∧
    Fault.divisionByZero.message = "division by zero" := by
  -- the first part holds the others: results are unique, so the rest is about
  -- the formula only
  have hword : n.ComesTo (wordOutcome f.word?) := by
    induction h with
    | literal t hk =>
        refine settles_of_step fun _ _ s (_ : 0 ≤ _) => ?_
        show some (Except.ok (some (Value.integer _)), s) =
          some (.ok (some (.integer (Int64.ofInt _).toInt)), s)
        rw [hk.toInt_ofInt]
    | negation ht _ ih => exact comesTo_negation ht ih
    | operation ht _ _ ihl ihr => exact comesTo_operation ht ihl ihr
  refine ⟨hword, ⟨fun hzero => ?_, fun hzero => ?_⟩, fun k hk => ?_, rfl⟩
  · have hsame := hword.unique hzero
    rw [← f.word?_eq_none_iff]
    cases hf : f.word? with
    | none => rfl
    | some w =>
        rw [hf] at hsame
        cases hsame
  · rwa [f.word?_eq_none_iff.mpr hzero] at hword
  · rw [Formula.word?_of_integer? hk] at hword
    rwa [wrap_eq_toInt]

/-- The formula `(minInteger / (0 - 1)) / f`. -/
def extremeFormula (f : Formula) : Formula :=
  .operation .quotient (.operation .quotient (.literal minInteger)
    (.operation .difference (.literal 0) (.literal 1))) f

/-- Its tree, from a tree for `f`. -/
def extremeTree (n : Node) : Node :=
  .infixOp (.made .slash "/") (.infixOp (.made .slash "/") (.ofInt minInteger)
    (.infixOp (.made .minus "-") (.ofInt 0) (.ofInt 1))) n

/-- The smallest integer by `-1` is itself; by `-(-1)` again it stays, and by
`1 - 1` it is a division by zero. -/
theorem HasFormula.comesTo_extreme :
    (extremeTree (.prefixOp (.made .minus "-") (.ofInt (-1)))).HasFormula
      (extremeFormula (.negation (.literal (-1)))) ∧
    (extremeTree (.prefixOp (.made .minus "-") (.ofInt (-1)))).ComesTo
      (.ok (.integer minInteger)) ∧
    (extremeTree (.infixOp (.made .minus "-") (.ofInt 1) (.ofInt 1))).ComesTo
      (.error .divisionByZero) := by
  have hextreme : ∀ {n : Node} {f : Formula}, n.HasFormula f →
      (extremeTree n).HasFormula (extremeFormula f) := fun hn =>
    .operation rfl (.operation rfl (.literal _ (by decide))
      (.operation rfl (.literal _ (by decide)) (.literal _ (by decide)))) hn
  have hone : (Node.ofInt 1).HasFormula (.literal 1) :=
    .literal _ (by decide)
  have hsign := hextreme (.negation (t := .made .minus "-") rfl
    (.literal _ (by decide) : (Node.ofInt (-1)).HasFormula (.literal (-1))))
  have hnone : HasFormula (.infixOp (.made .minus "-") (.ofInt 1) (.ofInt 1))
      (.operation .difference (.literal 1) (.literal 1)) :=
    .operation rfl hone hone
  have hzero := hextreme hnone
  exact ⟨hsign, hsign.comesTo.1, hzero.comesTo.2.1.mpr (by decide)⟩

end Node

end MonkeyLang

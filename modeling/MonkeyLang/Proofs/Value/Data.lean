/-
Values that are plain data, and the texts that they are printed as.

* `Value.Data`: integers with a literal of their own or one behind a minus
  sign, truth values, and arrays and hashes of data;
* `Value.Data.put`: putting data under such a key leaves a hash of data;
* `Node.Gives`: a tree without calls that has a value wherever it is
  evaluated and changes nothing;
* `Value.Legible`: the text of a value is read as such a tree for it;
* `Data.legible`: all data is legible.
-/
import MonkeyLang.Proofs.Eval.Keeps
import MonkeyLang.Proofs.Parser.Printing
import MonkeyLang.Proofs.Session.Integers
import MonkeyLang.Value.Text

namespace MonkeyLang

/-! ### Data -/

/-- Integers that are not the smallest one, truth values, arrays of data and
hashes of data with integers or truth values for keys. -/
inductive Value.Data : Value → Prop where
  | integer {n : Int} (hlow : minInteger < n) (hhigh : n ≤ maxInteger) :
      Data (.integer n)
  | boolean (b : Bool) : Data (.boolean b)
  | array {vs : List Value} (hvs : ∀ v ∈ vs, Data v) : Data (.array vs)
  | hash {t : Table} (ht : Table.Keyed t)
      (hkinds : ∀ p ∈ t, p.2.1.kind = .integer ∨ p.2.1.kind = .boolean)
      (hkeys : ∀ p ∈ t, Data p.2.1) (hvalues : ∀ p ∈ t, Data p.2.2) :
      Data (.hash t)

/-- Putting data under an integer or a truth value leaves a hash of data. -/
lemma Value.Data.put {t u : Table} {k v : Value} (ht : (Value.hash t).Data)
    (hkind : k.kind = .integer ∨ k.kind = .boolean) (hk : k.Data) (hv : v.Data)
    (hput : t.put k v = .ok u) : (Value.hash u).Data := by
  obtain ⟨h, hkey⟩ : ∃ h, k.hashKey? = some h := by
    cases k with
    | integer n => exact ⟨_, rfl⟩
    | boolean b => exact ⟨_, rfl⟩
    | _ => rcases hkind with hkind | hkind <;> cases hkind
  have hu : u = Bindings.set h (k, v) t := by
    rw [Table.put, Value.hashKey_eq_ok.mpr hkey] at hput
    exact (Except.ok.inj hput).symm
  subst hu
  have hmem : ∀ p ∈ Bindings.set h (k, v) t, p = (h, k, v) ∨ p ∈ t :=
    fun p => Bindings.mem_set
  cases ht with
  | hash hkeyed hkinds hkeys hvalues =>
      refine .hash (hkeyed.set hkey) (fun p hp => ?_) (fun p hp => ?_)
        (fun p hp => ?_) <;> rcases hmem p hp with rfl | hp
      · exact hkind
      · exact hkinds p hp
      · exact hk
      · exact hkeys p hp
      · exact hv
      · exact hvalues p hp

/-! ### Trees for data -/

/-- A tree without calls that has a value in every frame of every store, which
it leaves as it was. -/
structure Node.Gives (n : Node) (v : Value) : Prop where
  callFree : n.CallFree
  value : ∃ height, ∀ depth e s, height ≤ depth →
    eval depth n e s = some (.ok (some v), s)

namespace Node

open List (Forall₂)

/-- Where a node has the value, it is one as a part. -/
lemma operand_eq {rec : Node → ℕ → Run (Option Value)} {e : ℕ} {n : Node}
    {v : Value} {s : Store} (h : rec n e s = some (.ok (some v), s)) :
    operand rec e n s = some (.ok v, s) := by
  rw [operand, bind_ok h]
  rfl

lemma callFree_leaf {n : Node} (hkind : n.kind ≠ .call)
    (hchildren : n.children = []) : n.CallFree :=
  .node hkind (by rw [hchildren]; nofun)

lemma gives_intLit (t : Token) (k : Int) : (intLit t k).Gives (.integer k) where
  callFree := callFree_leaf nofun rfl
  value := by
    refine ⟨1, fun depth e s hdepth => ?_⟩
    obtain ⟨depth, rfl⟩ : ∃ d, depth = d + 1 := ⟨depth - 1, by omega⟩
    rfl

lemma gives_boolLit (t : Token) (b : Bool) :
    (boolLit t b).Gives (.boolean b) where
  callFree := callFree_leaf nofun rfl
  value := by
    refine ⟨1, fun depth e s hdepth => ?_⟩
    obtain ⟨depth, rfl⟩ : ∃ d, depth = d + 1 := ⟨depth - 1, by omega⟩
    rfl

/-- A minus sign before the literal of a number. -/
lemma gives_negative {t u : Token} {k : Int} (ht : t.text = "-")
    (hlow : minInteger ≤ -k) (hhigh : -k ≤ maxInteger) :
    (prefixOp t (intLit u k)).Gives (.integer (-k)) where
  callFree := .node nofun (List.forall_mem_singleton.mpr
    (callFree_leaf nofun rfl))
  value := by
    refine ⟨2, fun depth e s hdepth => ?_⟩
    obtain ⟨depth, rfl⟩ : ∃ d, depth = d + 2 := ⟨depth - 2, by omega⟩
    have hoperand : operand (eval (depth + 1)) e (intLit u k) s =
        some (.ok (.integer k), s) := operand_eq rfl
    show (operand (eval (depth + 1)) e (intLit u k) >>= fun v =>
      Run.settle (Value.prefixOp t.text v)) s = _
    rw [bind_ok hoperand, ht]
    show some (Except.ok (some (Value.integer (wrap (-k)))), s) = _
    rw [wrap_eq_self hlow hhigh]

/-- Parts that give values, from left to right. -/
lemma operands_of_gives {ns : List Node} {vs : List Value}
    (h : Forall₂ Gives ns vs) : ∃ height, ∀ depth e s, height ≤ depth →
      operands (eval depth) e ns s = some (.ok vs, s) := by
  induction h with
  | nil => exact ⟨0, fun _ _ _ _ => rfl⟩
  | @cons n v ns vs hn _ ih =>
      obtain ⟨height, hvalue⟩ := hn.value
      obtain ⟨height', hvalues⟩ := ih
      refine ⟨max height height', fun depth e s hdepth => ?_⟩
      rw [operands, bind_ok (operand_eq (hvalue depth e s (by omega))),
        bind_ok (hvalues depth e s (by omega))]
      rfl

lemma gives_array {t : Token} {ns : List Node} {vs : List Value}
    (h : Forall₂ Gives ns vs) : (array t ns).Gives (.array vs) where
  callFree := .node nofun (forall_of_forall₂ h.flip fun _ _ hn => hn.callFree)
  value := by
    obtain ⟨height, hvalues⟩ := operands_of_gives h
    refine ⟨height + 1, fun depth e s hdepth => ?_⟩
    obtain ⟨depth, rfl⟩ : ∃ d, depth = d + 1 := ⟨depth - 1, by omega⟩
    show (operands (eval depth) e ns >>= fun vs =>
      pure (some (Value.array vs))) s = _
    rw [bind_ok (hvalues depth e s (by omega))]
    rfl

/-- Two trees give the key and the value of an entry, which lies under the hash
key of its key. -/
def GivesEntry (p : Node × Node) (q : HashKey × Value × Value) : Prop :=
  p.1.Gives q.2.1 ∧ p.2.Gives q.2.2 ∧ q.2.1.hashKey? = some q.1

/-- Entries that give keys and values, each under a hash key of its own. -/
lemma entries_of_gives {ps : List (Node × Node)} {t : Table}
    (h : Forall₂ GivesEntry ps t) :
    ∃ height, ∀ depth e s u, height ≤ depth → (Bindings.keys (u ++ t)).Nodup →
      entries (eval depth) e u ps s = some (.ok (u ++ t), s) := by
  -- by induction over the entries, for every table in front of them: each key
  -- is new, so that its entry comes last
  induction h with
  | nil =>
      refine ⟨0, fun _ _ _ u _ _ => ?_⟩
      rw [List.append_nil]
      rfl
  | @cons p q ps t hp _ ih =>
      obtain ⟨j, k, v⟩ := q
      obtain ⟨⟨-, height, hkey⟩, ⟨-, height', hvalue⟩, hhash⟩ := hp
      obtain ⟨height'', hrest⟩ := ih
      refine ⟨max height (max height' height''),
        fun depth e s u hdepth hnodup => ?_⟩
      have hfresh : j ∉ Bindings.keys u := by
        rw [Bindings.keys, List.map_append, List.nodup_append] at hnodup
        intro hj
        exact hnodup.2.2 j hj j List.mem_cons_self rfl
      have hhash' : Run.ofExcept k.hashKey s = some (.ok j, s) := by
        rw [Value.hashKey_eq_ok.mpr hhash]
        rfl
      rw [entries, bind_ok (operand_eq (hkey depth e s (by omega))),
        bind_ok hhash', bind_ok (operand_eq (hvalue depth e s (by omega))),
        Bindings.set_of_notMem hfresh, hrest depth e s _ (by omega)]
      · simp
      · rwa [List.append_assoc]

lemma gives_hash {t : Token} {ps : List (Node × Node)} {u : Table}
    (hu : (Bindings.keys u).Nodup) (h : Forall₂ GivesEntry ps u) :
    (hash t ps).Gives (.hash u) where
  callFree := .node nofun <| forall_mem_entries.mpr <|
    forall_of_forall₂ h.flip fun _ _ hp => ⟨hp.1.callFree, hp.2.1.callFree⟩
  value := by
    obtain ⟨height, hentries⟩ := entries_of_gives h
    refine ⟨height + 1, fun depth e s hdepth => ?_⟩
    obtain ⟨depth, rfl⟩ : ∃ d, depth = d + 1 := ⟨depth - 1, by omega⟩
    show (entries (eval depth) e .empty ps >>= fun t =>
      pure (some (Value.hash t))) s = _
    rw [bind_ok (hentries depth e s .empty (by omega) hu)]
    rfl

end Node

/-! ### Texts of data -/

/-- The text of a value is read as a tree that gives the value, wherever it
stands and whatever follows that goes on with no word and no number. -/
def Value.Legible (v : Value) : Prop :=
  ∀ p rest, Piece.Breaks rest → ∃ ts n,
    Piece.scan p (v.text.toList ++ rest) =
      ts ++ Piece.scan (p.after v.text.toList) rest ∧
    Writes (.expression .free n) ts ∧ n.Gives v

namespace Value

open Piece
open List (Forall₂)

variable {rest : List Char}

/-- The digits of a number are read as its literal. -/
lemma scan_repr {n : ℕ} (hn : (n : Int) ≤ maxInteger) (p : Position)
    (hrest : Breaks rest) : ∃ t : Token,
      scan p (n.repr.toList ++ rest) = t :: scan (p.after n.repr.toList) rest ∧
      Writes (.bare (.intLit t n)) [t] := by
  have hdigits : ∀ d ∈ n.repr.toList, Digit.isDigit d = true := by
    intro d hd
    rw [Nat.toList_repr] at hd
    have hdigit := Nat.isDigit_of_mem_toDigits (by decide) (by decide) hd
    rw [Digit.isDigit, Digit.value?_of_isDigit hdigit]
    rfl
  have hne : n.repr.toList ≠ [] := by
    rw [Nat.toList_repr]
    exact Nat.toDigits_ne_nil
  refine ⟨_, scan_digits hne hdigits hrest, .intLit rfl ?_ hn⟩
  show Numeral.Spells (String.ofList n.repr.toList) n
  rw [String.ofList_toList]
  exact Numeral.spells_repr (Numeral.lt_of_le_maxInteger hn)

lemma legible_integer {n : Int} (hlow : minInteger < n)
    (hhigh : n ≤ maxInteger) : Legible (.integer n) := by
  intro p rest hrest
  show ∃ ts m, scan p ((toString n).toList ++ rest) = _ ∧ _
  rw [show (Value.integer n).text = toString n from rfl, Int.toString_eq_repr,
    Int.repr_eq_if]
  -- a negative number is read as a minus sign in front of its digits, which are
  -- those of a literal
  split
  · next hpos =>
    obtain ⟨k, rfl⟩ := Int.eq_ofNat_of_zero_le hpos
    obtain ⟨t, hscan, hw⟩ := scan_repr (n := k) hhigh p hrest
    exact ⟨[t], _, hscan, .plain id hw, Node.gives_intLit t k⟩
  · next hneg =>
    obtain ⟨k, hk⟩ : ∃ k : ℕ, n = -(k : Int) := ⟨n.natAbs, by omega⟩
    subst hk
    have hk : ((k : Int)) ≤ maxInteger := by
      simp only [minInteger, maxInteger] at hlow ⊢
      omega
    rw [Int.neg_neg, Int.toNat_natCast]
    obtain ⟨t, hscan, hw⟩ := scan_repr hk (p.next '-') hrest
    refine ⟨⟨.minus, "-", p⟩ :: [t],
      .prefixOp ⟨.minus, "-", p⟩ (.intLit t k), ?_,
      .plain id (.prefixOp rfl (.plain id hw)),
      Node.gives_negative rfl (Int.le_of_lt hlow) hhigh⟩
    rw [String.toList_append]
    show scan p ('-' :: (k.repr.toList ++ rest)) = _
    rw [scan_symbol rfl (by decide), hscan]
    rfl

lemma legible_boolean (b : Bool) : Legible (.boolean b) := by
  intro p rest hrest
  let t : Token :=
    ⟨if b then .trueKey else .falseKey, if b then "true" else "false", p⟩
  refine ⟨[t], .boolLit t b, scan_boolean b hrest, .plain id ?_,
    Node.gives_boolLit t b⟩
  cases b with
  | true => exact .trueLit rfl
  | false => exact .falseLit rfl

/-! ### Arrays -/

lemma legible_array {vs : List Value} (hvs : ∀ v ∈ vs, v.Legible) :
    Legible (.array vs) := by
  intro p rest hrest
  have hprinted : ∀ v ∈ vs, Printed .free text Node.Gives v := hvs
  obtain ⟨ts, ns, hscan, hw, hns⟩ := printed_items hprinted (p.next '[')
    (breaks_cons (c := ']') (by decide) (by decide))
  have htext : (Value.array vs).text.toList =
      '[' :: ((String.intercalate ", " (vs.map text)).toList ++ [']']) := by
    rw [text, texts_eq_map, String.toList_append, String.toList_append]
    rfl
  rw [htext]
  exact ⟨_, _, scans_enclosed rfl rfl (by decide) (by decide) hscan,
    .plain id (.array rfl rfl hw), Node.gives_array hns⟩

/-! ### Hashes -/

/-- The text of an entry is a key and a value with a colon in between. -/
lemma printed_entry {q : HashKey × Value × Value} (hk : q.2.1.Legible)
    (hv : q.2.2.Legible) (hkey : q.2.1.hashKey? = some q.1) :
    PrintedEntry entryText Node.GivesEntry q := by
  have hk' : Printed .free text Node.Gives q.2.1 := hk
  have hv' : Printed .free text Node.Gives q.2.2 := hv
  have hgap : ∀ c ∈ [' '], isBlank c = true :=
    List.forall_mem_singleton.mpr rfl
  have htext : (entryText q).toList =
      (text q.2.1).toList ++ ':' :: ([' '] ++ (text q.2.2).toList) := by
    rw [entryText, String.toList_append, String.toList_append,
      List.append_assoc]
    rfl
  exact printedEntry_of_printed hk' hv' hgap htext
    fun _ _ hm hn => ⟨hm, hn, hkey⟩

/-- Hashes are read back if their entries lie under the hash keys of their own
keys, each once. -/
lemma legible_hash {t : Table} (hkeyed : Table.Keyed t)
    (ht : ∀ p ∈ t, p.2.1.Legible ∧ p.2.2.Legible) : Legible (.hash t) := by
  intro p rest hrest
  obtain ⟨ts, ps, hscan, hw, hps⟩ := printed_entries
    (fun q hq => printed_entry (ht q hq).1 (ht q hq).2 (hkeyed.under _ _ _ hq))
    (p.next '\x7b') (breaks_cons (c := '\x7d') (by decide) (by decide))
  have htext : (Value.hash t).text.toList = '\x7b' ::
      ((String.intercalate ", " (t.map entryText)).toList ++ ['\x7d']) := by
    rw [text, entryTexts_eq_map, String.toList_append, String.toList_append]
    rfl
  rw [htext]
  exact ⟨_, _, scans_enclosed rfl rfl (by decide) (by decide) hscan,
    .plain id (.hash rfl rfl hw), Node.gives_hash hkeyed.nodup hps⟩

/-- **Data is read back.**  The text of a value that is data is read as a tree
without calls that gives the value. -/
theorem Data.legible {v : Value} (h : v.Data) : v.Legible := by
  induction h with
  | integer hlow hhigh => exact legible_integer hlow hhigh
  | boolean b => exact legible_boolean b
  | array _ ih => exact legible_array ih
  | hash ht _ _ _ ihkeys ihvalues =>
      exact legible_hash ht fun p hp => ⟨ihkeys p hp, ihvalues p hp⟩

end Value

end MonkeyLang

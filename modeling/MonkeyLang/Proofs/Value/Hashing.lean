/-
The hash of a byte string tells near strings apart.

* `fnvRound_injective`, `fnvRound_injective_byte`: a round loses nothing of the
  hash before it, nor of the byte that it mixes in;
* `DifferOnce`: two lists of one length with different members at exactly one
  place; `differOnce_iff` takes them apart there;
* `fnv1a_ne`: the hashes of two byte strings that differ once are different;
* `toNat_fnv1a`: the hash is the one in whole numbers, where each round drops
  what lies beyond 64 bits;
* `utf8Bytes_eq`: the bytes of a text are those of its encoding;
* `fnv1a_separates`: strings whose bytes differ once have entries of their own
  in every hash.
-/
import MonkeyLang.Value.Table
import Mathlib.Algebra.Group.Nat.Defs
import Mathlib.Data.Nat.Notation
import Mathlib.Logic.ExistsUnique
import Mathlib.Logic.Function.Basic
import Mathlib.Tactic.Common

namespace MonkeyLang

/-! ### Rounds -/

/-- The factor of each round has an inverse, since it is odd. -/
lemma fnvPrime_mul_inverse : fnvPrime * 0xCE965057AFF6957B = 1 := by decide

/-- Multiplying by the factor loses nothing. -/
lemma mul_fnvPrime_injective : Function.Injective (· * fnvPrime) := by
  intro g h heq
  have hback := congrArg (· * 0xCE965057AFF6957B) heq
  simpa only [UInt64.mul_assoc, fnvPrime_mul_inverse, UInt64.mul_one]
    using hback

/-- A round loses nothing of the hash before it. -/
lemma fnvRound_injective (b : UInt8) : Function.Injective (fnvRound · b) := by
  intro g h heq
  exact (UInt64.xor_left_inj _).mp (mul_fnvPrime_injective heq)

/-- A round loses nothing of the byte. -/
lemma fnvRound_injective_byte (h : UInt64) :
    Function.Injective (fnvRound h) := by
  intro b c heq
  have hmixed : h ^^^ b.toUInt64 = h ^^^ c.toUInt64 :=
    mul_fnvPrime_injective heq
  exact UInt8.toUInt64_inj.mp ((UInt64.xor_right_inj h).mp hmixed)

/-- Different hashes stay different over the same bytes. -/
lemma foldl_fnvRound_injective (bytes : List UInt8) :
    Function.Injective fun h => bytes.foldl fnvRound h := by
  induction bytes with
  | nil => exact Function.injective_id
  | cons b bytes ih => exact ih.comp (fnvRound_injective b)

/-! ### Lists that differ once -/

section

variable {α : Type}

/-- Two lists of one length with different members at exactly one place. -/
def DifferOnce (as bs : List α) : Prop :=
  as.length = bs.length ∧ ∃! i : ℕ, as[i]? ≠ bs[i]?

/-- Lists with different first members differ once if they are the same
behind them. -/
lemma differOnce_cons {a b : α} (hab : a ≠ b) (as : List α) :
    DifferOnce (a :: as) (b :: as) := by
  refine ⟨rfl, 0, fun heq => hab (Option.some.inj heq), fun i hi => ?_⟩
  cases i with
  | zero => rfl
  | succ i => exact absurd rfl hi

/-- Behind the same first member it is the rests that differ once. -/
lemma differOnce_cons_same {a : α} {as bs : List α} :
    DifferOnce (a :: as) (a :: bs) ↔ DifferOnce as bs := by
  constructor
  · rintro ⟨hlength, i, hi, honly⟩
    cases i with
    | zero => exact absurd rfl hi
    | succ i =>
        refine ⟨Nat.succ.inj hlength, i, hi, fun j hj => ?_⟩
        exact Nat.succ.inj (honly (j + 1) hj)
  · rintro ⟨hlength, i, hi, honly⟩
    refine ⟨congrArg (· + 1) hlength, i + 1, hi, fun j hj => ?_⟩
    cases j with
    | zero => exact absurd rfl hj
    | succ j => exact congrArg (· + 1) (honly j hj)

/-- Two lists differ once exactly if they are the same before and behind two
different members. -/
lemma differOnce_iff {as bs : List α} :
    DifferOnce as bs ↔ ∃ before a b behind, a ≠ b ∧
      as = before ++ a :: behind ∧ bs = before ++ b :: behind := by
  constructor
  · intro h
    induction as generalizing bs with
    | nil =>
        obtain ⟨i, hi, -⟩ := h.2
        rw [List.eq_nil_of_length_eq_zero h.1.symm] at hi
        exact absurd rfl hi
    | cons a as ih =>
        cases bs with
        | nil => exact absurd h.1 nofun
        | cons b bs =>
            by_cases hab : a = b
            · subst hab
              obtain ⟨before, c, d, behind, hcd, rfl, rfl⟩ :=
                ih (differOnce_cons_same.mp h)
              exact ⟨a :: before, c, d, behind, hcd, rfl, rfl⟩
            · -- the one place is the first, so the rests are the same
              obtain ⟨i, -, honly⟩ := h.2
              have hfirst : 0 = i :=
                honly 0 fun heq => hab (Option.some.inj heq)
              have hrest : as = bs := by
                refine List.ext_getElem? fun j => ?_
                by_contra hj
                have : j + 1 = i := honly (j + 1) hj
                omega
              exact ⟨[], a, b, as, hab, rfl, by rw [hrest, List.nil_append]⟩
  · rintro ⟨before, a, b, behind, hab, rfl, rfl⟩
    induction before with
    | nil => exact differOnce_cons hab behind
    | cons c before ih => exact differOnce_cons_same.mpr ih

end

/-- The hashes of two byte strings that differ once are different. -/
lemma fnv1a_ne {bytes bytes' : List UInt8} (h : DifferOnce bytes bytes') :
    fnv1a bytes ≠ fnv1a bytes' := by
  obtain ⟨before, b, c, behind, hbc, rfl, rfl⟩ := differOnce_iff.mp h
  intro heq
  rw [fnv1a, fnv1a, List.foldl_append, List.foldl_append] at heq
  have hround := foldl_fnvRound_injective behind heq
  exact hbc (fnvRound_injective_byte _ hround)

/-! ### Whole numbers -/

/-- A round in whole numbers: what lies beyond 64 bits is dropped after the
multiplication. -/
def exactRound (h : ℕ) (b : UInt8) : ℕ :=
  (h ^^^ b.toNat) * 0x100000001B3 % 2 ^ 64

/-- The hash in whole numbers. -/
def exactHash (bytes : List UInt8) : ℕ :=
  bytes.foldl exactRound 0xCBF29CE484222325

lemma toNat_fnvRound (h : UInt64) (b : UInt8) :
    (fnvRound h b).toNat = exactRound h.toNat b := by
  rw [fnvRound, UInt64.toNat_mul, UInt64.toNat_xor, UInt8.toNat_toUInt64]
  rfl

/-- The hash is the one in whole numbers. -/
lemma toNat_fnv1a (bytes : List UInt8) :
    (fnv1a bytes).toNat = exactHash bytes := by
  have hfrom : ∀ h : UInt64,
      (bytes.foldl fnvRound h).toNat = bytes.foldl exactRound h.toNat := by
    induction bytes with
    | nil => exact fun _ => rfl
    | cons b bytes ih =>
        intro h
        rw [List.foldl_cons, List.foldl_cons, ih, toNat_fnvRound]
  exact hfrom fnvBasis

example : exactHash (utf8Bytes "foobar") = 0x85944171F73967E8 := by decide

/-! ### Strings as keys -/

/-- The bytes of a text are those of its encoding. -/
lemma utf8Bytes_eq (s : String) : utf8Bytes s = s.toUTF8.data.toList := by
  show _ = s.toByteArray.data.toList
  rw [← String.utf8Encode_toList, List.utf8Encode, List.data_toByteArray]
  rfl

/-- **Near strings are different keys.**  Two byte strings of one length with
different bytes at exactly one place have different hashes.  So have two
strings with such encodings, and in every hash what is put under one of them
leaves what the other has.  The hash is the one in whole numbers and lies
below `2 ^ 64`. -/
theorem fnv1a_separates :
    (∀ bytes bytes' : List UInt8, DifferOnce bytes bytes' →
      fnv1a bytes ≠ fnv1a bytes') ∧
    (∀ s t : String, DifferOnce s.toUTF8.data.toList t.toUTF8.data.toList →
      (Value.string s).hashKey? ≠ (Value.string t).hashKey? ∧
      ∀ (v : Value) (u w : Table), u.put (.string s) v = .ok w →
        w.get? (.string t) = u.get? (.string t)) ∧
    ∀ bytes, (fnv1a bytes).toNat = exactHash bytes ∧
      exactHash bytes < 2 ^ 64 := by
  refine ⟨fun _ _ => fnv1a_ne, fun s t h => ?_, fun bytes => ?_⟩
  · rw [← utf8Bytes_eq, ← utf8Bytes_eq] at h
    have hkey : HashKey.ofString s ≠ HashKey.ofString t :=
      fun heq => fnv1a_ne h (HashKey.string.inj heq)
    refine ⟨fun heq => hkey (Option.some.inj heq), fun v u w hput => ?_⟩
    rw [Table.get?_put hput rfl rfl, if_neg hkey]
  · refine ⟨toNat_fnv1a bytes, ?_⟩
    rw [← toNat_fnv1a]
    exact (fnv1a bytes).toNat_lt

/-- Two accented letters differ in the last of their two bytes. -/
theorem fnv1a_separates_accents :
    (Value.string "é").hashKey? ≠ (Value.string "è").hashKey? ∧
    ∃ t : Table, Table.empty.put (.string "é") .null = .ok t ∧
      t.get? (.string "è") = .ok none := by
  have hdiffer : DifferOnce "é".toUTF8.data.toList
      "è".toUTF8.data.toList :=
    differOnce_iff.mpr ⟨[0xC3], 0xA9, 0xA8, [], by decide, by decide, by decide⟩
  obtain ⟨hkeys, hput⟩ := fnv1a_separates.2.1 _ _ hdiffer
  exact ⟨hkeys, _, rfl, hput .null .empty _ rfl⟩

end MonkeyLang

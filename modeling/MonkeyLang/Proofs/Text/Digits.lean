/-
Numbers as they are printed.

* `Digit.value?_of_isDigit`: the digits from `0` to `9` have their values;
* `Digit.toNat_of_isDigit`: the other digits stand beyond ASCII;
* `Numeral.spells_repr`: the digits of a number spell it.
-/
import MonkeyLang.Integer
import MonkeyLang.Proofs.Text.Numeral
import Mathlib.Algebra.Group.Nat.Defs

namespace MonkeyLang

/-! ### Digits -/

namespace Digit

/-- The digits from `0` to `9` have their values. -/
lemma value?_of_isDigit {c : Char} (h : c.isDigit = true) :
    value? c = some (c.toNat - 48) := by
  have hbounds : 48 ≤ c.toNat ∧ c.toNat ≤ 57 := by
    simp only [Char.isDigit, Bool.and_eq_true, decide_eq_true_eq] at h
    exact h
  have hscript : inScript 48 c = true := by
    simp only [inScript, Bool.and_eq_true, decide_eq_true_eq]
    omega
  obtain ⟨others, hzeros⟩ : ∃ others, zeros = 48 :: others := ⟨_, rfl⟩
  rw [value?, hzeros, List.find?_cons_of_pos (p := (inScript · c)) hscript]
  rfl

/-- A digit is one from `0` to `9`, or it stands beyond ASCII. -/
lemma toNat_of_isDigit {c : Char} (h : isDigit c = true) :
    (48 ≤ c.toNat ∧ c.toNat ≤ 57) ∨ 0x660 ≤ c.toNat := by
  obtain ⟨d, hd⟩ := Option.isSome_iff_exists.mp h
  obtain ⟨start, hstart, hlow, hhigh⟩ := exists_zero hd
  have hzeros : ∀ start ∈ zeros, start = 48 ∨ 0x660 ≤ start := by decide
  rcases hzeros start hstart with hstart | hstart <;> omega

end Digit

/-! ### Numbers -/

namespace Numeral

/-- The value of digits as the library reads them. -/
lemma value_eq_ofDigitChars (cs : List Char) :
    value (cs.map fun c => c.toNat - 48) = Nat.ofDigitChars 10 cs 0 := by
  rw [value, Nat.ofDigitChars, List.foldl_map]
  rfl

/-- The integers of the language have no more digits than a numeral may. -/
lemma lt_of_le_maxInteger {n : ℕ} (hn : (n : Int) ≤ maxInteger) :
    n < 10 ^ maxDigits := by
  have hmax : n < 10 ^ 19 := by
    simp only [maxInteger] at hn
    omega
  exact Nat.lt_of_lt_of_le hmax (Nat.pow_le_pow_right (by decide) (by decide))

/-- The digits of a number that has no more of them than a numeral may have
spell it. -/
theorem spells_repr {n : ℕ} (hn : n < 10 ^ maxDigits) :
    Spells (Nat.repr n) n := by
  refine ⟨(Nat.toDigits 10 n).map fun c => c.toNat - 48, ?_, ?_, ?_, ?_⟩
  · rw [Nat.toList_repr, List.map_map]
    refine List.map_congr_left fun c hc => ?_
    exact Digit.value?_of_isDigit
      (Nat.isDigit_of_mem_toDigits (by decide) (by decide) hc)
  · simp [Nat.toDigits_ne_nil]
  · rw [List.length_map]
    exact (Nat.length_toDigits_le_iff (by decide) (by decide)).mpr hn
  · rw [value_eq_ofDigitChars]
    exact Nat.ofDigitChars_toDigits (by decide) (by decide)

end Numeral

end MonkeyLang

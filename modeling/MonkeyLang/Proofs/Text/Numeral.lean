/-
Numerals that are nothing but digits.

* `Numeral.Spells`: a text of digits, and the number that they denote;
* `Digit.isSpace_eq_false`: no digit is white space;
* `Numeral.Spells.read?`: such a text is read as its number;
* `Numeral.spells_of_read?`: and as nothing else;
* `Numeral.nonneg_of_read?`: no text of digits is read as a negative number.
-/
import MonkeyLang.Text.Numeral
import Mathlib.Tactic.Common

namespace MonkeyLang

/-! ### Digits among the other characters -/

namespace Digit

/-- A digit of any script stands in the ten places from a zero on. -/
lemma exists_zero {c : Char} {d : ℕ} (h : value? c = some d) :
    ∃ start ∈ zeros, start ≤ c.toNat ∧ c.toNat < start + 10 := by
  obtain ⟨start, hstart, -⟩ := Option.map_eq_some_iff.1 h
  have hscript := List.find?_some hstart
  simp only [inScript, Bool.and_eq_true, decide_eq_true_eq] at hscript
  exact ⟨start, List.mem_of_find?_eq_some hstart, hscript⟩

/-- No digit is white space. -/
lemma isSpace_eq_false {c : Char} {d : ℕ} (h : value? c = some d) :
    Blank.isSpace c = false := by
  obtain ⟨start, hmem, hlow, hhigh⟩ := exists_zero h
  have hleast : ∀ start ∈ zeros, 0x30 ≤ start := by decide
  have hstart := hleast start hmem
  have hwide : c.toNat ∉ Blank.wideSpaces := by
    intro hspace
    have hgap : ∀ k ∈ Blank.wideSpaces, ∀ start ∈ zeros,
        ¬ (start ≤ k ∧ k < start + 10) := by decide
    exact hgap _ hspace start hmem ⟨hlow, hhigh⟩
  have hspace : c ≠ ' ' := by
    rintro rfl
    have hcode : (' ' : Char).toNat = 0x20 := rfl
    omega
  simp only [Blank.isSpace, Bool.or_eq_false_iff, Bool.and_eq_false_iff,
    decide_eq_false_iff_not, List.contains_eq_mem]
  exact ⟨⟨hspace, Or.inr (by omega)⟩, hwide⟩

end Digit

/-! ### Texts of digits -/

namespace Numeral

/-- A text is nothing but digits, at most as many as a numeral may have, and
`n` is the number that they denote. -/
def Spells (text : String) (n : ℕ) : Prop :=
  ∃ ds, text.toList.map Digit.value? = ds.map some ∧ ds ≠ [] ∧
    ds.length ≤ maxDigits ∧ value ds = n

/-- Such a text is nothing but digits. -/
lemma Spells.isDigit {text : String} {n : ℕ} (h : Spells text n) :
    text.toList ≠ [] ∧ ∀ c ∈ text.toList, Digit.isDigit c = true := by
  obtain ⟨ds, hmap, hne, -⟩ := h
  constructor
  · intro hnil
    rw [hnil] at hmap
    exact hne (List.map_eq_nil_iff.mp hmap.symm)
  · intro c hc
    have hmem : Digit.value? c ∈ ds.map some := by
      rw [← hmap]
      exact List.mem_map_of_mem hc
    obtain ⟨d, -, hd⟩ := List.mem_map.mp hmem
    exact Option.isSome_iff_exists.mpr ⟨d, hd.symm⟩

/-- Each digit has a value. -/
lemma map_value? {cs : List Char} (h : ∀ c ∈ cs, Digit.isDigit c = true) :
    cs.map Digit.value? =
      (cs.map fun c => (Digit.value? c).getD 0).map some := by
  rw [List.map_map]
  refine List.map_congr_left fun c hc => ?_
  obtain ⟨d, hd⟩ := Option.isSome_iff_exists.mp (h c hc)
  simp [hd]

/-- Digits alone are the digits of a number. -/
lemma digits?_of_map {cs : List Char} {ds : List ℕ}
    (h : cs.map Digit.value? = ds.map some) (hne : ds ≠ []) :
    digits? cs = some ds := by
  induction cs generalizing ds with
  | nil => simp_all
  | cons c cs ih =>
      obtain _ | ⟨d, ds⟩ := ds
      · exact absurd rfl hne
      obtain ⟨hc, hcs⟩ := List.cons.inj h
      cases cs with
      | nil =>
          obtain rfl : ds = [] := by simpa using hcs.symm
          simp [digits?, hc]
      | cons c' cs =>
          have hds : ds ≠ [] := by
            rintro rfl
            cases hcs
          -- an underscore has no value, so the next character is a digit
          have hunderscore : c' ≠ '_' := by
            rintro rfl
            obtain _ | ⟨d', ds⟩ := ds
            · exact hds rfl
            · have hnone : Digit.value? '_' = none := by decide
              rw [List.map_cons, hnone] at hcs
              cases hcs
          rw [digits?]
          · simp [hc, ih hcs hds]
          · intro h
            cases h
          · rintro _ h
            exact hunderscore (List.cons.inj h).1

/-- A text of digits is read as the number that they denote, unless they are
too many. -/
lemma read?_of_map {text : String} {ds : List ℕ}
    (hmap : text.toList.map Digit.value? = ds.map some) (hne : ds ≠ []) :
    Numeral.read? text =
      if ds.length ≤ maxDigits then some (value ds : Int) else none := by
  have hdigit : ∀ c ∈ text.toList, ∃ d, Digit.value? c = some d := by
    intro c hc
    have hmem : Digit.value? c ∈ ds.map some := by
      rw [← hmap]
      exact List.mem_map_of_mem hc
    obtain ⟨d, -, hd⟩ := List.mem_map.1 hmem
    exact ⟨d, hd.symm⟩
  have htext : text.toList ≠ [] := by
    intro hnil
    rw [hnil] at hmap
    exact hne (by simpa using hmap.symm)
  -- a digit is neither a blank nor a sign
  have htrim : Blank.trim Blank.isSpace text.toList = text.toList := by
    obtain ⟨d, hd⟩ := hdigit _ (List.head_mem htext)
    obtain ⟨d', hd'⟩ := hdigit _ (List.getLast_mem htext)
    exact Blank.trim_eq_self htext (Digit.isSpace_eq_false hd)
      (Digit.isSpace_eq_false hd')
  have hnatural : natural? text.toList =
      if ds.length ≤ maxDigits then some (value ds) else none := by
    simp [natural?, digits?_of_map hmap hne]
  unfold Numeral.read?
  rw [htrim]
  split
  · next cs hcs =>
    obtain ⟨d, hd⟩ := hdigit '+' (by rw [hcs]; exact List.mem_cons_self)
    have hnone : Digit.value? '+' = none := by decide
    rw [hnone] at hd
    cases hd
  · next cs hcs =>
    obtain ⟨d, hd⟩ := hdigit '-' (by rw [hcs]; exact List.mem_cons_self)
    have hnone : Digit.value? '-' = none := by decide
    rw [hnone] at hd
    cases hd
  · rw [hnatural]
    split <;> rfl

/-- A text of digits is read as the number that they denote. -/
theorem Spells.read? {text : String} {n : ℕ} (h : Spells text n) :
    Numeral.read? text = some (n : Int) := by
  obtain ⟨ds, hmap, hne, hlength, rfl⟩ := h
  rw [read?_of_map hmap hne, if_pos hlength]

/-- What a text of digits is read as is the number that they denote. -/
lemma spells_of_read? {text : String} {n : Int}
    (h : ∀ c ∈ text.toList, Digit.isDigit c = true)
    (hread : Numeral.read? text = some n) :
    ∃ k : ℕ, n = k ∧ Spells text k := by
  have hne : text.toList ≠ [] := by
    intro hnil
    rw [Numeral.read?, hnil] at hread
    cases hread
  have hmap := map_value? h
  have hds : (text.toList.map fun c => (Digit.value? c).getD 0) ≠ [] :=
    fun hnil => hne (List.map_eq_nil_iff.mp hnil)
  rw [read?_of_map hmap hds] at hread
  split at hread
  · next hlength =>
    exact ⟨_, (Option.some.inj hread).symm, _, hmap, hds, hlength, rfl⟩
  · cases hread

/-- A text of digits is read as no negative number. -/
lemma nonneg_of_read? {text : String} {n : Int}
    (h : ∀ c ∈ text.toList, Digit.isDigit c = true)
    (hread : Numeral.read? text = some n) : 0 ≤ n := by
  obtain ⟨k, rfl, -⟩ := spells_of_read? h hread
  exact Int.natCast_nonneg k

end Numeral

end MonkeyLang

/-
The word at a place of a line.

* `runBefore_append`, `runAfter_append`: a run of word characters goes on with
  more of them; `runBefore_eq_nil`, `runAfter_eq_nil`: beside another character
  there is none;
* `wordAt_of_apart`: a word that stands apart in its line is found at each of its
  characters, and at its end;
* `WholeWord`: word characters in a row that go on neither before nor behind;
* `exists_wholeWord`: around each place of a line there is such a row, which may
  be empty; `WholeWord.within`: no other row around the place reaches further;
* `wordAt_longest`: so the word at a place is the longest row of word characters
  that contains or touches it.
-/
import MonkeyLang.Proofs.Editor.Apart
import MonkeyLang.Proofs.Editor.Cursor
import Mathlib.Data.List.DropRight

namespace MonkeyLang.Editor

open WordChar

variable {front word tail cs ws : List Char} {place start stop : ℕ}

/-! ### Words that stand apart -/

/-- A run of word characters goes on with word characters behind it. -/
lemma runBefore_append (hws : ∀ c ∈ ws, isWordChar c = true) :
    runBefore (cs ++ ws) = runBefore cs ++ ws := by
  have hws' : ∀ c ∈ ws.reverse, isWordChar c = true := fun c hc =>
    hws c (List.mem_reverse.mp hc)
  rw [runBefore, List.reverse_append, List.takeWhile_append_of_pos hws',
    List.reverse_append, List.reverse_reverse, runBefore]

/-- So does a run with word characters before it. -/
lemma runAfter_append (hws : ∀ c ∈ ws, isWordChar c = true) :
    runAfter (ws ++ cs) = ws ++ runAfter cs :=
  List.takeWhile_append_of_pos hws

/-- A text that starts with no word character starts with no run of them. -/
lemma runAfter_eq_nil (h : ∀ c ∈ cs.head?, isWordChar c = false) :
    runAfter cs = [] := by
  cases cs with
  | nil => rfl
  | cons c cs =>
      rw [runAfter, List.takeWhile_cons, h c rfl]
      rfl

/-- One that ends in none ends in no run of them. -/
lemma runBefore_eq_nil (h : ∀ c ∈ cs.getLast?, isWordChar c = false) :
    runBefore cs = [] := by
  rw [← List.head?_reverse] at h
  exact List.reverse_eq_nil_iff.mpr (runAfter_eq_nil h)

/-- A word is not empty. -/
lemma asWord_of_ne_nil (hne : word ≠ []) :
    asWord word = some (String.ofList word) := by
  rw [asWord, if_neg (by simpa using hne)]

/-- **A word that stands apart** in its line is found at each of its characters,
and at its end. -/
theorem wordAt_of_apart (h : Apart front tail)
    (hword : ∀ c ∈ word, isWordChar c = true) {k : ℕ} (hk : k ≤ word.length) :
    wordAt (front ++ (word ++ tail)) (front.length + k) =
      .ok (asWord word) := by
  have hbefore : (front ++ (word ++ tail)).take (front.length + k) =
      front ++ word.take k := by
    rw [List.take_length_add_append, List.take_append_of_le_length hk]
  have hbehind : (front ++ (word ++ tail)).drop (front.length + k) =
      word.drop k ++ tail := by
    rw [List.drop_length_add_append, List.drop_append_of_le_length hk]
  rw [wordAt_eq (by simp; omega), hbefore, hbehind,
    runBefore_append fun c hc => hword c (List.mem_of_mem_take hc),
    runAfter_append fun c hc => hword c (List.mem_of_mem_drop hc),
    runBefore_eq_nil h.1, runAfter_eq_nil h.2, List.nil_append,
    List.append_nil, List.take_append_drop]

/-! ### Whole words -/

/-- From `start` up to `stop` a line has word characters only, and none stands
right before or right behind them: a whole word, or nothing where no word
is. -/
structure WholeWord (cs : List Char) (start stop : ℕ) : Prop where
  start_le : start ≤ stop
  stop_le : stop ≤ cs.length
  isWord : ∀ c ∈ cs.extract start stop, isWordChar c = true
  apart : Apart (cs.take start) (cs.drop stop)

/-- Word characters that stand apart are a whole word. -/
lemma WholeWord.of_apart (h : Apart front tail)
    (hword : ∀ c ∈ word, isWordChar c = true) :
    WholeWord (front ++ (word ++ tail)) front.length
      (front.length + word.length) where
  start_le := by omega
  stop_le := by simp
  isWord := by simpa using hword
  apart := by simpa [List.drop_length_add_append] using h

/-- A line is cut into what stands before two places of it, between them and
behind them. -/
lemma take_append_extract_append_drop (h : start ≤ stop) :
    cs.take start ++ (cs.extract start stop ++ cs.drop stop) = cs := by
  have hdrop : cs.drop stop = (cs.drop start).drop (stop - start) := by
    rw [List.drop_drop, Nat.add_sub_cancel' h]
  rw [hdrop, List.take_append_drop, List.take_append_drop]

/-- A character between two places of a line. -/
lemma getElem_mem_extract {i : ℕ} (hi : i < cs.length) (hstart : start ≤ i)
    (hstop : i < stop) : cs[i] ∈ cs.extract start stop := by
  have hinside : i - start < (cs.extract start stop).length := by
    rw [List.length_take, List.length_drop]
    omega
  have hget : (cs.extract start stop)[i - start] = cs[i] := by
    simp only [List.getElem_take, List.getElem_drop,
      Nat.add_sub_cancel' hstart]
  exact hget ▸ List.getElem_mem hinside

/-- Around each place of a line there is a whole word, which may be empty. -/
lemma exists_wholeWord (h : place ≤ cs.length) :
    ∃ start stop, WholeWord cs start stop ∧ start ≤ place ∧ place ≤ stop := by
  let front := (cs.take place).rdropWhile isWordChar
  let before := (cs.take place).rtakeWhile isWordChar
  let behind := (cs.drop place).takeWhile isWordChar
  let tail := (cs.drop place).dropWhile isWordChar
  have hbefore : front ++ before = cs.take place :=
    List.rdropWhile_append_rtakeWhile
  have hbehind : behind ++ tail = cs.drop place :=
    List.takeWhile_append_dropWhile
  -- the line falls into what is before the word, the word around the place, and
  -- the rest
  have hcs : front ++ ((before ++ behind) ++ tail) = cs := by
    calc front ++ ((before ++ behind) ++ tail)
        = (front ++ before) ++ (behind ++ tail) := by simp
      _ = cs.take place ++ cs.drop place := by rw [hbefore, hbehind]
      _ = cs := List.take_append_drop place cs
  have hplace : front.length + before.length = place := by
    rw [← List.length_append, hbefore, List.length_take, Nat.min_eq_left h]
  have hapart : Apart front tail := by
    refine ⟨fun c hc => ?_, fun c hc =>
      Piece.eq_false_of_mem_head?_dropWhile hc⟩
    obtain ⟨hne, rfl⟩ := List.mem_getLast?_eq_getLast hc
    simpa using List.rdropWhile_last_not isWordChar (cs.take place) hne
  have hword : ∀ c ∈ before ++ behind, isWordChar c = true := by
    intro c hc
    rcases List.mem_append.mp hc with hc | hc
    · exact List.mem_rtakeWhile_imp hc
    · exact List.mem_takeWhile_imp hc
  have hwhole := WholeWord.of_apart hapart hword
  rw [hcs, List.length_append] at hwhole
  exact ⟨_, _, hwhole, by omega, by omega⟩

namespace WholeWord

variable (h : WholeWord cs start stop)

include h

/-- A whole word is found at each of its characters, and at its end. -/
lemma wordAt_eq (hstart : start ≤ place) (hstop : place ≤ stop) :
    wordAt cs place = .ok (asWord (cs.extract start stop)) := by
  have hle := h.stop_le
  have hfront : (cs.take start).length = start := by
    rw [List.length_take]
    omega
  have hword : (cs.extract start stop).length = stop - start := by
    simp
    omega
  have hfound := wordAt_of_apart h.apart h.isWord (k := place - start)
    (by omega)
  rwa [take_append_extract_append_drop h.start_le, hfront,
    Nat.add_sub_cancel' hstart] at hfound

/-- No row of word characters around a place of it reaches further. -/
lemma within (hstart : start ≤ place) (hstop : place ≤ stop) {low high : ℕ}
    (hlow : low ≤ place) (hhigh : place ≤ high) (hle : high ≤ cs.length)
    (hword : ∀ c ∈ cs.extract low high, isWordChar c = true) :
    start ≤ low ∧ high ≤ stop := by
  have hlength := h.stop_le
  constructor
  · -- the character before the whole word would be one of the row
    by_contra hbefore
    have hlast : cs[start - 1] ∈ (cs.take start).getLast? := by
      rw [List.getLast?_take, if_neg (by omega),
        List.getElem?_eq_getElem (by omega)]
      rfl
    have hin := hword _ (getElem_mem_extract (i := start - 1) (by omega)
      (by omega) (by omega))
    rw [h.apart.1 _ hlast] at hin
    cases hin
  · -- so would the one behind it
    by_contra hbehind
    have hhead : cs[stop] ∈ (cs.drop stop).head? := by
      rw [List.head?_drop, List.getElem?_eq_getElem]
      rfl
    have hin := hword _ (getElem_mem_extract (i := stop) (by omega)
      (by omega) (by omega))
    rw [h.apart.2 _ hhead] at hin
    cases hin

/-- It is empty if it has no character. -/
lemma extract_eq_nil_iff : cs.extract start stop = [] ↔ start = stop := by
  have hle := h.stop_le
  have hstart := h.start_le
  rw [← List.length_eq_zero_iff, List.length_take, List.length_drop]
  omega

end WholeWord

/-- There is no word at a place exactly where no word character stands right
before or right behind it. -/
lemma wordAt_eq_none_iff (h : place ≤ cs.length) :
    wordAt cs place = .ok none ↔ Apart (cs.take place) (cs.drop place) := by
  constructor
  · intro hnone
    obtain ⟨start, stop, hwhole, hstart, hstop⟩ := exists_wholeWord h
    rw [hwhole.wordAt_eq hstart hstop] at hnone
    have hempty : cs.extract start stop = [] := by
      by_contra hne
      rw [asWord_of_ne_nil hne] at hnone
      cases hnone
    have heq := hwhole.extract_eq_nil_iff.mp hempty
    obtain ⟨rfl, rfl⟩ : start = place ∧ stop = place := by omega
    exact hwhole.apart
  · intro hapart
    have hwhole : WholeWord cs place place :=
      { start_le := Nat.le_refl _
        stop_le := h
        isWord := by simp
        apart := hapart }
    rw [hwhole.wordAt_eq (Nat.le_refl _) (Nat.le_refl _),
      hwhole.extract_eq_nil_iff.mpr rfl]
    rfl

/-- **The longest word.**  For every line and every place up to its end, the word
at the place is the whole word around it, from some `start` up to some `stop`
with the place between: all characters in it are word characters, and neither
the one before it nor the one behind it is.  The same word is found at each place
from `start` to `stop`, and every row of word characters that contains or touches
the place lies between them.  No word is found exactly where neither the
character before the place nor the one behind it is a word character. -/
theorem wordAt_longest (h : place ≤ cs.length) :
    ∃ start stop, WholeWord cs start stop ∧ start ≤ place ∧ place ≤ stop ∧
      (∀ p, start ≤ p → p ≤ stop → wordAt cs p =
        .ok (if start = stop then none
          else some (String.ofList (cs.extract start stop)))) ∧
      (∀ low high, low ≤ place → place ≤ high → high ≤ cs.length →
        (∀ c ∈ cs.extract low high, isWordChar c = true) →
          start ≤ low ∧ high ≤ stop) ∧
      (wordAt cs place = .ok none ↔
        Apart (cs.take place) (cs.drop place)) := by
  obtain ⟨start, stop, hwhole, hstart, hstop⟩ := exists_wholeWord h
  refine ⟨start, stop, hwhole, hstart, hstop, fun p hlow hhigh => ?_,
    fun low high => hwhole.within hstart hstop, wordAt_eq_none_iff h⟩
  rw [hwhole.wordAt_eq hlow hhigh]
  split
  · next heq =>
    rw [hwhole.extract_eq_nil_iff.mpr heq]
    rfl
  · next hne =>
    rw [asWord_of_ne_nil (mt hwhole.extract_eq_nil_iff.mp hne)]

/-- At each place from its start to its end, behind a parenthesis and before a
comma. -/
theorem wordAt_longest_argument :
    6 ≤ "add(size_2, 1)".toList.length ∧ ∀ p, 4 ≤ p → p ≤ 10 →
      wordAt "add(size_2, 1)".toList p = .ok (some "size_2") := by
  have hplace : 6 ≤ "add(size_2, 1)".toList.length := by decide
  obtain ⟨start, stop, -, hstart, hstop, hsame, hwithin, -⟩ :=
    wordAt_longest hplace
  have hword : ("add(size_2, 1)".toList.extract 4 10).all isWordChar = true := by
    decide
  obtain ⟨hlow, hhigh⟩ := hwithin 4 10 (by decide) (by decide) (by decide)
    (List.all_eq_true.mp hword)
  refine ⟨hplace, fun p hp hp' => ?_⟩
  rw [hsame p (by omega) (by omega), ← hsame 6 hstart hstop]
  decide

end MonkeyLang.Editor

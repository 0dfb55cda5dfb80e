/-
Where the walks along a line end.

* `runBefore_take_succ`, `runAfter_drop`: the runs of word characters on both
  sides of a place, one character further;
* `wordStart_eq`, `wordEnd_eq`: from a place of the line the walks end where
  these runs do;
* `wordAt_eq`: so the word at a place of a line is the run before it followed
  by the one behind it; `wordAt_beyond`: beyond the line there is no answer;
* `calleeAt_eq`: the walk back to the callee stays inside the text.
-/
import MonkeyLang.Editor.Cursor
import Mathlib.Tactic.Common

namespace MonkeyLang.Editor

open WordChar

variable {cs : List Char} {place : ℕ}

/-! ### Runs of word characters -/

lemma charAt_of_lt (h : place < cs.length) :
    charAt cs place = .ok cs[place] := by
  rw [charAt, List.getElem?_eq_getElem h]

lemma charAt_beyond (h : cs.length ≤ place) :
    charAt cs place = .error .beyondLine := by
  rw [charAt, List.getElem?_eq_none h]

/-- The run before the next place goes on if a word character stands
between. -/
lemma runBefore_take_succ (h : place < cs.length) :
    runBefore (cs.take (place + 1)) =
      if isWordChar cs[place] then
        runBefore (cs.take place) ++ [cs[place]]
      else [] := by
  rw [runBefore, ← List.take_append_getElem h, List.reverse_append,
    List.reverse_singleton, List.singleton_append, List.takeWhile_cons]
  split
  · rw [List.reverse_cons, runBefore]
  · rfl

/-- The run behind a place starts with the character that stands there. -/
lemma runAfter_drop (h : place < cs.length) :
    runAfter (cs.drop place) =
      if isWordChar cs[place] then
        cs[place] :: runAfter (cs.drop (place + 1))
      else [] := by
  rw [runAfter, List.drop_eq_getElem_cons h, List.takeWhile_cons]
  rfl

/-! ### Walks to both sides -/

/-- Back from a place of the line. -/
lemma wordStart_eq (h : place ≤ cs.length) :
    ∃ start, wordStart cs place = .ok start ∧ start ≤ place ∧
      (cs.take place).drop start = runBefore (cs.take place) := by
  induction place with
  | zero => exact ⟨0, rfl, Nat.le_refl 0, rfl⟩
  | succ place ih =>
      obtain ⟨start, hwalk, hle, hrun⟩ := ih (Nat.le_of_succ_le h)
      have hstep : wordStart cs (place + 1) =
          if isWordChar cs[place] then wordStart cs place
          else .ok (place + 1) := by
        rw [wordStart, charAt_of_lt h]
        rfl
      rw [hstep, runBefore_take_succ h]
      split
      · refine ⟨start, hwalk, Nat.le_succ_of_le hle, ?_⟩
        rw [← hrun, ← List.take_append_getElem h,
          List.drop_append_of_le_length]
        rw [List.length_take]
        omega
      · refine ⟨place + 1, rfl, Nat.le_refl _, List.drop_eq_nil_of_le ?_⟩
        exact List.length_take_le _ _

/-- On from a place of the line, to its end at most. -/
lemma wordEnd_eq {n : ℕ} (h : place + n = cs.length) :
    ∃ stop, wordEnd cs place n = .ok stop ∧ place ≤ stop ∧
      (cs.take stop).drop place = runAfter (cs.drop place) := by
  -- the induction is on what is left of the line behind the place
  induction n generalizing place with
  | zero =>
      refine ⟨place, rfl, Nat.le_refl _, ?_⟩
      rw [List.drop_eq_nil_of_le (List.length_take_le _ _),
        List.drop_eq_nil_of_le (show cs.length ≤ place by omega)]
      rfl
  | succ n ih =>
      have hlt : place < cs.length := by omega
      obtain ⟨stop, hwalk, hle, hrun⟩ := ih (by omega : place + 1 + n = _)
      have hstep : wordEnd cs place (n + 1) =
          if isWordChar cs[place] then wordEnd cs (place + 1) n
          else .ok place := by
        rw [wordEnd, charAt_of_lt hlt]
        rfl
      rw [hstep, runAfter_drop hlt]
      split
      · refine ⟨stop, hwalk, Nat.le_of_succ_le hle, ?_⟩
        have hinside : place < (cs.take stop).length := by
          rw [List.length_take]
          omega
        rw [← hrun, List.drop_eq_getElem_cons hinside, List.getElem_take]
      · exact ⟨place, rfl, Nat.le_refl _,
          List.drop_eq_nil_of_le (List.length_take_le _ _)⟩

/-- **The word at a place of a line** is the run of word characters before it,
followed by the one behind it. -/
theorem wordAt_eq (h : place ≤ cs.length) :
    wordAt cs place =
      .ok (asWord (runBefore (cs.take place) ++
        runAfter (cs.drop place))) := by
  obtain ⟨start, hstart, hback, hbefore⟩ := wordStart_eq h
  obtain ⟨stop, hstop, hon, hbehind⟩ :=
    wordEnd_eq (Nat.add_sub_cancel' h)
  have hword : (cs.take stop).drop start =
      runBefore (cs.take place) ++ runAfter (cs.drop place) := by
    have hsplit : cs.take stop =
        cs.take place ++ (cs.take stop).drop place := by
      have happend := List.take_append_drop place (cs.take stop)
      rw [List.take_take, Nat.min_eq_left hon] at happend
      exact happend.symm
    rw [hsplit, List.drop_append_of_le_length, hbefore, hbehind]
    rw [List.length_take]
    omega
  rw [wordAt, hstart, hstop, ← hword]
  rfl

/-- Beyond the end of a line there is no answer: the character before the
place is looked at. -/
theorem wordAt_beyond (h : cs.length < place) :
    wordAt cs place = .error .beyondLine := by
  obtain ⟨place, rfl⟩ : ∃ n, place = n + 1 := ⟨place - 1, by omega⟩
  rw [wordAt, wordStart, charAt_beyond (Nat.le_of_lt_succ h)]
  rfl

/-! ### The walk back to a callee -/

/-- The walk stays inside the text and finds what stands before the open
parenthesis. -/
theorem calleeAt_eq {text : List Char} (closed : ℕ)
    (h : place ≤ text.length) :
    calleeAt text closed place =
      .ok (calleeFrom closed (text.take place).reverse) := by
  induction place generalizing closed with
  | zero => rw [calleeAt, List.take_zero, List.reverse_nil, calleeFrom]
  | succ place ih =>
      have ih (closed : ℕ) := ih closed (Nat.le_of_succ_le h)
      rw [calleeAt, charAt_of_lt h, ← List.take_append_getElem h,
        List.reverse_append, List.reverse_singleton, List.singleton_append]
      generalize text[place] = c
      change (pure c >>= _ : Except PlaceFault _) = _
      rw [pure_bind]
      split
      · rw [ih, calleeFrom]
      · -- nothing stands behind the end of what is looked at
        have hlength : (text.take place).length = place := by
          rw [List.length_take]
          omega
        have hword := wordAt_eq (Nat.le_of_eq hlength.symm)
        rw [List.take_of_length_le (Nat.le_of_eq hlength),
          List.drop_eq_nil_of_le (Nat.le_of_eq hlength)] at hword
        rw [hword, calleeFrom, List.reverse_reverse, runAfter,
          List.takeWhile_nil, List.append_nil]
      · rw [ih, calleeFrom]
      · rw [ih, calleeFrom]
        all_goals simp_all

end MonkeyLang.Editor

/-
Whose arguments stand at the end of a text.

* `openPlaces`: where the parentheses stand that are open at the end of a text,
  the innermost one first, as found from left to right;
* `openPlaces_concat_open`, `openPlaces_concat_close`, `openPlaces_concat_other`:
  what one more character does to them;
* `calleeInside`: the word right before the innermost one;
* `calleeFrom_reverse`: the walk back that has closed some parentheses looks for
  the open one that is as many further out;
* `calleeAt_eq_calleeInside`: so from the end of a text it finds that word.
-/
import MonkeyLang.Proofs.Editor.Cursor
import Mathlib.Data.List.DropRight
import Mathlib.Data.List.Induction

namespace MonkeyLang.Editor

open WordChar

/-! ### Open parentheses, from left to right -/

/-- One more character: an opening parenthesis is open at its place, and a
closing one closes the last that is open, if there is one. -/
def openStep (opened : List ℕ) : Char × ℕ → List ℕ
  | ('(', place) => place :: opened
  | (')', _) => opened.tail
  | _ => opened

/-- The places of the parentheses that are open at the end of a text, the
innermost one first. -/
def openPlaces (cs : List Char) : List ℕ := cs.zipIdx.foldl openStep []

/-- The word right before the innermost parenthesis that is open at the end of
a text: all word characters that stand there in a row. -/
def calleeInside (cs : List Char) : Option String :=
  match openPlaces cs with
  | [] => none
  | place :: _ =>
    let word := (cs.take place).rtakeWhile isWordChar
    if word = [] then none else some (String.ofList word)

variable {cs : List Char} {c : Char} {place : ℕ}

lemma openPlaces_concat (cs : List Char) (c : Char) :
    openPlaces (cs ++ [c]) = openStep (openPlaces cs) (c, cs.length) := by
  simp [openPlaces, List.zipIdx_append]

lemma openPlaces_concat_open (cs : List Char) :
    openPlaces (cs ++ ['(']) = cs.length :: openPlaces cs :=
  openPlaces_concat cs '('

lemma openPlaces_concat_close (cs : List Char) :
    openPlaces (cs ++ [')']) = (openPlaces cs).tail :=
  openPlaces_concat cs ')'

lemma openPlaces_concat_other (hopen : c ≠ '(') (hclose : c ≠ ')') :
    openPlaces (cs ++ [c]) = openPlaces cs := by
  rw [openPlaces_concat, openStep]
  · rintro _ ⟨⟩
    exact hopen rfl
  · rintro _ ⟨⟩
    exact hclose rfl

/-- They stand in the text. -/
lemma lt_length_of_mem_openPlaces (h : place ∈ openPlaces cs) :
    place < cs.length := by
  induction cs using List.reverseRecOn with
  | nil => cases h
  | append_singleton cs c ih =>
      rw [List.length_append, List.length_singleton]
      by_cases hopen : c = '('
      · subst hopen
        rw [openPlaces_concat_open] at h
        rcases List.mem_cons.mp h with rfl | h
        · exact Nat.lt_succ_self _
        · exact Nat.lt_succ_of_lt (ih h)
      by_cases hclose : c = ')'
      · subst hclose
        rw [openPlaces_concat_close] at h
        exact Nat.lt_succ_of_lt (ih (List.mem_of_mem_tail h))
      · rw [openPlaces_concat_other hopen hclose] at h
        exact Nat.lt_succ_of_lt (ih h)

/-! ### The walk back -/

/-- The word before the parenthesis that is open as many further out. -/
def calleeOutside (cs : List Char) (closed : ℕ) : Option String :=
  (openPlaces cs)[closed]?.bind fun place => asWord (runBefore (cs.take place))

/-- What stands behind an open parenthesis does not change the word before
it. -/
lemma calleeOutside_congr {ds : List Char} {n m : ℕ}
    (h : (openPlaces (cs ++ ds))[n]? = (openPlaces cs)[m]?) :
    calleeOutside (cs ++ ds) n = calleeOutside cs m := by
  rw [calleeOutside, calleeOutside, h]
  refine Option.bind_congr fun place hplace => ?_
  have hlt := lt_length_of_mem_openPlaces (List.mem_of_getElem? hplace)
  rw [List.take_append_of_le_length (Nat.le_of_lt hlt)]

/-- Where the walk back has come to a place behind which `closed` parentheses
have to be opened first, it looks for the one that is open as many further
out. -/
theorem calleeFrom_reverse (cs : List Char) (closed : ℕ) :
    calleeFrom closed cs.reverse = calleeOutside cs closed := by
  induction cs using List.reverseRecOn generalizing closed with
  | nil => rfl
  | append_singleton cs c ih =>
      rw [List.reverse_append, List.reverse_singleton, List.singleton_append]
      by_cases hclose : c = ')'
      · -- one more parenthesis has to be opened first
        subst hclose
        rw [calleeFrom, ih, calleeOutside_congr]
        rw [openPlaces_concat_close, List.getElem?_tail]
      by_cases hopen : c = '('
      · subst hopen
        cases closed with
        | zero =>
            -- this one is open, and what stands before it ends at its place
            rw [calleeFrom, List.reverse_reverse, calleeOutside,
              openPlaces_concat_open, List.getElem?_cons_zero,
              Option.bind_some, List.take_left]
        | succ closed =>
            rw [calleeFrom, ih, calleeOutside_congr]
            rw [openPlaces_concat_open, List.getElem?_cons_succ]
      · rw [calleeFrom, ih, calleeOutside_congr]
        · rw [openPlaces_concat_other hopen hclose]
        · exact hclose
        · exact fun _ => hopen
        · exact fun _ _ => hopen

/-- **The callee before the cursor.**  For every text, the walk back from its end
answers, and what it finds is the word right before the innermost parenthesis
that is open there when the text is read from left to right, where a closing
parenthesis that closes none does not count: no callee if none is open or no word
stands before it. -/
theorem calleeAt_eq_calleeInside (text : List Char) :
    calleeAt text 0 text.length = .ok (calleeInside text) ∧
      calleeBefore text = calleeInside text := by
  have hword : calleeBefore text = calleeInside text := by
    rw [calleeBefore, calleeFrom_reverse, calleeOutside, calleeInside]
    cases openPlaces text with
    | nil => rfl
    | cons place places =>
        change asWord ((text.take place).rtakeWhile isWordChar) = _
        simp only [asWord, List.isEmpty_iff]
  refine ⟨?_, hword⟩
  rw [calleeAt_eq 0 (Nat.le_refl _), List.take_length, ← calleeBefore, hword]

/-- A parenthesis that closes none changes nothing, and one that is closed again
is none to look for. -/
example : calleeInside ") add(len(x), ((y) * 2), ".toList = some "add" := by
  decide +kernel

end MonkeyLang.Editor

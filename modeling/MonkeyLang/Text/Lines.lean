/-
Lines of a text.

* `Lines.isBreak`: the characters that end a line in an editor;
* `Lines.split`: the lines of a text, where a carriage return and the line
  feed after it end one line and a break at the very end opens none;
* `Lines.unify`: every line end of a file written as a single line feed.
-/

namespace MonkeyLang.Lines

/-! ### Lines as an editor counts them -/

/-- The code points that end a line: line feed, vertical tab, form feed,
carriage return, the separators of files, groups and records, next line,
line separator and paragraph separator. -/
def breaks : List Nat :=
  [0x0A, 0x0B, 0x0C, 0x0D, 0x1C, 0x1D, 0x1E, 0x85, 0x2028, 0x2029]

/-- A character that ends a line. -/
def isBreak (c : Char) : Bool := breaks.contains c.toNat

/-- The lines of a text whose current line has `line`, in reverse, before
it.  `fresh` says that nothing of the current line was met, so that no
line is opened after the last break. -/
def splitFrom (line : List Char) (fresh : Bool) : List Char → List (List Char)
  | [] => if fresh then [] else [line.reverse]
  | '\r' :: '\n' :: cs => line.reverse :: splitFrom [] true cs
  | c :: cs =>
    if isBreak c then line.reverse :: splitFrom [] true cs
    else splitFrom (c :: line) false cs

/-- The lines of a text, without their ends. -/
def split (cs : List Char) : List (List Char) := splitFrom [] true cs

/-! ### Line ends of a file -/

/-- Writes each line end of a file, be it a carriage return with a line
feed or a lone carriage return, as one line feed. -/
def unify : List Char → List Char
  | [] => []
  | '\r' :: '\n' :: cs => '\n' :: unify cs
  | '\r' :: cs => '\n' :: unify cs
  | c :: cs => c :: unify cs

/-- A text without carriage returns is not changed. -/
theorem unify_eq_self {cs : List Char} (h : '\r' ∉ cs) : unify cs = cs := by
  induction cs with
  | nil => rfl
  | cons c cs ih =>
    simp only [List.mem_cons, not_or] at h
    rw [unify, ih h.2]
    · rintro _ rfl; exact absurd rfl h.1
    · rintro rfl; exact absurd rfl h.1

end MonkeyLang.Lines

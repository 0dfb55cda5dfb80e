/-
Blank characters and how text is stripped of them:

* `Blank.isSpace`: white space of all scripts;
* `Blank.isBlank`: white space, and the control characters that separate
  files, groups, records and units;
* `Blank.trim`: a text without the blanks at its two ends;
* `Blank.trim_eq_self`: a text with no blank at either end stays as it is.
-/

namespace MonkeyLang.Blank

/-! ### Classes of blanks -/

/-- The code points of white space beyond ASCII. -/
def wideSpaces : List Nat :=
  [0x85, 0xA0, 0x1680, 0x2000, 0x2001, 0x2002, 0x2003, 0x2004, 0x2005,
   0x2006, 0x2007, 0x2008, 0x2009, 0x200A, 0x2028, 0x2029, 0x202F, 0x205F,
   0x3000]

/-- White space: the space, the tab, the line feed, the vertical tab, the
form feed, the carriage return, and the spaces beyond ASCII. -/
def isSpace (c : Char) : Bool :=
  c = ' ' || (0x09 ≤ c.toNat && c.toNat ≤ 0x0D) ||
    wideSpaces.contains c.toNat

/-- The control characters that separate files, groups, records and
units. -/
def isSeparator (c : Char) : Bool := 0x1C ≤ c.toNat && c.toNat ≤ 0x1F

/-- White space or a separator. -/
def isBlank (c : Char) : Bool := isSpace c || isSeparator c

/-- White space is blank. -/
theorem isBlank_of_isSpace {c : Char} (h : isSpace c = true) :
    isBlank c = true := by
  simp [isBlank, h]

/-! ### Stripping -/

/-- The characters without those at the two ends that satisfy `p`. -/
def trim (p : Char → Bool) (cs : List Char) : List Char :=
  ((cs.dropWhile p).reverse.dropWhile p).reverse

/-- A nonempty text with no blank at either end is not changed. -/
theorem trim_eq_self {p : Char → Bool} {cs : List Char} (hne : cs ≠ [])
    (hfirst : p (cs.head hne) = false) (hlast : p (cs.getLast hne) = false) :
    trim p cs = cs := by
  have hdrop : ∀ (ds : List Char) (h : ds ≠ []), p (ds.head h) = false →
      ds.dropWhile p = ds := by
    intro ds h hd
    cases ds with
    | nil => exact absurd rfl h
    | cons d ds => simp_all [List.dropWhile]
  have hrev : cs.reverse ≠ [] := by simpa using hne
  rw [trim, hdrop cs hne hfirst, hdrop cs.reverse hrev (by simpa using hlast),
    List.reverse_reverse]

end MonkeyLang.Blank

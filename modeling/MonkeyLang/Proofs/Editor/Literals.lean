/-
What a string literal does to the callee before the cursor.

* `openPlaces_append`: behind a text the parentheses are open that the next text
  opens, and those of the first one that it does not close; `surplus` counts how
  many it closes;
* `openWords`: the words before the open parentheses, of which the callee is the
  innermost; `openWords_append`: those of two texts where no word crosses the
  border;
* `quoting`: a string literal between two texts; `openWords_quoting`: the words
  before the parentheses that are open behind it;
* `calleeBefore_quoting_iff`: two contents of the literal have the same callee
  wherever it stands if and only if they leave open the same words and close as
  many parentheses of what stands before;
* `calleeBefore_quoting_ne`: some contents do not.
-/
import MonkeyLang.Proofs.Editor.Calls
import MonkeyLang.Proofs.Editor.Words

namespace MonkeyLang.Editor

open WordChar

variable {cs ds : List Char} {c : Char}

/-! ### Two texts in a row -/

/-- How many closing parentheses of a text close none of its own: each one is
one more, unless an opening one stands before it that is still open. -/
def surplus : List Char → ℕ
  | [] => 0
  | '(' :: cs => surplus cs - 1
  | ')' :: cs => surplus cs + 1
  | _ :: cs => surplus cs

lemma surplus_cons_other (hopen : c ≠ '(') (hclose : c ≠ ')') :
    surplus (c :: cs) = surplus cs := by
  rw [surplus]
  · exact hopen
  · exact hclose

/-- One character alone opens nothing, unless it is an opening parenthesis. -/
lemma openPlaces_singleton (hopen : c ≠ '(') (hclose : c ≠ ')') :
    openPlaces [c] = [] :=
  @openPlaces_concat_other [] c hopen hclose

/-- **Open parentheses of two texts.**  Those of the second one are open, and
those of the first one but for as many as the second one closes. -/
theorem openPlaces_append (cs ds : List Char) :
    openPlaces (cs ++ ds) =
      (openPlaces ds).map (cs.length + ·) ++
        (openPlaces cs).drop (surplus ds) := by
  induction ds generalizing cs with
  | nil => simp [openPlaces, surplus]
  | cons d ds ih =>
      -- the first character of the second text goes over to the first one
      have hboth : openPlaces (cs ++ d :: ds) =
          (openPlaces ds).map (cs.length + 1 + ·) ++
            (openPlaces (cs ++ [d])).drop (surplus ds) := by
        rw [List.append_cons, ih]
        simp
      have hsecond : openPlaces (d :: ds) =
          (openPlaces ds).map (1 + ·) ++
            (openPlaces [d]).drop (surplus ds) := ih [d]
      have hshift : (openPlaces ds).map (cs.length + 1 + ·) =
          ((openPlaces ds).map (1 + ·)).map (cs.length + ·) := by
        rw [List.map_map]
        exact List.map_congr_left fun _ _ => Nat.add_assoc _ _ _
      rw [hboth, hsecond, List.map_append, hshift, List.append_assoc]
      congr 1
      by_cases hopen : d = '('
      · subst hopen
        rw [openPlaces_concat_open, surplus]
        -- the parenthesis is the first to be closed
        cases surplus ds with
        | zero => rfl
        | succ n => simp [openPlaces, openStep]
      by_cases hclose : d = ')'
      · subst hclose
        rw [openPlaces_concat_close, surplus, List.drop_tail]
        simp [openPlaces, openStep]
      · rw [openPlaces_concat_other hopen hclose,
          surplus_cons_other hopen hclose]
        simp [openPlaces_singleton hopen hclose]

/-! ### The words before open parentheses -/

/-- The words before the parentheses that are open at the end of a text, the
innermost one first; before some there may be none. -/
def openWords (cs : List Char) : List (Option String) :=
  (openPlaces cs).map fun place => asWord (runBefore (cs.take place))

/-- The callee before the cursor is the innermost of these words. -/
lemma calleeBefore_eq_join (cs : List Char) :
    calleeBefore cs = (openWords cs)[0]?.join := by
  rw [calleeBefore, calleeFrom_reverse, calleeOutside, openWords,
    List.getElem?_map]
  cases (openPlaces cs)[0]? <;> rfl

/-- A run of word characters goes on with one more, or ends. -/
lemma runBefore_concat (cs : List Char) (c : Char) :
    runBefore (cs ++ [c]) =
      if isWordChar c then runBefore cs ++ [c] else [] :=
  List.rtakeWhile_concat isWordChar cs c

/-- Behind another character it starts anew. -/
lemma runBefore_behind (h : ∀ c ∈ cs.getLast?, isWordChar c = false) :
    runBefore (cs ++ ds) = runBefore ds := by
  induction ds using List.reverseRecOn with
  | nil =>
      rw [List.append_nil, runBefore_eq_nil h]
      rfl
  | append_singleton ds d ih =>
      rw [← List.append_assoc, runBefore_concat, runBefore_concat, ih]

/-- **The words of two texts.**  Where no word crosses the border they are those
of the second text, and those of the first one but for as many as the second one
closes. -/
theorem openWords_append (h : ∀ c ∈ cs.getLast?, isWordChar c = false)
    (ds : List Char) :
    openWords (cs ++ ds) = openWords ds ++ (openWords cs).drop (surplus ds) := by
  rw [openWords, openPlaces_append, List.map_append, List.map_map, openWords,
    openWords, ← List.map_drop]
  congr 1
  · refine List.map_congr_left fun place _ => ?_
    rw [Function.comp_apply, List.take_length_add_append, runBefore_behind h]
  · refine List.map_congr_left fun place hplace => ?_
    have hlt := lt_length_of_mem_openPlaces (List.mem_of_mem_drop hplace)
    rw [List.take_append_of_le_length (Nat.le_of_lt hlt)]

/-- Across a quote goes no word. -/
lemma openWords_quote (cs ds : List Char) :
    openWords (cs ++ '"' :: ds) =
      openWords ds ++ (openWords cs).drop (surplus ds) := by
  have hquote : openWords (cs ++ ['"']) = openWords cs := by
    rw [openWords, openPlaces_concat_other (by decide) (by decide), openWords]
    refine List.map_congr_left fun place hplace => ?_
    have hlt := lt_length_of_mem_openPlaces hplace
    rw [List.take_append_of_le_length (Nat.le_of_lt hlt)]
  have hlast : ∀ c ∈ (cs ++ ['"']).getLast?, isWordChar c = false := by
    intro c hc
    rw [List.getLast?_concat] at hc
    obtain rfl := Option.some.inj hc
    decide
  rw [List.append_cons, openWords_append hlast, hquote]

/-- No word is longer than its text. -/
lemma length_le_of_mem_openWords {word : String}
    (h : some word ∈ openWords cs) : word.length ≤ cs.length := by
  obtain ⟨place, -, hword⟩ := List.mem_map.mp h
  have hne : runBefore (cs.take place) ≠ [] := by
    intro hnil
    rw [hnil] at hword
    cases hword
  rw [asWord_of_ne_nil hne] at hword
  obtain rfl := Option.some.inj hword
  rw [String.length_ofList, runBefore, List.length_reverse]
  calc ((cs.take place).reverse.takeWhile isWordChar).length
      ≤ (cs.take place).reverse.length :=
        (List.takeWhile_prefix isWordChar).length_le
    _ = (cs.take place).length := List.length_reverse
    _ ≤ cs.length := List.length_take_le' place cs

/-! ### A string literal -/

/-- A string literal with some content between two texts. -/
def quoting (before content behind : List Char) : List Char :=
  before ++ '"' :: (content ++ '"' :: behind)

/-- The words before the parentheses that are open behind a string literal: the
content of the literal opens and closes parentheses as all other text does. -/
theorem openWords_quoting (a s b : List Char) :
    openWords (quoting a s b) =
      openWords b ++ (openWords s ++ (openWords a).drop (surplus s)).drop
        (surplus b) := by
  have hsplit : quoting a s b = (a ++ '"' :: s) ++ '"' :: b := by
    simp [quoting]
  rw [hsplit, openWords_quote, openWords_quote]

/-! ### What tells two contents apart -/

/-- A text without quotes and comments. -/
def Plain (cs : List Char) : Prop := '"' ∉ cs ∧ ¬ ['/', '/'] <:+: cs

lemma plain_of_forall {q : Char → Prop} (h : ∀ c ∈ cs, q c) (hquote : ¬ q '"')
    (hslash : ¬ q '/') : Plain cs :=
  ⟨fun hmem => hquote (h _ hmem), fun hslashes =>
    hslash (h _ (hslashes.subset List.mem_cons_self))⟩

/-- Calls of a function in each other's arguments, all of them open. -/
def nestedCalls (name : List Char) (n : ℕ) : List Char :=
  (List.replicate n (name ++ ['('])).flatten

lemma plain_nestedCalls {name : List Char}
    (hname : ∀ c ∈ name, isWordChar c = true) (n : ℕ) :
    Plain (nestedCalls name n) := by
  refine plain_of_forall (q := fun c => isWordChar c = true ∨ c = '(') ?_
    (by decide) (by decide)
  intro c hc
  obtain ⟨call, hcall, hc⟩ := List.mem_flatten.mp hc
  rw [List.eq_of_mem_replicate hcall] at hc
  rcases List.mem_append.mp hc with hc | hc
  · exact Or.inl (hname c hc)
  · exact Or.inr (List.mem_singleton.mp hc)

lemma nestedCalls_succ (name : List Char) (n : ℕ) :
    nestedCalls name (n + 1) = nestedCalls name n ++ (name ++ ['(']) := by
  rw [nestedCalls, nestedCalls, List.replicate_succ', List.flatten_append,
    List.flatten_singleton]

/-- Where no parentheses stand none is open, and none closes another one. -/
lemma openPlaces_of_forall (h : ∀ c ∈ cs, c ≠ '(' ∧ c ≠ ')') (ds : List Char) :
    openPlaces cs = [] ∧ surplus (cs ++ ds) = surplus ds := by
  induction cs with
  | nil => exact ⟨rfl, rfl⟩
  | cons c cs ih =>
      obtain ⟨⟨hopen, hclose⟩, hcs⟩ := List.forall_mem_cons.mp h
      have hboth := openPlaces_append [c] cs
      rw [(ih hcs).1, openPlaces_singleton hopen hclose, List.drop_nil,
        List.map_nil] at hboth
      refine ⟨hboth, ?_⟩
      rw [List.cons_append, surplus_cons_other hopen hclose, (ih hcs).2]

/-- Before each open parenthesis of the calls the name stands. -/
lemma openWords_nestedCalls {name : List Char}
    (hname : ∀ c ∈ name, isWordChar c = true) (hne : name ≠ []) (n : ℕ) :
    openWords (nestedCalls name n) =
      List.replicate n (some (String.ofList name)) := by
  have hnone : ∀ c ∈ name, c ≠ '(' ∧ c ≠ ')' := by
    intro c hc
    have hword := hname c hc
    constructor
    · rintro rfl
      cases hword
    · rintro rfl
      cases hword
  have hcall : openWords (name ++ ['(']) = [some (String.ofList name)] := by
    have hrun : runBefore name = name := @runBefore_append [] name hname
    rw [openWords, openPlaces_concat_open, (openPlaces_of_forall hnone []).1,
      List.map_singleton, List.take_left, hrun, asWord_of_ne_nil hne]
  induction n with
  | zero => rfl
  | succ n ih =>
      -- each call starts behind a parenthesis, so its name is a word of its own
      have hlast : ∀ c ∈ (nestedCalls name n).getLast?,
          isWordChar c = false := by
        cases n with
        | zero => exact nofun
        | succ n =>
            rw [nestedCalls_succ, ← List.append_assoc, List.getLast?_concat]
            rintro c ⟨⟩
            decide
      rw [nestedCalls_succ, openWords_append hlast, hcall,
        (openPlaces_of_forall hnone ['(']).2, ih]
      rfl

/-- Closing parentheses alone close as many as they are. -/
lemma openWords_closings (n : ℕ) :
    openWords (List.replicate n ')') = [] ∧
      surplus (List.replicate n ')') = n := by
  have hnone : openPlaces (List.replicate n ')') = [] := by
    induction n with
    | zero => rfl
    | succ n ih => rw [List.replicate_succ', openPlaces_concat_close, ih]; rfl
  constructor
  · rw [openWords, hnone, List.map_nil]
  · clear hnone
    induction n with
    | zero => rfl
    | succ n ih => rw [List.replicate_succ, surplus, ih]

/-- Two lists of words are each followed by one and the same further word, as
often as one likes, but for a number of times.  If they then have the same words
at the same places, the one in which that word is not has no more places. -/
lemma length_le_of_padded {ws vs : List (Option String)} {w : String} {k l : ℕ}
    (hvs : some w ∉ vs)
    (h : ∀ n m : ℕ, (ws ++ List.replicate (n - k) (some w))[m]?.join =
      (vs ++ List.replicate (n - l) (some w))[m]?.join) :
    vs.length ≤ ws.length := by
  by_contra hlt
  have hpadded := h (k + 1) ws.length
  rw [List.getElem?_append_right (Nat.le_refl _),
    List.getElem?_append_left (by omega), Nat.sub_self,
    Nat.add_sub_cancel_left] at hpadded
  have hmem : vs[ws.length]? = some (some w) :=
    Option.join_eq_some_iff.mp hpadded.symm
  exact hvs (List.mem_of_getElem? hmem)

/-- If they also have as many places, that number is no smaller for the one than
for the other. -/
lemma le_of_padded {ws vs : List (Option String)} {w : String} {k l : ℕ}
    (hlength : ws.length = vs.length)
    (h : ∀ n m : ℕ, (ws ++ List.replicate (n - k) (some w))[m]?.join =
      (vs ++ List.replicate (n - l) (some w))[m]?.join) : l ≤ k := by
  by_contra hlt
  have hpadded := h l ws.length
  rw [List.getElem?_append_right (Nat.le_refl _),
    List.getElem?_append_right (Nat.le_of_eq hlength.symm), hlength,
    Nat.sub_self, Nat.sub_self,
    List.getElem?_replicate_of_lt (by omega)] at hpadded
  cases hpadded

/-- So two lists in which that word is not are the same, and so are the
numbers. -/
lemma eq_of_padded {ws vs : List (Option String)} {w : String} {k l : ℕ}
    (hws : some w ∉ ws) (hvs : some w ∉ vs)
    (h : ∀ n m : ℕ, (ws ++ List.replicate (n - k) (some w))[m]?.join =
      (vs ++ List.replicate (n - l) (some w))[m]?.join) :
    ws = vs ∧ k = l := by
  have hlength : ws.length = vs.length :=
    Nat.le_antisymm (length_le_of_padded hws fun n m => (h n m).symm)
      (length_le_of_padded hvs h)
  refine ⟨List.ext_getElem hlength fun m hm hm' => ?_,
    Nat.le_antisymm (le_of_padded hlength.symm fun n m => (h n m).symm)
      (le_of_padded hlength h)⟩
  have hsame := h 0 m
  rw [List.getElem?_append_left hm, List.getElem?_append_left hm',
    List.getElem?_eq_getElem hm, List.getElem?_eq_getElem hm'] at hsame
  exact hsame

/-- **Which contents of a string literal are the same to the callee.**  Two
contents have the same callee before the cursor in every line, whatever stands
before and behind the literal, if and only if they leave open parentheses with
the same words before them, and close as many that they do not open.  Contents
whose parentheses are not balanced thus change the callee. -/
theorem calleeBefore_quoting_iff (s t : List Char) :
    (∀ a b, Plain a → Plain b →
      calleeBefore (quoting a s b) = calleeBefore (quoting a t b)) ↔
      openWords s = openWords t ∧ surplus s = surplus t := by
  constructor
  · intro h
    -- a name that is longer than both contents is none of their words
    let name := List.replicate (s.length + t.length + 1) 'x'
    have hname : ∀ c ∈ name, isWordChar c = true := by
      intro c hc
      rw [List.eq_of_mem_replicate hc]
      decide
    have hfresh {cs : List Char} (hcs : cs.length < name.length) :
        some (String.ofList name) ∉ openWords cs := by
      intro hmem
      have hle := length_le_of_mem_openWords hmem
      rw [String.length_ofList] at hle
      omega
    have hlength : name.length = s.length + t.length + 1 :=
      List.length_replicate
    refine eq_of_padded (hfresh (by omega)) (hfresh (by omega)) fun n m => ?_
    have hsame := h (nestedCalls name n) (List.replicate m ')')
      (plain_nestedCalls hname n)
      (plain_of_forall (q := (· = ')')) (fun _ => List.eq_of_mem_replicate)
        (by decide) (by decide))
    obtain ⟨hwords, hsurplus⟩ := openWords_closings m
    rw [calleeBefore_eq_join, calleeBefore_eq_join, openWords_quoting,
      openWords_quoting, hwords, hsurplus,
      openWords_nestedCalls hname (by simp [name]), List.nil_append,
      List.nil_append, List.drop_replicate, List.drop_replicate,
      List.getElem?_drop, List.getElem?_drop, Nat.add_zero] at hsame
    exact hsame
  · rintro ⟨hwords, hsurplus⟩ a b - -
    rw [calleeBefore_eq_join, calleeBefore_eq_join, openWords_quoting,
      openWords_quoting, hwords, hsurplus]

/-- A call in the quotes is the same to the callee as nothing in them. -/
example : openWords "len(x)".toList = openWords [] ∧
    surplus "len(x)".toList = surplus [] := by decide

/-- The callee before the cursor in `puts("(", ` is not the one that it is with
nothing in the quotes. -/
theorem calleeBefore_quoting_ne :
    ¬ ∀ a b s t : List Char, Plain a → Plain b → '"' ∉ s → '\\' ∉ s →
      '"' ∉ t → '\\' ∉ t →
        calleeBefore (quoting a s b) = calleeBefore (quoting a t b) := by
  intro h
  have hsame := h "puts(".toList ", ".toList ['('] []
    (plain_of_forall (q := (· ∈ "puts(".toList)) (fun _ => id) (by decide)
      (by decide))
    (plain_of_forall (q := (· ∈ ", ".toList)) (fun _ => id) (by decide)
      (by decide))
    (by decide) (by decide) (by decide) (by decide)
  have hputs : calleeBefore "puts(\"\", ".toList = some "puts" := by decide
  have hnone : calleeBefore "puts(\"(\", ".toList = none := by decide
  exact absurd (hnone.symm.trans (hsame.trans hputs)) (by decide)

end MonkeyLang.Editor

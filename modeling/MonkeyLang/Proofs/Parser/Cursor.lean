/-
Parsing without faults, step by step.

* `Cursor`: where a reader stands in the tokens that follow;
* `Reader.Clean`: a reader that has met no fault;
* `Parse.Gives`: from one cursor a parser gives an answer, meets no fault and
  ends at another cursor;
* `Gives.bind` composes such steps, `gives_advance`, `gives_expecting`,
  `gives_skip` and their like are the steps, and `Gives.round` and
  `Gives.done` are what the rounds of a repetition come to.
-/
import MonkeyLang.Parser.Grammar
import Mathlib.Tactic.Common

namespace MonkeyLang

/-! ### Cursors -/

/-- Where a reader stands: on the first of some tokens, or one token before
them. -/
inductive Cursor where
  | on (ts : List Token)
  | before (ts : List Token)

/-- A reader that has met no fault and whose stream ends as it should. -/
structure Reader.Clean (r : Reader) : Prop where
  eof_kind : r.eof.kind = .eof
  no_diagnostics : r.diagnostics = #[]

/-- A reader without faults stands at a cursor. -/
def Cursor.Holds : Cursor → Reader → Prop
  | on ts, r => r.unread = ts ∧ r.Clean
  | before ts, r => r.unread.tail = ts ∧ r.Clean

/-- The kind of the first of some tokens; behind the last one the stream
ends. -/
def Token.Kind.first : List Token → Token.Kind
  | [] => .eof
  | t :: _ => t.kind

@[simp] lemma Token.Kind.first_nil : first [] = .eof := rfl

@[simp] lemma Token.Kind.first_cons (t : Token) (ts : List Token) :
    first (t :: ts) = t.kind := rfl

namespace Cursor

variable {ts : List Token} {r : Reader}

/-- Whoever stands on a token stands before the rest. -/
lemma Holds.before {t : Token} (h : (on (t :: ts)).Holds r) :
    (before ts).Holds r :=
  ⟨by rw [h.1]; rfl, h.2⟩

/-- The kind of the current token. -/
lemma Holds.kind_current (h : (on ts).Holds r) :
    r.current.kind = Token.Kind.first ts := by
  obtain ⟨hunread, hclean⟩ := h
  cases ts with
  | nil => simp [Reader.current, hunread, hclean.eof_kind]
  | cons t ts => simp [Reader.current, hunread]

/-- The kind of the next token. -/
lemma Holds.kind_next (h : (Cursor.before ts).Holds r) :
    r.next.kind = Token.Kind.first ts := by
  obtain ⟨hunread, hclean⟩ := h
  cases ts with
  | nil => simp [Reader.next, hunread, hclean.eof_kind]
  | cons t ts => simp [Reader.next, hunread]

/-- A cursor is read off the unread tokens, the end token and the faults. -/
lemma Holds.congr {c : Cursor} {r' : Reader} (h : c.Holds r)
    (hunread : r'.unread = r.unread) (heof : r'.eof = r.eof)
    (hfaults : r'.diagnostics = r.diagnostics) : c.Holds r' := by
  have hclean : r.Clean → r'.Clean := fun hr =>
    ⟨by rw [heof]; exact hr.eof_kind, by rw [hfaults]; exact hr.no_diagnostics⟩
  cases c with
  | on ts => exact ⟨by rw [hunread]; exact h.1, hclean h.2⟩
  | before ts => exact ⟨by rw [hunread]; exact h.1, hclean h.2⟩

/-- Entering a rule moves no cursor. -/
lemma Holds.enter {c : Cursor} (rule : Rule) (h : c.Holds r) :
    c.Holds (r.enter rule) :=
  h.congr (r.unread_enter rule) (r.eof_enter rule) (r.diagnostics_enter rule)

/-- Leaving a rule moves no cursor. -/
lemma Holds.leave {c : Cursor} (rule : Rule) (h : c.Holds r) :
    c.Holds (r.leave rule) :=
  h.congr (r.unread_leave rule) (r.eof_leave rule) (r.diagnostics_leave rule)

/-- Moving on takes the cursor to the next token. -/
lemma Holds.advance (h : (Cursor.before ts).Holds r) :
    (on ts).Holds r.advance :=
  ⟨h.1, h.2.eof_kind, h.2.no_diagnostics⟩

end Cursor

/-! ### Steps -/

namespace Parse

variable {α β : Type} {c d e : Cursor} {a : α} {b : β}

/-- From the cursor `c` a parser gives the answer `a`, meets no fault and ends
at the cursor `d`. -/
def Gives (c : Cursor) (p : Parse α) (a : α) (d : Cursor) : Prop :=
  ∀ r, c.Holds r → ∃ r', p r = some (a, r') ∧ d.Holds r'

/-- Steps are taken one after the other. -/
lemma Gives.bind {p : Parse α} {f : α → Parse β} (hp : Gives c p a d)
    (hf : Gives d (f a) b e) : Gives c (p >>= f) b e := by
  intro r hr
  obtain ⟨r', hp', hr'⟩ := hp r hr
  obtain ⟨r'', hf', hr''⟩ := hf r' hr'
  refine ⟨r'', ?_, hr''⟩
  change (p r).bind _ = _
  rw [hp']
  exact hf'

/-- An answer that is there is given at once. -/
lemma gives_pure (c : Cursor) (a : α) : Gives c (pure a) a c :=
  fun r hr => ⟨r, rfl, hr⟩

/-- A last step that only changes the answer. -/
lemma Gives.map {p : Parse α} (f : α → β) (hp : Gives c p a d) :
    Gives c (do return f (← p)) (f a) d :=
  hp.bind (gives_pure d (f a))

/-- Looking at the current token. -/
lemma gives_current {t : Token} {ts : List Token} :
    Gives (.on (t :: ts)) current t (.on (t :: ts)) := by
  intro r hr
  refine ⟨r, ?_, hr⟩
  change some (r.current, r) = _
  simp [Reader.current, hr.1]

/-- Going on by the kind of the current token, at any cursor on tokens. -/
lemma Gives.of_current {ts : List Token} {f : Token → Parse β}
    (hf : ∀ t, t.kind = Token.Kind.first ts → Gives (.on ts) (f t) b e) :
    Gives (.on ts) (current >>= f) b e :=
  fun r hr => hf r.current hr.kind_current r hr

/-- Going on by the kind of the next token. -/
lemma Gives.of_next {ts : List Token} {f : Token → Parse β}
    (hf : ∀ t, t.kind = Token.Kind.first ts → Gives (.before ts) (f t) b e) :
    Gives (.before ts) (next >>= f) b e :=
  fun r hr => hf r.next hr.kind_next r hr

/-- Moving on to the next token. -/
lemma gives_advance {ts : List Token} :
    Gives (.before ts) advance () (.on ts) :=
  fun r hr => ⟨r.advance, rfl, hr.advance⟩

/-- Moving past the current token. -/
lemma gives_pass {t : Token} {ts : List Token} :
    Gives (.on (t :: ts)) advance () (.on ts) :=
  fun r hr => gives_advance r hr.before

/-- Whoever stands on a token stands before the rest. -/
lemma Gives.of_before {t : Token} {ts : List Token} {p : Parse α}
    (hp : Gives (.before ts) p a d) : Gives (.on (t :: ts)) p a d :=
  fun r hr => hp r hr.before

/-- At the end, standing on a token is standing before the rest. -/
lemma Gives.to_before {t : Token} {ts : List Token} {p : Parse α}
    (hp : Gives c p a (.on (t :: ts))) : Gives c p a (.before ts) := by
  intro r hr
  obtain ⟨r', hp', hr'⟩ := hp r hr
  exact ⟨r', hp', hr'.before⟩

/-- A token that has to follow and does. -/
lemma gives_expecting {kind : Token.Kind} {t : Token} {ts : List Token}
    {otherwise : α} {rest : Parse α} (ht : t.kind = kind)
    (hrest : Gives (.on (t :: ts)) rest a d) :
    Gives (.before (t :: ts)) (expecting kind otherwise rest) a d := by
  intro r hr
  obtain ⟨r', hrest', hr'⟩ := hrest r.advance hr.advance
  have hnext : r.next.kind = kind := by rw [hr.kind_next]; exact ht
  refine ⟨r', ?_, hr'⟩
  have hexpect : expect kind r = some (true, r.advance) := by
    change (if r.next.kind = kind then _ else _ : Parse Bool) r = _
    rw [if_pos hnext]
    rfl
  change (expect kind r).bind _ = _
  rw [hexpect]
  exact hrest'

/-- A token that may follow and does. -/
lemma gives_skip {kind : Token.Kind} {t : Token} {ts : List Token}
    (ht : t.kind = kind) :
    Gives (.before (t :: ts)) (skip kind) () (.before ts) := by
  refine Gives.of_next fun t' ht' => ?_
  rw [if_pos (by rw [ht']; exact ht)]
  exact gives_advance.to_before

/-- A token that may follow and does not. -/
lemma gives_noSkip {kind : Token.Kind} {ts : List Token}
    (hts : Token.Kind.first ts ≠ kind) :
    Gives (.before ts) (skip kind) () (.before ts) := by
  refine Gives.of_next fun t ht => ?_
  rw [if_neg (by rw [ht]; exact hts)]
  exact gives_pure _ _

/-- Reading by a rule gives what its body gives. -/
lemma Gives.entering {p : Parse α} (rule : Rule) (hp : Gives c p a d) :
    Gives c (entering rule p) a d := by
  intro r hr
  obtain ⟨r', hp', hr'⟩ := hp _ (hr.enter rule)
  refine ⟨r'.leave rule, ?_, hr'.leave rule⟩
  change (p (r.enter rule)).bind _ = _
  rw [hp']
  rfl

/-! ### Repetition -/

/-- A round that finds an item is followed by the others. -/
lemma Gives.round {round : Parse (Round α)} {as : List α} {n : ℕ}
    (hround : Gives c round (.item a) d)
    (hrest : Gives d (rounds round n) (some as) e) :
    Gives c (rounds round (n + 1)) (some (a :: as)) e :=
  hround.bind (hrest.bind (gives_pure e _))

/-- A round that finds the end is the last one. -/
lemma Gives.done {round : Parse (Round α)} {n : ℕ}
    (hround : Gives c round .done d) :
    Gives c (rounds round (n + 1)) (some []) d :=
  hround.bind (gives_pure d _)

/-- There are enough rounds for the tokens from the current one on. -/
lemma Gives.repeated_on {round : Parse (Round α)} {ts : List Token}
    {as : Option (List α)}
    (h : ∀ n, ts.length < n → Gives (.on ts) (rounds round n) as d) :
    Gives (.on ts) (repeated round) as d := by
  intro r hr
  exact h (r.unread.length + 1) (by rw [hr.1]; omega) r hr

/-- There are enough rounds for the tokens from the next one on. -/
lemma Gives.repeated_before {round : Parse (Round α)} {ts : List Token}
    {as : Option (List α)}
    (h : ∀ n, ts.length < n → Gives (.before ts) (rounds round n) as d) :
    Gives (.before ts) (repeated round) as d := by
  intro r hr
  have hlength : ts.length ≤ r.unread.length := by
    rw [← hr.1, List.length_tail]
    omega
  exact h (r.unread.length + 1) (by omega) r hr

end Parse

end MonkeyLang

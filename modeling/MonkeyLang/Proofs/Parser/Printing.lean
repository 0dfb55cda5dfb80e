/-
Texts that are read as expressions.

* `Piece.Scans`: a text is read as some tokens before another one, which is
  read on; `Scans.append`: two such texts in a row; `scans_symbol`,
  `scans_blanks`, `scans_enclosed`: delimiters, blanks and what stands between
  two delimiters;
* `Writes.of_applied`: what can be called can stand at every place;
* `Printed`: texts that are read as an expression wherever they stand, and
  whatever follows that goes on with no word and no number;
* `printed_items`: such texts in a row, separated by commas;
* `PrintedEntry`, `printed_entries`: two such texts with a colon in between, and
  entries of this form in a row;
* `Printed.ofSource`: such a text is a program of one expression.
-/
import MonkeyLang.Proofs.Parser.Completeness
import MonkeyLang.Proofs.Token.Scanning
import Mathlib.Data.List.Forall2

namespace MonkeyLang

open List (Forall₂)

namespace Piece

/-! ### Texts in a row -/

/-- Before another text a text is read as some tokens, and then the other one
is read on. -/
def Scans (p : Position) (cs rest : List Char) (ts : List Token) : Prop :=
  scan p (cs ++ rest) = ts ++ scan (p.after cs) rest

variable {p : Position} {cs ds rest : List Char} {ts us : List Token}

lemma Scans.append (h : Scans p cs (ds ++ rest) ts)
    (h' : Scans (p.after cs) ds rest us) :
    Scans p (cs ++ ds) rest (ts ++ us) := by
  show scan p ((cs ++ ds) ++ rest) = _
  rw [List.append_assoc, (h : scan p _ = _), (h' : scan _ _ = _),
    Position.after_append, List.append_assoc]

lemma scans_nil : Scans p [] rest [] := rfl

/-- A symbol that is read no further than itself. -/
lemma scans_symbol {c : Char} {kind : Token.Kind}
    (hkind : Token.Kind.ofSymbol? c = some kind)
    (halone : c ≠ '=' ∧ c ≠ '!' ∧ c ≠ '/') :
    Scans p [c] rest [⟨kind, kind.label, p⟩] :=
  scan_symbol hkind halone

/-- Blanks leave no tokens. -/
lemma scans_blanks (hcs : ∀ c ∈ cs, isBlank c = true) : Scans p cs rest [] := by
  induction cs generalizing p with
  | nil => exact scans_nil
  | cons c cs ih =>
      obtain ⟨hc, hcs⟩ := List.forall_mem_cons.mp hcs
      have hfirst : Scans p [c] (cs ++ rest) [] := scan_of_isBlank hc
      exact hfirst.append (ih hcs)

lemma scans_blank : Scans p [' '] rest [] := scan_blank

/-- What stands between two delimiters. -/
lemma scans_enclosed {o c : Char} {ok ck : Token.Kind}
    (ho : Token.Kind.ofSymbol? o = some ok)
    (hc : Token.Kind.ofSymbol? c = some ck)
    (hoalone : o ≠ '=' ∧ o ≠ '!' ∧ o ≠ '/')
    (hcalone : c ≠ '=' ∧ c ≠ '!' ∧ c ≠ '/')
    (h : Scans (p.next o) cs (c :: rest) ts) :
    Scans p (o :: (cs ++ [c])) rest (⟨ok, ok.label, p⟩ ::
      (ts ++ [⟨ck, ck.label, (p.next o).after cs⟩])) :=
  have hclosed : Scans (p.next o) (cs ++ [c]) rest _ :=
    h.append (scans_symbol hc hcalone)
  (scans_symbol ho hoalone).append hclosed

/-- A delimiter goes on with no word and with no number. -/
lemma breaks_cons {c : Char} {cs : List Char} (hdigit : Digit.isDigit c = false)
    (hword : isWordPart c = false) : Breaks (c :: cs) := by
  intro d hd
  cases hd
  exact ⟨hdigit, hword⟩

end Piece

/-! ### Texts of expressions -/

/-- What can be called or indexed without parentheses, or stands in some, can
stand so at every place. -/
lemma Writes.of_applied {n : Node} {ts : List Token}
    (h : Writes (.expression .applied n) ts) (place : Place) :
    Writes (.expression place n) ts := by
  cases h with
  | plain hplace hn =>
      refine .plain (fun hdemands => hplace ?_) hn
      cases n with
      | prefixOp | infixOp => trivial
      | _ => cases place <;> exact hdemands
  | group ho hc hn => exact .group ho hc hn

/-- The text of `i` is read as an expression at a place, which has to do with
`i`, wherever it stands and whatever follows that goes on with no word and no
number. -/
def Printed {ι : Type} (place : Place) (text : ι → String)
    (R : Node → ι → Prop) (i : ι) : Prop :=
  ∀ p rest, Piece.Breaks rest → ∃ ts n,
    Piece.Scans p (text i).toList rest ts ∧
    Writes (.expression place n) ts ∧ R n i

/-- The text of `i` is read as a key and a value with a colon in between, which
have to do with `i`. -/
def PrintedEntry {ι : Type} (text : ι → String) (R : Node × Node → ι → Prop)
    (i : ι) : Prop :=
  ∀ p rest, Piece.Breaks rest → ∃ s ts us k v,
    Piece.Scans p (text i).toList rest (ts ++ s :: us) ∧ s.kind = .colon ∧
    Writes (.expression .free k) ts ∧ Writes (.expression .free v) us ∧
    R (k, v) i

namespace Piece

variable {ι : Type} {text : ι → String} {rest : List Char}

/-! ### Lists -/

/-- The texts of further members of a list, each behind a comma. -/
def moreText (texts : List String) : List Char :=
  texts.flatMap fun s => ',' :: ' ' :: s.toList

/-- The texts of the members of a list, separated by commas. -/
lemma toList_intercalate (s : String) (texts : List String) :
    (String.intercalate ", " (s :: texts)).toList =
      s.toList ++ moreText texts := by
  induction texts generalizing s with
  | nil => simp [moreText]
  | cons s' texts ih =>
      rw [String.intercalate_cons_cons, String.toList_append,
        String.toList_append, ih, moreText, moreText, List.flatMap_cons]
      simp

lemma breaks_moreText {texts : List String} (hrest : Breaks rest) :
    Breaks (moreText texts ++ rest) := by
  cases texts with
  | nil => exact hrest
  | cons s texts => exact breaks_cons (by decide) (by decide)

/-- A comma, a blank and what stands behind them. -/
lemma scans_comma {p : Position} {cs : List Char} {ts : List Token}
    (h : Scans ((p.next ',').next ' ') cs rest ts) :
    Scans p (',' :: ' ' :: cs) rest (⟨.comma, ",", p⟩ :: ts) :=
  have hblank : Scans (p.next ',') (' ' :: cs) rest ts := scans_blank.append h
  (scans_symbol rfl (by decide)).append hblank

/-- Further members of a list. -/
lemma printed_moreItems {R : Node → ι → Prop} {is : List ι}
    (h : ∀ i ∈ is, Printed .free text R i) (p : Position)
    (hrest : Breaks rest) : ∃ ts ns,
      Scans p (moreText (is.map text)) rest ts ∧
      Writes (.moreItems ns) ts ∧ Forall₂ R ns is := by
  induction is generalizing p with
  | nil => exact ⟨[], [], scans_nil, .itemsEnd, .nil⟩
  | cons i is ih =>
      obtain ⟨hi, his⟩ := List.forall_mem_cons.mp h
      obtain ⟨ts, n, hscan, hw, hn⟩ := hi ((p.next ',').next ' ')
        (moreText (is.map text) ++ rest) (breaks_moreText hrest)
      obtain ⟨us, ns, hscan', hws, hns⟩ := ih his
        (((p.next ',').next ' ').after (text i).toList)
      exact ⟨_, n :: ns, scans_comma (hscan.append hscan'), .item rfl hw hws,
        .cons hn hns⟩

/-- The members of a list. -/
theorem printed_items {R : Node → ι → Prop} {is : List ι}
    (h : ∀ i ∈ is, Printed .free text R i) (p : Position)
    (hrest : Breaks rest) : ∃ ts ns,
      Scans p (String.intercalate ", " (is.map text)).toList rest ts ∧
      Writes (.list ns) ts ∧ Forall₂ R ns is := by
  cases is with
  | nil => exact ⟨[], [], scans_nil, .noItems, .nil⟩
  | cons i is =>
      obtain ⟨hi, his⟩ := List.forall_mem_cons.mp h
      obtain ⟨ts, n, hscan, hw, hn⟩ := hi p
        (moreText (is.map text) ++ rest) (breaks_moreText hrest)
      obtain ⟨us, ns, hscan', hws, hns⟩ :=
        printed_moreItems his (p.after (text i).toList) hrest
      refine ⟨ts ++ us, n :: ns, ?_, .items hw hws, .cons hn hns⟩
      rw [List.map_cons, toList_intercalate]
      exact hscan.append hscan'

/-! ### Entries -/

/-- A key and a value with a colon in between, which blanks may follow. -/
lemma printedEntry_of_printed {κ : Type} {text' : ι → String}
    {R R' : Node → ι → Prop} {i j : ι} {entry : κ → String} {k : κ}
    (hi : Printed .free text R i) (hj : Printed .free text' R' j)
    {gap : List Char} (hgap : ∀ c ∈ gap, isBlank c = true)
    (htext : (entry k).toList =
      (text i).toList ++ ':' :: (gap ++ (text' j).toList))
    {S : Node × Node → κ → Prop} (hS : ∀ m n, R m i → R' n j → S (m, n) k) :
    PrintedEntry entry S k := by
  intro p rest hrest
  let q := p.after (text i).toList
  obtain ⟨ts, m, hscan, hw, hm⟩ := hi p
    (':' :: (gap ++ (text' j).toList) ++ rest)
    (breaks_cons (by decide) (by decide))
  obtain ⟨us, n, hscan', hw', hn⟩ := hj ((q.next ':').after gap) rest hrest
  have hvalue : Scans (q.next ':') (gap ++ (text' j).toList) rest us :=
    (scans_blanks hgap).append hscan'
  have hcolon : Scans q (':' :: (gap ++ (text' j).toList)) rest
      (⟨.colon, ":", q⟩ :: us) := (scans_symbol rfl (by decide)).append hvalue
  rw [htext]
  exact ⟨_, ts, us, m, n, hscan.append hcolon, rfl, hw, hw', hS m n hm hn⟩

/-- Entries that are separated by commas. -/
theorem printed_entries {R : Node × Node → ι → Prop} {is : List ι}
    (h : ∀ i ∈ is, PrintedEntry text R i) (p : Position) (hrest : Breaks rest) :
    ∃ ts ps, Scans p (String.intercalate ", " (is.map text)).toList rest ts ∧
      Writes (.entries ps) ts ∧ Forall₂ R ps is := by
  induction is generalizing p with
  | nil => exact ⟨[], [], scans_nil, .noEntries, .nil⟩
  | cons i is ih =>
      obtain ⟨hi, his⟩ := List.forall_mem_cons.mp h
      -- the last entry has no comma behind it
      cases is with
      | nil =>
          obtain ⟨s, ts, us, k, v, hscan, hs, hk, hv, hi⟩ := hi p rest hrest
          exact ⟨_, _, hscan, .lastEntry hs hk hv, .cons hi .nil⟩
      | cons j is =>
          let q := p.after (text i).toList
          let more := (String.intercalate ", " ((j :: is).map text)).toList
          obtain ⟨s, ts, us, k, v, hscan, hs, hk, hv, hi⟩ := hi p
            (',' :: ' ' :: more ++ rest) (breaks_cons (by decide) (by decide))
          obtain ⟨vs, ps, hscan', hws, hps⟩ := ih his ((q.next ',').next ' ')
          have htokens : (ts ++ s :: us) ++ ⟨.comma, ",", q⟩ :: vs =
              ts ++ s :: (us ++ ⟨.comma, ",", q⟩ :: vs) := by simp
          have htext : (String.intercalate ", "
              ((i :: j :: is).map text)).toList =
                (text i).toList ++ ',' :: ' ' :: more := by
            simp [more]
          rw [htext]
          exact ⟨_, _, htokens ▸ hscan.append (scans_comma hscan'),
            .entry hs rfl hk hv hws, .cons hi hps⟩

end Piece

/-! ### Programs -/

/-- On its own such a text is a program of one expression. -/
theorem Printed.ofSource {ι : Type} {text : ι → String} {R : Node → ι → Prop}
    {i : ι} (h : Printed .free text R i) : ∃ t n, R n i ∧ ∀ tracing,
      (Parser.ofSource (text i) tracing).program = .program [.exprStmt t n] ∧
      (Parser.ofSource (text i) tracing).diagnostics = [] := by
  obtain ⟨ts, n, hscan, hw, hn⟩ := h .start [] nofun
  obtain ⟨t, us, rfl, -⟩ := hw.starts
  obtain ⟨tail, htail, hstream⟩ : ∃ tail, Token.Kind.first tail = .eof ∧
      Token.stream (text i) = (t :: us) ++ tail := by
    rw [Piece.Scans, List.append_nil] at hscan
    exact ⟨[Token.endAt (Position.start.after (text i).toList)], rfl,
      congrArg (· ++ _) (hscan.trans (List.append_nil _))⟩
  refine ⟨t, n, hn, fun tracing => ?_⟩
  rw [Parser.ofSource, hstream]
  exact ofTokens_of_gives tracing hw.kind_ne_eof htail
    (gives_program_expression hw)

end MonkeyLang

/-
Integers in trees.

* `Integer.InRange`: an integer of the language;
* `Node.LiteralsFit`: every integer literal within a tree is in range;
* `Node.hereditary_literalsFit`: the tree keeps this when its children are
  exchanged for others that have it;
* `Token.digits_of_mem_stream`: the integer tokens of a source are digits;
* `Parser.literalsFit_ofSource`: so the literals that the parser gives are in
  range.
-/
import MonkeyLang.Proofs.Eval.Keeps
import MonkeyLang.Proofs.Parser.Yields
import MonkeyLang.Proofs.Text.Numeral
import MonkeyLang.Proofs.Token.Scanning
import Mathlib.Logic.Relation

namespace MonkeyLang

open Relation (ReflTransGen)

/-- An integer of the language: one of 64 bits. -/
def Integer.InRange (n : Int) : Prop := minInteger ≤ n ∧ n ≤ maxInteger

instance (n : Int) : Decidable (Integer.InRange n) :=
  inferInstanceAs (Decidable (_ ∧ _))

namespace Node

/-! ### Trees within trees -/

/-- A tree lies within another one. -/
abbrev Within : Node → Node → Prop :=
  ReflTransGen fun n m => m ∈ n.children

/-- Every integer literal within a tree is in range. -/
def LiteralsFit (n : Node) : Prop :=
  ∀ t k, n.Within (.intLit t k) → Integer.InRange k

lemma LiteralsFit.child {n m : Node} (h : n.LiteralsFit)
    (hm : m ∈ n.children) : m.LiteralsFit :=
  fun t k hk => h t k (.head hm hk)

/-- What is no integer literal out of range has literals that fit if its
children do. -/
lemma literalsFit_of_children {n : Node}
    (hself : ∀ t k, n = .intLit t k → Integer.InRange k)
    (hchildren : ∀ m ∈ n.children, m.LiteralsFit) : n.LiteralsFit := by
  intro t k hk
  rcases hk.cases_head with hn | ⟨m, hm, hk⟩
  · exact hself t k hn
  · exact hchildren m hm t k hk

lemma literalsFit_intLit {t : Token} {k : Int} (hk : Integer.InRange k) :
    (intLit t k).LiteralsFit := by
  refine literalsFit_of_children ?_ fun m hm => absurd hm List.not_mem_nil
  rintro u l ⟨⟩
  exact hk

/-- To have literals that fit is hereditary. -/
lemma hereditary_literalsFit : Hereditary LiteralsFit where
  children _ hn _ hm := hn.child hm
  withChildren n cs hn hcs := by
    refine literalsFit_of_children (fun t k h => ?_) fun m hm => ?_
    · exact hn t k (withChildren_eq_intLit h ▸ .refl)
    · rcases mem_children_withChildren hm with hm | hm | rfl
      · exact hcs m hm
      · exact hn.child hm
      · exact literalsFit_of_children nofun nofun

/-- What the grammar makes of literals in range has nothing else in it. -/
lemma builds_literalsFit {T : Token → Prop}
    (hT : ∀ t n, T t → t.kind = .int → Numeral.read? t.text = some n →
      0 ≤ n) : Grammar.Builds T LiteralsFit := by
  refine .of_children fun n hint _ hchildren => ?_
  refine literalsFit_of_children (fun t k hn => ?_) hchildren
  obtain ⟨ht, hkind, hread, hle⟩ := hint t k hn
  have hleast : minInteger ≤ 0 := by decide
  exact ⟨Int.le_trans hleast (hT t k ht hkind hread), hle⟩

end Node

/-! ### Integer tokens of a source -/

namespace Piece

/-- Digits are nothing but digits, and no operator counts as an integer. -/
def Proper : Piece → Prop
  | digits ds => ∀ d ∈ ds, Digit.isDigit d = true
  | operator kind => kind ≠ .int
  | _ => True

lemma proper_of_mem_cut {piece : Piece} {cs : List Char}
    (h : piece ∈ cut cs) : piece.Proper := by
  have hmade := made_of_mem_cut h
  cases piece with
  | digits ds => exact hmade
  | operator kind =>
      rintro rfl
      cases hmade
  | _ => trivial

lemma mem_tokens {ps : List Piece} {t : Token} :
    ∀ {p : Position}, t ∈ tokens p ps →
      ∃ piece ∈ ps, ∃ q, piece.token? q = some t := by
  induction ps with
  | nil => exact fun h => absurd h List.not_mem_nil
  | cons piece ps ih =>
      intro p h
      rcases List.mem_append.mp h with h | h
      · exact ⟨piece, List.mem_cons_self, p, Option.mem_toList.mp h⟩
      · obtain ⟨other, hmem, q, hq⟩ := ih h
        exact ⟨other, List.mem_cons_of_mem piece hmem, q, hq⟩

end Piece

lemma Token.Kind.ofWord_ne_int (word : String) : ofWord word ≠ int :=
  ofWord_of_keywords (P := (· ≠ int)) nofun (by decide) word

/-- The integer tokens of a source are digits. -/
lemma Token.digits_of_mem_stream {source : String} {t : Token}
    (ht : t ∈ Token.stream source) (hkind : t.kind = .int) :
    ∀ c ∈ t.text.toList, Digit.isDigit c = true := by
  rcases List.mem_append.mp ht with ht | ht
  · obtain ⟨piece, hmem, q, hq⟩ := Piece.mem_tokens ht
    have hproper := Piece.proper_of_mem_cut hmem
    cases piece with
    | digits ds =>
        cases hq
        rw [String.toList_ofList]
        exact hproper
    | operator kind =>
        cases hq
        exact absurd hkind hproper
    | word cs =>
        cases hq
        exact absurd hkind (Token.Kind.ofWord_ne_int _)
    | _ => cases hq <;> cases hkind
  · rw [List.mem_singleton.mp ht] at hkind
    cases hkind

/-- **Literals fit.**  Every integer literal that the parser finds in a source
is in range. -/
theorem Parser.literalsFit_ofSource (source : String) (tracing : Bool) :
    (Parser.ofSource source tracing).program.LiteralsFit := by
  have hbuilds : Grammar.Builds
      (fun t => t.kind = .int → ∀ c ∈ t.text.toList, Digit.isDigit c = true)
      Node.LiteralsFit :=
    Node.builds_literalsFit fun t n ht hkind hread =>
      Numeral.nonneg_of_read? (ht hkind) hread
  obtain ⟨ss, hss, hfit⟩ := hbuilds.ofTokens nofun
    (fun t ht hkind => Token.digits_of_mem_stream ht hkind) tracing
  rw [Parser.ofSource, hss]
  exact Node.literalsFit_of_children nofun hfit

end MonkeyLang

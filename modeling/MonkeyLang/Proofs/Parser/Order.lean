/-
The faults of a text are reported in the order of the text.

* `Position.le_iff`: positions in the order of the text;
* `Reader.Orderly ts t r`: the reader has met its faults at tokens of `ts`, one
  no further back than the one before, and none of them behind `t`;
* `Orderly.report`: it goes on so if it meets the next one at `t`;
* `Reader.orderly`: on a rule's first token no fault lies behind that token,
  and before its end none behind the token that follows, whatever rule it is;
* `Parser.diagnostics_ordered`: so it is for every source text.
-/
import MonkeyLang.Proofs.Parser.Concat
import MonkeyLang.Proofs.Parser.Coupled
import MonkeyLang.Proofs.Token.Tiling

namespace MonkeyLang

/-! ### Positions -/

namespace Position

variable {p q s : Position}

/-- The order of the text: lines first, then columns. -/
instance : LE Position where
  le p q := p = q ∨ p.Before q

lemma le_iff : p ≤ q ↔ p.line < q.line ∨ p.line = q.line ∧ p.column ≤ q.column := by
  obtain ⟨line, column⟩ := p
  obtain ⟨line', column'⟩ := q
  show (_ ∨ Before _ _) ↔ _
  simp only [Before, Position.mk.injEq]
  omega

instance : DecidableLE Position := fun _ _ => decidable_of_iff _ le_iff.symm

lemma le_rfl : p ≤ p := Or.inl rfl

lemma le_trans (hpq : p ≤ q) (hqs : q ≤ s) : p ≤ s := by
  rw [le_iff] at *
  omega

end Position

/-! ### Readers -/

namespace Reader

/-- The tokens that a reader may still look at. -/
def ahead (r : Reader) : List Token := r.unread ++ [r.eof]

variable {ts : List Token} {t : Token} {r : Reader}

lemma current_mem_ahead (r : Reader) : r.current ∈ r.ahead := by
  rw [current, ahead]
  cases r.unread <;> simp

lemma next_mem_ahead (r : Reader) : r.next ∈ r.ahead := by
  rw [next, ahead]
  rcases r.unread with _ | ⟨t, _ | ⟨u, us⟩⟩ <;> simp

lemma advance_ahead (r : Reader) : r.advance.ahead.Sublist r.ahead :=
  (List.tail_sublist _).append_right _

/-- The next token does not stand before the current one. -/
lemma current_le_next
    (h : r.ahead.Pairwise fun s t => s.position.Before t.position) :
    r.current.position ≤ r.next.position := by
  rw [current, next]
  rw [ahead] at h
  rcases hunread : r.unread with _ | ⟨t, us⟩
  · exact Position.le_rfl
  · rw [hunread] at h
    have hbehind := (List.pairwise_cons.mp h).1
    cases us with
    | nil => exact Or.inr (hbehind _ (by simp))
    | cons u us => exact Or.inr (hbehind _ (by simp))

/-- A reader of some tokens has met its faults at them, in their order, and none
behind one of them. -/
structure Orderly (ts : List Token) (t : Token) (r : Reader) : Prop where
  ahead : r.ahead.Sublist ts
  located : ∀ d ∈ r.diagnostics.toList, ∃ u ∈ ts, d.position = u.position
  ordered : (r.diagnostics.toList.map Diagnostic.position).Pairwise (· ≤ ·)
  reached : ∀ d ∈ r.diagnostics.toList, d.position ≤ t.position

namespace Orderly

/-- Only what is left, the end token and the faults count. -/
lemma congr {s : Reader} (h : r.Orderly ts t)
    (hs : s.unread = r.unread ∧ s.eof = r.eof ∧ s.diagnostics = r.diagnostics) :
    s.Orderly ts t := by
  obtain ⟨hunread, heof, hdiagnostics⟩ := hs
  constructor
  · rw [Reader.ahead, hunread, heof]
    exact h.ahead
  all_goals rw [hdiagnostics]
  · exact h.located
  · exact h.ordered
  · exact h.reached

lemma mono {u : Token} (h : r.Orderly ts t) (htu : t.position ≤ u.position) :
    r.Orderly ts u :=
  { h with reached := fun d hd => Position.le_trans (h.reached d hd) htu }

/-- The next fault is met at the last token that may have one. -/
lemma report (h : r.Orderly ts t) (ht : t ∈ ts) (cause : Diagnostic.Cause) :
    (r.report cause t).Orderly ts t := by
  have hpush : (r.report cause t).diagnostics.toList =
      r.diagnostics.toList ++ [⟨cause, t.position⟩] := by
    simp [Reader.report]
  refine ⟨h.ahead, ?_, ?_, ?_⟩ <;> rw [hpush]
  · intro d hd
    rcases List.mem_append.mp hd with hd | hd
    · exact h.located d hd
    · exact ⟨t, ht, by rw [List.mem_singleton.mp hd]⟩
  · rw [List.map_append, List.pairwise_append]
    refine ⟨h.ordered, List.pairwise_singleton _ _, ?_⟩
    intro p hp q hq
    obtain ⟨d, hd, rfl⟩ := List.mem_map.mp hp
    rw [List.mem_singleton.mp hq]
    exact h.reached d hd
  · intro d hd
    rcases List.mem_append.mp hd with hd | hd
    · exact h.reached d hd
    · rw [List.mem_singleton.mp hd]
      exact Position.le_rfl

end Orderly

/-- Entering or leaving a rule changes no token. -/
lemma looks_congr {s : Reader} (hs : s.unread = r.unread ∧ s.eof = r.eof ∧
    s.diagnostics = r.diagnostics) : s.current = r.current ∧ s.next = r.next := by
  rw [current, next, hs.1, hs.2.1]
  exact ⟨rfl, rfl⟩

/-- On the first token of a rule no fault lies behind that token, and before the
end of a rule none behind the token that follows. -/
def orderly {ts : List Token}
    (hts : ts.Pairwise fun s t => s.position.Before t.position) :
    Coupling Unit where
  on _ r r' := r = r' ∧ r.Orderly ts r.current
  before _ r r' := r = r' ∧ r.Orderly ts r.next
  unread := fun h => by rw [h.1]
  eof := fun h => by rw [h.1]
  settle := fun ⟨hsame, h⟩ =>
    ⟨hsame, h.mono (current_le_next (hts.sublist h.ahead))⟩
  advance := fun ⟨hsame, h⟩ =>
    ⟨by rw [hsame], { h with ahead := (advance_ahead _).trans h.ahead }⟩
  reportCurrent := by
    rintro _ r _ ⟨rfl, h⟩ cause
    have hreport := h.report (h.ahead.subset r.current_mem_ahead) cause
    exact ⟨rfl, hreport.mono (current_le_next (hts.sublist h.ahead))⟩
  reportNext := by
    rintro _ r _ ⟨rfl, h⟩ cause
    exact ⟨rfl, h.report (h.ahead.subset r.next_mem_ahead) cause⟩
  enter := by
    rintro _ r _ ⟨rfl, h⟩ rule
    have henter := r.enter_eq rule
    refine ⟨(), ⟨rfl, ?_⟩, ?_⟩
    · rw [(looks_congr henter).1]
      exact h.congr henter
    · rintro s _ ⟨rfl, hs⟩
      have hleave := s.leave_eq rule
      refine ⟨rfl, ?_⟩
      rw [(looks_congr hleave).2]
      exact hs.congr hleave

/-- A source text is all ahead of its reader. -/
lemma ahead_ofTokens_stream (source : String) (tracing : Bool) :
    (ofTokens (Token.stream source) tracing).ahead = Token.stream source := by
  have hat := at_ofTokens (Token.stream source) tracing
  have heof : (ofTokens (Token.stream source) tracing).eof =
      Token.endAt (Position.start.after source.toList) := by
    rw [Token.stream_eq source]
    exact (Parser.unread_append (hat.unread ▸ hat.kind_ne_eof) _ tracing tracing).2
  rw [ahead, hat.unread, heof, ← Token.stream_eq]

end Reader

/-! ### Source texts -/

/-- The tokens of a text stand in the order of the text. -/
lemma Token.pairwise_stream (source : String) :
    (Token.stream source).Pairwise fun s t => s.position.Before t.position := by
  have hpairwise := Piece.pairwise_tokens (p := .start)
    (Piece.forall_mem_cut Piece.text_first_ne_nil source.toList)
  rw [Piece.flatMap_text_cut] at hpairwise
  exact hpairwise.1

/-- **Faults are reported in the order of the text.**  For every source text,
each diagnostic stands where a token of the text stands, the end token being
one, and no diagnostic stands before an earlier one. -/
theorem Parser.diagnostics_ordered (source : String) (tracing : Bool) :
    (∀ d ∈ (Parser.ofSource source tracing).diagnostics,
        ∃ t ∈ Token.stream source, d.position = t.position) ∧
      ((Parser.ofSource source tracing).diagnostics.map
        Diagnostic.position).Pairwise (· ≤ ·) := by
  have hstart : (Reader.ofTokens (Token.stream source) tracing).Orderly
      (Token.stream source)
      (Reader.ofTokens (Token.stream source) tracing).current :=
    { ahead := by rw [Reader.ahead_ofTokens_stream]
      located := by simp [Reader.ofTokens]
      ordered := List.Pairwise.nil
      reached := by simp [Reader.ofTokens] }
  have hrun := Grammar.coupled_program
    (C := Reader.orderly (Token.pairwise_stream source)) (i := ()) _ _ ⟨rfl, hstart⟩
  change Option.Rel _ (Parser.run _) (Parser.run _) at hrun
  rw [Parser.ofSource, Parser.ofTokens]
  generalize Parser.run (.ofTokens (Token.stream source) tracing) = x at hrun ⊢
  cases x with
  | none => exact ⟨by simp, List.Pairwise.nil⟩
  | some x =>
    cases hrun with
    | some h => exact ⟨h.2.2.located, h.2.2.ordered⟩

/-- The second token of `let = )` is no name and starts no expression, and the
third one starts none. -/
example : (Parser.ofSource "let = )" false).diagnostics.map Diagnostic.position =
    [⟨0, 4⟩, ⟨0, 4⟩, ⟨0, 6⟩] := by decide +kernel

end MonkeyLang

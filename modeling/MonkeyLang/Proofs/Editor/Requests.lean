/-
Which requests an editor gets an answer to.

* `signatureAt_eq`: the help with a call is found wherever the cursor stands;
* `hover_eq_ok_iff`: what stands at a place is told if the place lies in its
  line, or if the document is not open;
* `answer_eq_ok_iff`: all other requests are answered;
* `answer_unanswered`: beyond the end of a line there is none.
-/
import MonkeyLang.Editor.Message
import MonkeyLang.Proofs.Editor.Cursor

namespace MonkeyLang.Documents

open Editor

variable (uri : String) (p : Position) (ds : Documents)

/-- The help with a call is that of the callee before the cursor. -/
lemma signatureHelp_eq :
    ds.signatureHelp uri p = (ds.get? uri).bind fun d =>
      (calleeBefore ((lineOf d.text p.line).take p.column)).bind
        (signatureOf d.index) := by
  unfold signatureOf
  simp only [Option.map_eq_bind]
  rfl

/-- The walk back to the callee never leaves the part of the line before the
cursor, so the help is what is found there. -/
lemma signatureAt_eq :
    ds.signatureAt uri p = .ok (ds.signatureHelp uri p) := by
  rw [signatureAt, signatureHelp_eq]
  cases ds.get? uri with
  | none => rfl
  | some d =>
      have hwalk := calleeAt_eq 0
        (Nat.le_refl ((lineOf d.text p.line).take p.column).length)
      rw [List.take_length, ← calleeBefore] at hwalk
      show (calleeAt _ 0 _ >>= fun callee => _) = _
      rw [hwalk]
      rfl

/-- What stands at a place is told if the place lies in its line. -/
lemma hover_eq_ok_iff :
    (∃ text, ds.hover uri p = .ok text) ↔
      ∀ d, ds.get? uri = some d →
        p.column ≤ (lineOf d.text p.line).length := by
  rw [hover]
  cases ds.get? uri with
  | none => exact ⟨fun _ => nofun, fun _ => ⟨none, rfl⟩⟩
  | some d =>
      constructor
      · rintro ⟨text, htext⟩ _ ⟨⟩
        by_contra hbeyond
        change (wordAt _ _ >>= fun word => _) = _ at htext
        rw [wordAt_beyond (Nat.lt_of_not_le hbeyond)] at htext
        cases htext
      · intro h
        show ∃ text, (wordAt _ _ >>= fun word => _) = Except.ok text
        rw [wordAt_eq (h d rfl)]
        exact ⟨_, rfl⟩

/-- **Requests are answered.**  Whatever documents are open, each request about
each document and place is answered, but for one: what stands beyond the end of
a line of an open document is not told. -/
theorem answer_eq_ok_iff (req : Request) :
    (∃ reply, ds.answer req = .ok reply) ↔
      ∀ uri p d, req = .hover uri p → ds.get? uri = some d →
        p.column ≤ (lineOf d.text p.line).length := by
  cases req with
  | hover uri p =>
      have hreply : (∃ reply, ds.answer (.hover uri p) = .ok reply) ↔
          ∃ text, ds.hover uri p = .ok text := by
        show (∃ reply, (ds.hover uri p >>= fun text => _) = _) ↔ _
        cases ds.hover uri p with
        | ok text => exact ⟨fun _ => ⟨text, rfl⟩, fun _ => ⟨_, rfl⟩⟩
        | error fault => exact ⟨nofun, nofun⟩
      rw [hreply, hover_eq_ok_iff]
      refine ⟨?_, fun h d hd => h uri p d rfl hd⟩
      rintro h _ _ d ⟨⟩ hd
      exact h d hd
  | completion uri p => exact ⟨fun _ => nofun, fun _ => ⟨_, rfl⟩⟩
  | signature uri p =>
      rw [answer, signatureAt_eq]
      exact ⟨fun _ => nofun, fun _ => ⟨_, rfl⟩⟩
  | symbols uri => exact ⟨fun _ => nofun, fun _ => ⟨_, rfl⟩⟩

/-- Behind the end of `let x = 1;` there is no answer to what stands at the
cursor. -/
theorem answer_unanswered :
    ¬ ∀ (ns : List Notification) (req : Request),
      ∃ reply, (Server.after ns).documents.answer req = .ok reply := by
  intro h
  obtain ⟨reply, hreply⟩ := h [.opened "file:///a.monkey" "let x = 1;"]
    (.hover "file:///a.monkey" ⟨0, 11⟩)
  have hfault : (Server.after
      [.opened "file:///a.monkey" "let x = 1;"]).documents.answer
        (.hover "file:///a.monkey" ⟨0, 11⟩) = .error .beyondLine := by
    decide +kernel
  rw [hfault] at hreply
  cases hreply

end MonkeyLang.Documents

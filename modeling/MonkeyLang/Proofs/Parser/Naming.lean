/-
Where the names stand that a program binds.

* `Token.Between`: a name between `let` and an equals sign;
* `Grammar.exists_of_letStmt`: a `let` that is found starts with these three tokens;
* `Grammar.rounds_between`: so do all that rounds of statements find, whatever
  faults they meet;
* `Parser.between_ofTokens`: so each `let` of a text names a token between these.
-/
import MonkeyLang.Proofs.Parser.Resumed

namespace MonkeyLang

/-- A name that stands between `let` and an equals sign. -/
def Token.Between (name : Token) (ts : List Token) : Prop :=
  name.kind = .ident ∧ ∃ t q : Token, t.kind = .letKey ∧ q.kind = .assign ∧
    [t, name, q] <:+: ts

open Parse Grammar

namespace Grammar

variable {expr : ℕ → Parse Node} {r s : Reader} {us vs : List Token} {n : Node}
  {bound m : ℕ}

/-! ### One statement -/

/-- A statement that starts with `return` is its value. -/
lemma statement_of_return (hkind : r.current.kind = .returnKey) :
    statement expr r =
      (operand expr ((r.enter .statement).enter .returnStatement).advance).map
        fun p => (some (.returnStmt r.current p.1),
          (p.2.leave .returnStatement).leave .statement) := by
  rw [statement_run, hkind]
  let r₁ := (r.enter .statement).enter .returnStatement
  show (Option.bind (Option.bind ((do
    let value ← expr lowest
    skip .semicolon
    return Node.returnStmt r₁.current value : Parse Node) r₁.advance) _) _).map
      _ = _
  rw [value_run, Reader.current_enter, Reader.current_enter]
  cases operand expr r₁.advance <;> rfl

/-- A statement that starts with `let` and is found goes on with a name and an
equals sign. -/
lemma exists_of_letKey (hr : r.At us) (hkind : r.current.kind = .letKey)
    (h : statement expr r = some (some n, s)) :
    ∃ t name q ws, us = t :: name :: q :: ws ∧ t.kind = .letKey ∧
      name.kind = .ident ∧ q.kind = .assign := by
  let r₁ := (r.enter .statement).enter .letStatement
  have hr₁ : r₁.At us := hr.congr (by simp [r₁]) (by simp [r₁])
  rw [statement_run, hkind] at h
  change (Option.bind (expecting .ident none _ r₁) _).map _ = _ at h
  rw [expecting_run] at h
  split at h
  · next hname =>
    change (Option.bind (expecting .assign none _ r₁.advance) _).map _ = _ at h
    rw [expecting_run] at h
    split at h
    · next hq =>
      rw [hr₁.next_kind] at hname
      rw [hr₁.advance.next_kind] at hq
      rw [hr.current] at hkind
      cases us with
      | nil => cases hname
      | cons t us =>
        obtain ⟨name, vs, rfl, hname⟩ :=
          Token.Kind.exists_cons_of_first (by decide) hname
        obtain ⟨q, ws, rfl, hq⟩ :=
          Token.Kind.exists_cons_of_first (by decide) hq
        exact ⟨t, name, q, ws, rfl, hkind, hname, hq⟩
    · cases h
  · cases h

/-- A `let` that is found names a token between the keyword and an equals sign. -/
lemma exists_of_letStmt {t name : Token} {v : Node} (hr : r.At us)
    (h : statement expr r = some (some (.letStmt t name v), s)) :
    ∃ q ws, us = t :: name :: q :: ws ∧ t.kind = .letKey ∧
      name.kind = .ident ∧ q.kind = .assign := by
  by_cases hlet : r.current.kind = .letKey
  · obtain ⟨t', name', q, ws, rfl, ht, hname, hq⟩ := exists_of_letKey hr hlet h
    rw [statement_of_let hr.unread ht hname hq] at h
    obtain ⟨p, -, hp⟩ := Option.map_eq_some_iff.mp h
    cases hp
    exact ⟨q, ws, rfl, ht, hname, hq⟩
  by_cases hreturn : r.current.kind = .returnKey
  · rw [statement_of_return hreturn] at h
    obtain ⟨p, -, hp⟩ := Option.map_eq_some_iff.mp h
    cases hp
  · rw [statement_of_operand hlet hreturn] at h
    obtain ⟨p, -, hp⟩ := Option.map_eq_some_iff.mp h
    cases hp

/-! ### Programs -/

/-- A node names a token between `let` and an equals sign if it is a `let`. -/
def NamesBetween (us : List Token) (n : Node) : Prop :=
  ∀ t name v, n = .letStmt t name v → name.Between us

/-- So does all that rounds of statements find, whatever faults they meet. -/
lemma rounds_between (hsound : Sound expr bound) (hr : r.At vs) (hvs : vs <:+ us)
    (hbound : vs.length < bound) {ns : List (Option Node)}
    (h : rounds (statementRound expr endsProgram) m r = some (some ns, s)) :
    ∀ n, some n ∈ ns → NamesBetween us n := by
  -- the induction is on the rounds; each leaves a suffix of the tokens, in
  -- which names stand as they stand in all of them
  induction m generalizing r vs ns with
  | zero => cases h
  | succ m ih =>
      by_cases hend : endsProgram r.current.kind = true
      · rw [rounds_end hend] at h
        cases h
        exact fun n hn => absurd hn List.not_mem_nil
      rw [rounds_go hend] at h
      obtain ⟨⟨n?, s₁⟩, hstatement, h⟩ := Option.bind_eq_some_iff.mp h
      obtain ⟨⟨rest, s₂⟩, hrest, hfound⟩ := Option.map_eq_some_iff.mp h
      cases vs with
      | nil =>
          rw [hr.current] at hend
          exact absurd (decide_eq_true hr.eof_kind) hend
      | cons t vs =>
          -- faults or not, the statement stops in what was left to it
          obtain ⟨_, ws, _, hrun, hs₁, hws, -⟩ :=
            hsound.reads_statement hbound r hr
          rw [hstatement] at hrun
          cases hrun
          obtain ⟨hns, rfl⟩ := Prod.mk.inj hfound
          obtain ⟨more, rfl, rfl⟩ := Option.map_eq_some_iff.mp hns
          have hlength : ws.tail.length < bound := by
            have hle := hws.length_le
            rw [List.length_tail]
            omega
          intro n hn
          rcases List.mem_cons.mp hn with rfl | hn
          · rintro t' name v rfl
            obtain ⟨q, us', hus, ht, hname, hq⟩ :=
              exists_of_letStmt hr hstatement
            have hstart : [t', name, q] <+: t :: vs := ⟨us', hus.symm⟩
            exact ⟨hname, t', q, ht, hq, hstart.isInfix.trans hvs.isInfix⟩
          · exact ih hs₁.advance
              (((List.tail_suffix ws).trans hws).trans hvs) hlength hrest n hn

end Grammar

/-- **Where names are bound.**  Each `let` that the parser finds in a text, with
or without faults, names a token between the keyword and an equals sign. -/
theorem Parser.between_ofTokens (ts : List Token) (tracing : Bool) :
    ∃ ss, (Parser.ofTokens ts tracing).program = .program ss ∧
      ∀ n ∈ ss, NamesBetween (Token.beforeEnd ts) n := by
  obtain ⟨ns, s, hrounds⟩ := Parser.exists_rounds ts tracing
  refine ⟨_, (Parser.ofTokens_of_rounds hrounds).1, fun n hn => ?_⟩
  obtain ⟨_, hmem, rfl⟩ := List.mem_filterMap.mp hn
  have hentered := (Reader.ofTokens ts tracing).enter_eq .program
  have hat := (Reader.at_ofTokens ts tracing).congr hentered.1 hentered.2.1
  have hbound : (Token.beforeEnd ts).length <
      ((Reader.ofTokens ts tracing).enter .program).unread.length + 1 := by
    rw [hat.unread]
    exact Nat.lt_succ_self _
  exact rounds_between (sound_expression _) hat (List.suffix_refl _) hbound
    hrounds n hmem

end MonkeyLang

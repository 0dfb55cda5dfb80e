/-
How many rules the parser enters.

* `Parse.Costs us p Q`: if `p` answers from the tokens `us`, then `Q` holds of
  the answer, of the tokens that are left and of the number of rules entered;
* `Grammar.Thrifty expr`: an expression enters at most six rules for each
  token that it moves past and four for its last one;
* `thrifty_expression`: expressions of every depth are thrifty;
* `Thrifty.costs_statement`: so a statement costs six rules a token, with the
  token behind it counted in;
* `run_ofTokens`: on every stream the parser ends, on the first end token and
  after at most six rules a token and one more.
-/
import MonkeyLang.Proofs.Parser.Soundness

namespace MonkeyLang

namespace Reader

variable (r : Reader)

lemma calls_log (mark : Trace.Mark) (name : String) :
    (r.log mark name).calls = r.calls := by
  unfold log
  split_ifs <;> rfl

/-- Entering a rule is counted. -/
lemma calls_enter (rule : Rule) : (r.enter rule).calls = r.calls + 1 := by
  unfold enter
  cases rule.traceName? with
  | none => rfl
  | some name => exact calls_log { r with calls := r.calls + 1 } .opening name

lemma calls_leave (rule : Rule) : (r.leave rule).calls = r.calls := by
  unfold leave
  cases rule.traceName? with
  | none => rfl
  | some name => exact calls_log { r with depth := r.depth - 1 } .closing name

end Reader

/-- Before a token that does not end the stream two tokens are left. -/
lemma Token.two_le_of_first {us : List Token} {kind : Token.Kind}
    (hkind : kind ≠ .eof) (h : Token.Kind.first us.tail = kind) :
    2 ≤ us.length := by
  obtain ⟨t, ws, htail, -⟩ := Token.Kind.exists_cons_of_first hkind h
  have hle := Token.length_add_two_le (List.suffix_refl us) htail
  omega

namespace Parse

variable {α β : Type} {us : List Token} {p : Parse α}
  {P Q : α → List Token → ℕ → Prop} {R : β → List Token → ℕ → Prop}

/-- If a parser answers from the tokens `us`, the answer, the tokens that are
left and the number of rules entered have `Q`.  The end token stays. -/
def Costs (us : List Token) (p : Parse α) (Q : α → List Token → ℕ → Prop) :
    Prop :=
  ∀ r a r', r.At us → p r = some (a, r') → r'.eof = r.eof ∧
    ∃ vs n, r'.At vs ∧ r'.calls = r.calls + n ∧ Q a vs n

/-! ### Composition -/

lemma costs_exhausted : Costs us exhausted Q := by
  rintro r a r' - ⟨⟩

/-- Rules that are entered one after the other add up. -/
lemma Costs.bind {k : α → Parse β} (hp : Costs us p P)
    (hk : ∀ a vs m, P a vs m → Costs vs (k a) fun b ws n => R b ws (m + n)) :
    Costs us (p >>= k) R := by
  intro r b r₂ hr hrun
  change (p r).bind _ = _ at hrun
  obtain ⟨⟨a, r₁⟩, hp₁, hk₁⟩ := Option.bind_eq_some_iff.mp hrun
  obtain ⟨heof₁, vs, m, hr₁, hm, hP⟩ := hp r a r₁ hr hp₁
  obtain ⟨heof₂, ws, n, hr₂, hn, hR⟩ := hk a vs m hP r₁ b r₂ hr₁ hk₁
  exact ⟨heof₂.trans heof₁, ws, m + n, hr₂, by omega, hR⟩

lemma costs_pure {a : α} (ha : Q a us 0) : Costs us (pure a) Q := by
  rintro r b r' hr ⟨⟩
  exact ⟨rfl, us, 0, hr, rfl, ha⟩

lemma Costs.mono (hp : Costs us p P) (h : ∀ a vs n, P a vs n → Q a vs n) :
    Costs us p Q := by
  intro r a r' hr hrun
  obtain ⟨heof, vs, n, hr', hn, hP⟩ := hp r a r' hr hrun
  exact ⟨heof, vs, n, hr', hn, h a vs n hP⟩

/-- A last step that only changes the answer. -/
lemma Costs.map {f : α → β} (hp : Costs us p P)
    (hf : ∀ a vs n, P a vs n → R (f a) vs n) :
    Costs us (do return f (← p)) R :=
  hp.bind fun a vs m ha => costs_pure (hf a vs m ha)

/-! ### Steps -/

lemma costs_get {k : Reader → Parse β}
    (hk : ∀ r : Reader, r.unread = us → Costs us (k r) R) :
    Costs us (get >>= k) R :=
  fun r b r' hr hrun => hk r hr.unread r b r' hr hrun

/-- Going on by the kind of the current token. -/
lemma costs_current {k : Token → Parse β}
    (hk : ∀ t : Token, Token.Kind.first us = t.kind → Costs us (k t) R) :
    Costs us (current >>= k) R := by
  refine fun r b r' hr hrun => hk r.current ?_ r b r' hr hrun
  rw [hr.current]
  cases us with
  | nil => exact hr.eof_kind.symm
  | cons t ts => rfl

lemma costs_next {k : Token → Parse β}
    (hk : ∀ t : Token, Token.Kind.first us.tail = t.kind → Costs us (k t) R) :
    Costs us (next >>= k) R :=
  fun r b r' hr hrun => hk r.next hr.next_kind.symm r b r' hr hrun

lemma costs_advance {k : Unit → Parse β} (hk : Costs us.tail (k ()) R) :
    Costs us (advance >>= k) R :=
  fun r b r' hr hrun => hk r.advance b r' hr.advance hrun

lemma costs_report {cause : Diagnostic.Cause} {t : Token} {a : α}
    (ha : Q a us 0) :
    Costs us (do modify (Reader.report cause t); return a) Q := by
  rintro r b r' hr ⟨⟩
  exact ⟨rfl, us, 0, hr.congr rfl rfl, rfl, ha⟩

lemma costs_expecting {kind : Token.Kind} {otherwise : α} {rest : Parse α}
    (hkind : kind ≠ .eof) (hrest : 2 ≤ us.length → Costs us.tail rest Q)
    (hotherwise : Q otherwise us 0) :
    Costs us (expecting kind otherwise rest) Q := by
  intro r a r' hr hrun
  change (expect kind r).bind _ = _ at hrun
  rw [expect_run] at hrun
  split at hrun
  · next hnext =>
    have hlength := Token.two_le_of_first hkind (hr.next_kind.symm.trans hnext)
    exact hrest hlength r.advance a r' hr.advance hrun
  · cases hrun
    exact ⟨rfl, us, 0, hr.congr rfl rfl, rfl, hotherwise⟩

lemma costs_skip {kind : Token.Kind} {k : Unit → Parse β}
    (hskip : Costs us.tail (k ()) R) (hstay : Costs us (k ()) R) :
    Costs us (skip kind >>= k) R := by
  intro r b r' hr hrun
  by_cases hnext : r.next.kind = kind
  · have hrun' : k () r.advance = some (b, r') := by
      rw [← hrun]
      change _ = ((if r.next.kind = kind then _ else _ : Parse Unit) r).bind _
      rw [if_pos hnext]
      rfl
    exact hskip r.advance b r' hr.advance hrun'
  · have hrun' : k () r = some (b, r') := by
      rw [← hrun]
      change _ = ((if r.next.kind = kind then _ else _ : Parse Unit) r).bind _
      rw [if_neg hnext]
      rfl
    exact hstay r b r' hr hrun'

/-- Reading by a rule enters one more than its body does. -/
lemma costs_entering {rule : Rule} (hp : Costs us p fun a vs n => Q a vs (n + 1)) :
    Costs us (entering rule p) Q := by
  intro r a r' hr hrun
  change (p (r.enter rule)).bind _ = _ at hrun
  obtain ⟨⟨b, r₁⟩, hp₁, hleave⟩ := Option.bind_eq_some_iff.mp hrun
  cases hleave
  obtain ⟨hunread, heof, -⟩ := r.enter_eq rule
  obtain ⟨heof₁, vs, n, hr₁, hn, hQ⟩ :=
    hp _ _ _ (hr.congr hunread heof) hp₁
  obtain ⟨hunread', heof', -⟩ := r₁.leave_eq rule
  refine ⟨heof'.trans (heof₁.trans heof), vs, n + 1, hr₁.congr hunread' heof',
    ?_, hQ⟩
  rw [Reader.calls_leave, hn, Reader.calls_enter]
  omega

/-! ### Repetition -/

/-- What a round costs by a measure of the tokens that are left: nothing if it
finds an item, and at most `d` if it is the last one, which ends where `D`
holds. -/
def Round.Pays (μ : List Token → ℕ) (d : ℕ) (D : List Token → Prop)
    (us : List Token) : Round α → List Token → ℕ → Prop
  | .item _, vs, n => n + μ vs ≤ μ us
  | _, vs, n => n + μ vs ≤ μ us + d ∧ D vs

lemma Round.pays_of_le {μ : List Token → ℕ} {D : List Token → Prop}
    {us vs : List Token} {d n : ℕ} {found : Round α} (hD : D vs)
    (h : n + μ vs ≤ μ us) : found.Pays μ d D us vs n := by
  cases found with
  | item a => exact h
  | done => exact ⟨Nat.le_add_right_of_le h, hD⟩
  | broken => exact ⟨Nat.le_add_right_of_le h, hD⟩

/-- Then the whole repetition costs at most `d`. -/
lemma costs_rounds {round : Parse (Round α)} {μ : List Token → ℕ} {d : ℕ}
    {D : List Token → Prop}
    (hround : ∀ us, Costs us round (Round.Pays μ d D us)) (m : ℕ) :
    Costs us (rounds round m) fun _ vs n => n + μ vs ≤ μ us + d ∧ D vs := by
  induction m generalizing us with
  | zero => exact costs_exhausted
  | succ m ih =>
      refine (hround us).bind fun found vs n hfound => ?_
      cases found with
      | item a =>
          have hitem : n + μ vs ≤ μ us := hfound
          refine ih.map fun _ ws n' hrest => ⟨?_, hrest.2⟩
          have hle := hrest.1
          omega
      | done => exact costs_pure hfound
      | broken => exact costs_pure hfound

lemma costs_repeated {round : Parse (Round α)} {μ : List Token → ℕ} {d : ℕ}
    {D : List Token → Prop}
    (hround : ∀ us, Costs us round (Round.Pays μ d D us)) :
    Costs us (repeated round) fun _ vs n => n + μ vs ≤ μ us + d ∧ D vs :=
  costs_get fun r _ => costs_rounds hround (r.unread.length + 1)

end Parse

namespace Grammar

open Parse

/-! ### Expressions that are thrifty -/

/-- An expression enters at most six rules for each token that it moves past,
and four for the one that it stops at.  Where there is no token it enters one
rule. -/
def Thrifty (expr : ℕ → Parse Node) : Prop :=
  ∀ level us, lowest ≤ level → Costs us (expr level) fun _ vs n =>
    n + 6 * (vs.length - 1) ≤ max 1 (6 * us.length - 2)

/-- A rule that enters `d` rules more than six for each token that it moves
past. -/
def Pays {α : Type} (d : ℕ) (us : List Token) (_ : α) (vs : List Token)
    (n : ℕ) : Prop :=
  n + 6 * (vs.length - 1) ≤ 6 * (us.length - 1) + d

/-- The rule around it enters one more. -/
lemma Pays.enter {α β : Type} {a : α} {b : β} {d n : ℕ} {us vs : List Token}
    (h : Pays d us a vs n) : Pays (d + 1) us b vs (n + 1) := by
  simp only [Pays] at *
  omega

namespace Thrifty

variable {expr : ℕ → Parse Node} (hexpr : Thrifty expr) {us : List Token}

include hexpr

/-- An expression behind the current token. -/
lemma costs_advance {β : Type} {R : β → List Token → ℕ → Prop} {level : ℕ}
    (hlevel : lowest ≤ level) {k : Node → Parse β}
    (hk : ∀ n vs m, m + 6 * (vs.length - 1) ≤ max 1 (6 * (us.length - 1) - 2) →
      Costs vs (k n) fun b ws l => R b ws (m + l)) :
    Costs us (advance >>= fun _ => expr level >>= k) R := by
  refine Parse.costs_advance
    ((hexpr level us.tail hlevel).bind fun n vs m hm => ?_)
  rw [List.length_tail] at hm
  exact hk n vs m hm

/-- Such an expression costs one rule more than its tokens pay for. -/
lemma costs_behind {level : ℕ} (hlevel : lowest ≤ level) {β : Type}
    (f : Node → β) :
    Costs us (do advance; return f (← expr level)) (Pays 1 us) := by
  refine hexpr.costs_advance hlevel fun n vs m hm => costs_pure ?_
  simp only [Pays]
  omega

/-! ### Statements and blocks -/

/-- A value and the semicolon that may stand behind it. -/
lemma costs_value {β : Type} {R : β → List Token → ℕ → Prop} (answer : Node → β)
    (hR : ∀ v vs n, n + 6 * (vs.length - 1) ≤ max 1 (6 * us.length - 2) →
      R (answer v) vs n) :
    Costs us (do
      let value ← expr lowest
      skip .semicolon
      return answer value) R := by
  refine (hexpr lowest us (Nat.le_refl _)).bind fun v vs n hn => ?_
  refine costs_skip (costs_pure (hR v _ n ?_)) (costs_pure (hR v vs n hn))
  rw [List.length_tail]
  omega

lemma costs_letStatement (hus : us ≠ []) :
    Costs us (letStatement expr) (Pays 5 us) := by
  have hpos := List.length_pos_iff.mpr hus
  refine costs_entering (costs_current fun t _ => ?_)
  refine costs_expecting (by decide) (fun h₂ => ?_) (by simp only [Pays]; omega)
  refine costs_current fun name _ => ?_
  refine costs_expecting (by decide) (fun h₃ => ?_) ?_
  · refine Parse.costs_advance (hexpr.costs_value _ fun v vs n hn => ?_)
    simp only [Pays, List.length_tail] at *
    omega
  · simp only [Pays, List.length_tail]
    omega

lemma costs_returnStatement (hus : us ≠ []) :
    Costs us (returnStatement expr) (Pays 5 us) := by
  have hpos := List.length_pos_iff.mpr hus
  refine costs_entering (costs_current fun t _ => ?_)
  refine Parse.costs_advance (hexpr.costs_value _ fun v vs n hn => ?_)
  simp only [Pays, List.length_tail] at *
  omega

lemma costs_expressionStatement (hus : us ≠ []) :
    Costs us (expressionStatement expr) (Pays 5 us) := by
  have hpos := List.length_pos_iff.mpr hus
  refine costs_entering (costs_current fun t _ => ?_)
  refine hexpr.costs_value _ fun v vs n hn => ?_
  simp only [Pays]
  omega

lemma costs_statement (hus : us ≠ []) :
    Costs us (statement expr) (Pays 6 us) := by
  refine costs_entering (costs_current fun t _ => ?_)
  split
  · exact (hexpr.costs_letStatement hus).mono fun _ _ _ => Pays.enter
  · exact (hexpr.costs_returnStatement hus).map fun _ _ _ => Pays.enter
  · exact (hexpr.costs_expressionStatement hus).map fun _ _ _ => Pays.enter

/-- Statements cost six rules a token and end where a token ends them. -/
lemma costs_statements {stop : Token.Kind → Bool} (hstop : stop .eof = true) :
    Costs us (statements expr stop) fun _ vs n =>
      n + 6 * vs.length ≤ 6 * us.length ∧
        stop (Token.Kind.first vs) = true := by
  refine (costs_repeated (μ := fun us => 6 * us.length) (d := 0)
    (D := fun vs => stop (Token.Kind.first vs) = true) fun us => ?_).map
    fun _ _ _ => id
  refine costs_current fun t ht => ?_
  split
  · next hends =>
    rw [← ht] at hends
    exact costs_pure ⟨by omega, hends⟩
  · next hgoes =>
    have hus : us ≠ [] := by
      rintro rfl
      exact hgoes (ht ▸ hstop)
    have hpos := List.length_pos_iff.mpr hus
    refine (hexpr.costs_statement hus).bind fun s vs n hn => ?_
    refine Parse.costs_advance (costs_pure ?_)
    simp only [Pays, Round.Pays, List.length_tail] at *
    omega

lemma costs_block : Costs us (block expr) (Pays 1 us) := by
  refine costs_entering (costs_current fun t _ => Parse.costs_advance ?_)
  refine (hexpr.costs_statements rfl).map fun _ vs n hn => ?_
  have hle := hn.1
  simp only [Pays, List.length_tail] at *
  omega

/-! ### Lists -/

omit hexpr in
/-- The further items of a list pay for themselves with the commas. -/
lemma costs_items {item : Parse (Round Node)}
    (hitem : ∀ us, Costs us item (Pays 1 us)) :
    Costs us (repeated (listRound item)) (Pays 0 us) := by
  refine (costs_repeated (μ := fun us => 6 * (us.length - 1)) (d := 0)
    (D := fun _ => True) fun us => ?_).mono fun _ _ _ h => h.1
  refine costs_next fun t ht => ?_
  split
  · next hcomma =>
    have hlength := Token.two_le_of_first (by decide) (ht.trans hcomma)
    refine Parse.costs_advance ((hitem us.tail).mono fun found vs n hn => ?_)
    refine Round.pays_of_le trivial ?_
    simp only [Pays, List.length_tail] at *
    omega
  · exact costs_pure (Round.pays_of_le trivial (by omega))

lemma costs_list {close : Token.Kind} (hclose : close ≠ .eof) :
    Costs us (list expr close) (Pays 2 us) := by
  refine costs_entering (costs_next fun t ht => ?_)
  split
  · next hkind =>
    have hlength := Token.two_le_of_first hclose (ht.trans hkind)
    refine Parse.costs_advance (costs_pure ?_)
    simp only [Pays, List.length_tail]
    omega
  · refine hexpr.costs_advance (Nat.le_refl _) fun n vs m hm => ?_
    refine (costs_items fun us => hexpr.costs_behind (Nat.le_refl _) _).bind
      fun ns? ws l hl => ?_
    refine costs_expecting hclose (fun hlength => costs_pure ?_) ?_ <;>
    · simp only [Pays, List.length_tail] at *
      omega

omit hexpr in
lemma costs_parameters : Costs us parameters (Pays 1 us) := by
  refine costs_entering (costs_next fun t ht => ?_)
  -- this rule itself is the one that no token pays for
  split
  · refine Parse.costs_advance (costs_pure ?_)
    simp only [Pays, List.length_tail]
    omega
  · refine costs_expecting (by decide) (fun hlength => ?_)
      (by simp only [Pays]; omega)
    refine costs_current fun t _ => ?_
    refine (costs_items fun us => ?_).bind fun ns? vs n hn => ?_
    · refine costs_expecting (by decide)
        (fun _ => costs_current fun u _ => costs_pure ?_)
        (by simp only [Pays]; omega)
      simp only [Pays, List.length_tail]
      omega
    · cases ns? with
      | none =>
          refine costs_pure ?_
          simp only [Pays, List.length_tail] at *
          omega
      | some ns =>
          refine costs_expecting (by decide) (fun _ => costs_pure ?_) ?_ <;>
          · simp only [Pays, List.length_tail] at *
            omega

/-! ### Expressions that start with a token of their own -/

omit hexpr in
/-- A rule that stays on its token. -/
lemma costs_atom {rule : Rule} {f : Token → Node} :
    Costs us (entering rule do return f (← current)) (Pays 1 us) := by
  refine costs_entering (costs_current fun t _ => costs_pure ?_)
  simp only [Pays]
  omega

omit hexpr in
lemma costs_integer : Costs us integer (Pays 1 us) := by
  refine costs_entering (costs_current fun t _ => ?_)
  split
  · refine costs_pure ?_
    simp only [Pays]
    omega
  · refine costs_report ?_
    simp only [Pays]
    omega

lemma costs_prefixOperation : Costs us (prefixOperation expr) (Pays 2 us) :=
  costs_entering (costs_current fun _ _ =>
    (hexpr.costs_behind (by decide) _).mono fun _ _ _ => Pays.enter)

lemma costs_group : Costs us (group expr) (Pays 2 us) := by
  refine costs_entering (hexpr.costs_advance (Nat.le_refl _) fun n vs m hm => ?_)
  refine costs_expecting (by decide) (fun _ => costs_pure ?_) ?_ <;>
  · simp only [Pays, List.length_tail]
    omega

lemma costs_conditional : Costs us (conditional expr) (Pays 2 us) := by
  refine costs_entering (costs_current fun t _ => ?_)
  refine costs_expecting (by decide) (fun h₁ => ?_) (by simp only [Pays]; omega)
  refine hexpr.costs_advance (Nat.le_refl _) fun c vs m hm => ?_
  rw [List.length_tail] at hm
  refine costs_expecting (by decide) (fun h₂ => ?_) (by simp only [Pays]; omega)
  refine costs_expecting (by decide) (fun h₃ => ?_) ?_
  -- the block leaves its closing brace, which pays for what is asked behind it
  · refine hexpr.costs_block.bind fun a ws n hn => costs_next fun u hu => ?_
    simp only [Pays, List.length_tail] at hn
    split
    · next helse =>
      have h₄ := Token.two_le_of_first (by decide) (hu.trans helse)
      refine Parse.costs_advance (costs_expecting (by decide) (fun h₅ => ?_) ?_)
      · refine hexpr.costs_block.map fun b xs l hl => ?_
        simp only [Pays, List.length_tail] at *
        omega
      · simp only [Pays, List.length_tail] at *
        omega
    · refine costs_pure ?_
      simp only [Pays]
      omega
  · simp only [Pays, List.length_tail]
    omega

lemma costs_abstraction {make : Token → List Node → Node → Node} :
    Costs us (abstraction expr make) (Pays 2 us) := by
  refine costs_current fun t _ => ?_
  refine costs_expecting (by decide) (fun h₁ => ?_) (by simp only [Pays]; omega)
  refine costs_parameters.bind fun ns? vs m hm => ?_
  simp only [Pays, List.length_tail] at hm
  cases ns? with
  | none =>
      refine costs_pure ?_
      simp only [Pays]
      omega
  | some ns =>
      refine costs_expecting (by decide) (fun h₂ => ?_) ?_
      · refine hexpr.costs_block.map fun b ws n hn => ?_
        simp only [Pays, List.length_tail] at *
        omega
      · simp only [Pays]
        omega

lemma costs_array : Costs us (array expr) (Pays 3 us) := by
  refine costs_entering (costs_current fun t _ => ?_)
  refine (hexpr.costs_list (by decide)).bind fun ns? vs n hn => ?_
  cases ns? <;> exact costs_pure hn.enter

/-- An entry of a hash pays for itself with the colon in it. -/
lemma costs_hashRound (us : List Token) : Costs us (hashRound expr)
    (Round.Pays (fun us => 6 * (us.length - 1)) 1 (fun _ => True) us) := by
  refine costs_next fun t ht => ?_
  split
  · exact costs_pure ⟨by omega, trivial⟩
  · refine hexpr.costs_advance (Nat.le_refl _) fun k vs m hm => ?_
    refine costs_expecting (by decide) (fun h₁ => ?_)
      ⟨by beta_reduce; omega, trivial⟩
    refine hexpr.costs_advance (Nat.le_refl _) fun v ws n hn => ?_
    rw [List.length_tail] at hn
    refine costs_next fun u hu => ?_
    split
    · refine costs_pure (Round.pays_of_le trivial ?_)
      omega
    · refine costs_expecting (by decide) (fun h₂ => costs_pure ?_)
        ⟨by beta_reduce; omega, trivial⟩
      refine Round.pays_of_le trivial ?_
      rw [List.length_tail]
      omega

lemma costs_hash : Costs us (hash expr) (Pays 2 us) := by
  refine costs_entering (costs_current fun t _ => ?_)
  refine (costs_repeated hexpr.costs_hashRound).bind fun ps? vs n hn => ?_
  have hle := hn.1
  cases ps? with
  | none =>
      refine costs_pure ?_
      simp only [Pays]
      omega
  | some ps =>
      refine costs_expecting (by decide) (fun _ => costs_pure ?_) ?_ <;>
      · simp only [Pays, List.length_tail]
        omega

lemma costs_startRule {kind : Token.Kind} {rule : Parse Node}
    (hrule : startRule? expr kind = some rule) : Costs us rule (Pays 3 us) := by
  -- arrays, functions and macros need all three; the other rules leave some of
  -- what they may spend
  have hmono {d : ℕ} {p : Parse Node} (hd : d ≤ 3) (hp : Costs us p (Pays d us)) :
      Costs us p (Pays 3 us) :=
    hp.mono fun _ _ _ h => h.trans (Nat.add_le_add_left hd _)
  unfold startRule? at hrule
  split at hrule <;> cases hrule
  · exact hmono (by decide) costs_atom
  · exact hmono (by decide) costs_integer
  · exact hmono (by decide) costs_atom
  · exact hmono (by decide) hexpr.costs_prefixOperation
  · exact hmono (by decide) hexpr.costs_prefixOperation
  · exact hmono (by decide) costs_atom
  · exact hmono (by decide) costs_atom
  · exact hmono (by decide) hexpr.costs_group
  · exact hmono (by decide) hexpr.costs_conditional
  · exact costs_entering
      (hexpr.costs_abstraction.mono fun _ _ _ => Pays.enter)
  · exact costs_entering
      (hexpr.costs_abstraction.mono fun _ _ _ => Pays.enter)
  · exact hexpr.costs_array
  · exact hmono (by decide) hexpr.costs_hash

/-! ### Expressions that go on with an expression -/

lemma costs_extend (left : Node) : Costs us (extend expr left) (Pays 3 us) := by
  refine costs_current fun t _ => ?_
  split
  · refine costs_entering (costs_current fun t _ => ?_)
    refine (hexpr.costs_list (by decide)).bind fun ns? vs n hn => ?_
    cases ns? <;> exact costs_pure hn.enter
  · refine costs_entering (costs_current fun t _ => ?_)
    refine hexpr.costs_advance (Nat.le_refl _) fun n vs m hm => ?_
    refine costs_expecting (by decide) (fun _ => costs_pure ?_) ?_ <;>
    · simp only [Pays, List.length_tail]
      omega
  · refine costs_entering (costs_current fun t _ => ?_)
    have hlevel : lowest ≤ t.kind.precedence := by cases t.kind <;> decide
    refine (hexpr.costs_behind hlevel _).mono fun _ vs n hn => ?_
    simp only [Pays] at *
    omega

/-- Going on with an expression is paid for by the token that follows it. -/
lemma costs_extensions {level : ℕ} (hlevel : lowest ≤ level) (m : ℕ)
    (left : Node) : Costs us (extensions expr level m left) (Pays 0 us) := by
  induction m generalizing us left with
  | zero => exact costs_exhausted
  | succ m ih =>
      refine costs_next fun t ht => ?_
      split
      · next hstrong =>
        have hkind : t.kind ≠ .eof := by
          intro heof
          rw [heof] at hstrong
          exact absurd hlevel (Nat.not_le.mpr hstrong)
        have hlength := Token.two_le_of_first hkind ht
        refine Parse.costs_advance ((hexpr.costs_extend left).bind
          fun n vs l hl => (ih n).mono fun _ ws l' hl' => ?_)
        simp only [Pays, List.length_tail] at *
        omega
      · refine costs_pure ?_
        simp only [Pays]
        omega

/-- Expressions one rule deeper are thrifty as well. -/
lemma expressionWith : Thrifty (Grammar.expressionWith expr) := by
  intro level us hlevel
  refine costs_entering (costs_current fun t ht => ?_)
  split
  · refine costs_report ?_
    omega
  · next rule hrule =>
    have hus : us ≠ [] := by
      rintro rfl
      rw [← ht] at hrule
      cases hrule
    have hpos := List.length_pos_iff.mpr hus
    refine (hexpr.costs_startRule hrule).bind fun left vs n hn => ?_
    refine costs_get fun r _ => ?_
    refine (hexpr.costs_extensions hlevel _ left).mono fun _ ws m hm => ?_
    simp only [Pays] at *
    omega

end Thrifty

/-- Expressions of every depth are thrifty. -/
theorem thrifty_expression (depth : ℕ) : Thrifty (expression depth) := by
  induction depth with
  | zero => exact fun _ _ _ => costs_exhausted
  | succ depth ih => exact ih.expressionWith

/-- A program costs six rules a token and its own one, and nothing is left
behind it. -/
lemma costs_program {us : List Token} :
    Costs us program fun _ vs n =>
      n ≤ 6 * us.length + 1 ∧ Token.Kind.first vs = .eof := by
  refine costs_entering (costs_get fun r _ => ?_)
  refine ((thrifty_expression _).costs_statements rfl).map fun _ vs n hn => ?_
  have hend : Token.Kind.first vs = .eof := of_decide_eq_true hn.2
  have hle := hn.1
  exact ⟨by omega, hend⟩

end Grammar

/-! ### Streams -/

/-- The token on which a parser ends: the first end token, or one that stands
in no text if there is none. -/
def Token.endOf (ts : List Token) : Token :=
  (ts.find? (·.kind = .eof)).getD (.made .eof "")

/-- Tokens behind an end token are not read. -/
lemma Reader.ofTokens_append {ts : List Token} (hend : ∃ t ∈ ts, t.kind = .eof)
    (rest : List Token) (tracing : Bool) :
    Reader.ofTokens (ts ++ rest) tracing = Reader.ofTokens ts tracing := by
  have hends : ∃ t ∈ ts, isEnd t = true := by simpa [isEnd] using hend
  have hunread : (ts ++ rest).takeWhile (!isEnd ·) =
      ts.takeWhile (!isEnd ·) := by
    rw [List.takeWhile_append, if_neg]
    intro hlength
    obtain ⟨t, ht, hkind⟩ := hends
    rw [← (List.takeWhile_prefix _).eq_of_length hlength] at ht
    have hopen := List.mem_takeWhile_imp ht
    rw [hkind] at hopen
    cases hopen
  have heof : (ts ++ rest).find? isEnd = ts.find? isEnd := by
    obtain ⟨t, ht⟩ := Option.isSome_iff_exists.mp (List.find?_isSome.mpr hends)
    rw [List.find?_append, ht, Option.some_or]
  rw [ofTokens, hunread, heof, ofTokens]

/-- **The parser ends.**  On every stream the parser gives a program, after at
most six rules for each token before the first end token and one more, and
both tokens that it looks at are that end token then.  What it gives does not
depend on the tokens behind that one. -/
theorem Parser.run_ofTokens (ts : List Token) (tracing : Bool) :
    ∃ program r, Parser.run (.ofTokens ts tracing) = some (program, r) ∧
      Parser.ofTokens ts tracing =
        ⟨program, r.diagnostics.toList, r.trace.toList⟩ ∧
      r.calls ≤ 6 * (Token.beforeEnd ts).length + 1 ∧
      r.current = Token.endOf ts ∧ r.next = Token.endOf ts ∧
      ((∃ t ∈ ts, t.kind = .eof) → ∀ rest,
        Parser.ofTokens (ts ++ rest) tracing = Parser.ofTokens ts tracing) := by
  have hat := Reader.at_ofTokens ts tracing
  obtain ⟨program, -, r, hrun, -⟩ := Grammar.reads_program _ hat
  obtain ⟨heof, vs, n, hr, hcalls, hle, hkind⟩ :=
    Grammar.costs_program _ _ _ hat hrun
  have hparser : Parser.run (.ofTokens ts tracing) = some (program, r) := hrun
  have hunread : r.unread = [] := by
    rw [hr.unread]
    exact Token.Kind.eq_nil_of_first hr.kind_ne_eof hkind
  have hend : r.eof = Token.endOf ts := heof
  refine ⟨program, r, hparser, by rw [Parser.ofTokens, hparser], ?_, ?_, ?_,
    fun hends rest => ?_⟩
  · have hzero : (Reader.ofTokens ts tracing).calls = 0 := rfl
    omega
  · rw [Reader.current, hunread, ← hend]
    rfl
  · rw [Reader.next, hunread, ← hend]
    rfl
  · rw [Parser.ofTokens, Reader.ofTokens_append hends, Parser.ofTokens]

end MonkeyLang

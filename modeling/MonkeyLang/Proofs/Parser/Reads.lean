/-
What a parser that meets no fault has read.

* `Reader.At us r`: the reader stands on the first of the tokens `us`, none of
  which ends the stream;
* `Parse.Reads us p Q`: from `us` the parser `p` gives an answer, and if it
  meets no fault the answer and the tokens that are left then have `Q`;
* `Reads.bind` composes such parsers, each of which may use what was found
  before it; `reads_advance`, `reads_expecting`, `reads_skip` and their like
  are the single steps.
-/
import MonkeyLang.Proofs.Parser.Cursor

namespace MonkeyLang

/-- A reader stands on the first of some tokens.  None of them ends the
stream, and behind them it ends. -/
structure Reader.At (us : List Token) (r : Reader) : Prop where
  unread : r.unread = us
  eof_kind : r.eof.kind = .eof
  kind_ne_eof : ∀ t ∈ us, t.kind ≠ .eof

namespace Reader.At

variable {us : List Token} {r : Reader}

/-- Where a reader stands is read off the unread tokens and the end token. -/
lemma congr {r' : Reader} (h : r.At us) (hunread : r'.unread = r.unread)
    (heof : r'.eof = r.eof) : r'.At us :=
  ⟨by rw [hunread, h.unread], by rw [heof, h.eof_kind], h.kind_ne_eof⟩

lemma advance (h : r.At us) : r.advance.At us.tail :=
  ⟨congrArg List.tail h.unread, h.eof_kind,
    fun t ht => h.kind_ne_eof t (List.mem_of_mem_tail ht)⟩

/-- The current token is the first one, and behind the last one the end
token. -/
lemma current (h : r.At us) : r.current = us.headD r.eof := by
  rw [Reader.current, h.unread]

lemma next_kind (h : r.At us) : r.next.kind = Token.Kind.first us.tail := by
  rw [Reader.next, h.unread]
  cases us.tail with
  | nil => exact h.eof_kind
  | cons t ts => rfl

end Reader.At

namespace Reader

variable (r : Reader)

/-- Entering a rule reads nothing and reports nothing. -/
lemma enter_eq (rule : Rule) :
    (r.enter rule).unread = r.unread ∧ (r.enter rule).eof = r.eof ∧
      (r.enter rule).diagnostics = r.diagnostics := by
  simp

/-- Leaving a rule reads nothing and reports nothing. -/
lemma leave_eq (rule : Rule) :
    (r.leave rule).unread = r.unread ∧ (r.leave rule).eof = r.eof ∧
      (r.leave rule).diagnostics = r.diagnostics := by
  simp

/-- A reader that reports a fault does not stay without. -/
lemma report_ne (cause : Diagnostic.Cause) (t : Token) :
    (r.report cause t).diagnostics ≠ #[] := by
  intro h
  exact absurd (congrArg Array.size h) (by simp [report])

end Reader

/-- Behind tokens none of which ends the stream only its end follows. -/
lemma Token.Kind.eq_nil_of_first {us : List Token}
    (hus : ∀ t ∈ us, t.kind ≠ .eof) (h : first us = .eof) : us = [] := by
  cases us with
  | nil => rfl
  | cons t us => exact absurd h (hus t List.mem_cons_self)

/-- A kind that ends no stream is that of a token. -/
lemma Token.Kind.exists_cons_of_first {us : List Token} {kind : Token.Kind}
    (hkind : kind ≠ .eof) (h : first us = kind) :
    ∃ t ws, us = t :: ws ∧ t.kind = kind := by
  cases us with
  | nil => exact absurd h.symm hkind
  | cons t ws => exact ⟨t, ws, rfl, h⟩

/-- Where a token follows the current one, two tokens stand before the rest. -/
lemma Token.length_add_two_le {us vs ws : List Token} {t : Token}
    (hvs : vs <:+ us) (htail : vs.tail = t :: ws) :
    ws.length + 2 ≤ us.length := by
  have hle := hvs.length_le
  have hlength := congrArg List.length htail
  rw [List.length_tail, List.length_cons] at hlength
  omega

namespace Parse

variable {α β : Type} {us : List Token} {p : Parse α}
  {P Q : α → List Token → Prop} {R : β → List Token → Prop}

/-- From the tokens `us` a parser gives an answer and stands on some of them
then.  If no fault is known by then, none was known before, and the answer
and the tokens that are left have `Q`. -/
def Reads (us : List Token) (p : Parse α) (Q : α → List Token → Prop) : Prop :=
  ∀ r : Reader, r.At us → ∃ a vs r', p r = some (a, r') ∧ r'.At vs ∧ vs <:+ us ∧
    (r'.diagnostics = #[] → r.diagnostics = #[] ∧ Q a vs)

/-! ### Composition -/

/-- What is read next may use what was found before. -/
lemma Reads.bind {k : α → Parse β} (hp : Reads us p P)
    (hk : ∀ a vs, vs <:+ us →
      Reads vs (k a) fun b ws => P a vs → R b ws) :
    Reads us (p >>= k) R := by
  intro r hr
  obtain ⟨a, vs, r₁, hp₁, hr₁, hvs, hclean₁⟩ := hp r hr
  obtain ⟨b, ws, r₂, hk₂, hr₂, hws, hclean₂⟩ := hk a vs hvs r₁ hr₁
  refine ⟨b, ws, r₂, ?_, hr₂, hws.trans hvs, fun hclean => ?_⟩
  · change (p r).bind _ = _
    rw [hp₁]
    exact hk₂
  · obtain ⟨hclean, hR⟩ := hclean₂ hclean
    obtain ⟨hclean, hP⟩ := hclean₁ hclean
    exact ⟨hclean, hR hP⟩

lemma Reads.mono (hp : Reads us p P)
    (h : ∀ a vs, vs <:+ us → P a vs → Q a vs) : Reads us p Q := by
  intro r hr
  obtain ⟨a, vs, r', hp', hr', hvs, hclean⟩ := hp r hr
  exact ⟨a, vs, r', hp', hr', hvs, fun h' =>
    (hclean h').imp_right (h a vs hvs)⟩

lemma reads_pure {a : α} (ha : Q a us) : Reads us (pure a) Q :=
  fun r hr => ⟨a, us, r, rfl, hr, List.suffix_refl us, fun h => ⟨h, ha⟩⟩

/-- A last step that only changes the answer. -/
lemma Reads.map {f : α → β} (hp : Reads us p P)
    (hf : ∀ a vs, vs <:+ us → P a vs → R (f a) vs) :
    Reads us (do return f (← p)) R :=
  hp.bind fun a vs hvs => reads_pure (hf a vs hvs)

/-- None of the tokens ends the stream. -/
lemma Reads.of_kind_ne_eof (h : (∀ t ∈ us, t.kind ≠ .eof) → Reads us p Q) :
    Reads us p Q :=
  fun r hr => h hr.kind_ne_eof r hr

/-! ### Steps -/

/-- Going on from the reader as it stands. -/
lemma reads_get {k : Reader → Parse β}
    (hk : ∀ r : Reader, r.unread = us → Reads us (k r) R) :
    Reads us (get >>= k) R :=
  fun r hr => hk r hr.unread r hr

/-- Looking at the current token, which may be the end token. -/
lemma reads_current {k : Token → Parse β}
    (hk : ∀ e : Token, e.kind = .eof → Reads us (k (us.headD e)) R) :
    Reads us (current >>= k) R := by
  intro r hr
  have hrun := hk r.eof hr.eof_kind r hr
  rw [← hr.current] at hrun
  exact hrun

lemma reads_current_cons {t : Token} {ts : List Token} {k : Token → Parse β}
    (hk : Reads (t :: ts) (k t) R) : Reads (t :: ts) (current >>= k) R :=
  reads_current fun _ _ => hk

/-- Going on by the kind of the next token. -/
lemma reads_next {k : Token → Parse β}
    (hk : ∀ t : Token, t.kind = Token.Kind.first us.tail → Reads us (k t) R) :
    Reads us (next >>= k) R :=
  fun r hr => hk r.next hr.next_kind r hr

lemma reads_advance {k : Unit → Parse β} (hk : Reads us.tail (k ()) R) :
    Reads us (advance >>= k) R := by
  intro r hr
  obtain ⟨b, vs, r', hk', hr', hvs, hclean⟩ := hk r.advance hr.advance
  exact ⟨b, vs, r', hk', hr', hvs.trans (List.tail_suffix us), hclean⟩

/-- Nothing is left to say once a fault is reported. -/
lemma reads_report {cause : Diagnostic.Cause} {t : Token} {a : α} :
    Reads us (do modify (Reader.report cause t); return a) Q := by
  intro r hr
  refine ⟨a, us, r.report cause t, rfl, hr.congr rfl rfl,
    List.suffix_refl us, fun hclean => ?_⟩
  exact absurd hclean (r.report_ne cause t)

/-- A rule that looks at the current token first. -/
lemma current_run (k : Token → Parse β) (r : Reader) :
    (current >>= k) r = k r.current r := rfl

lemma entering_run (rule : Rule) (body : Parse α) (r : Reader) :
    entering rule body r =
      (body (r.enter rule)).map fun p => (p.1, p.2.leave rule) := by
  change (body (r.enter rule)).bind _ = _
  cases body (r.enter rule) <;> rfl

lemma expect_run (kind : Token.Kind) (r : Reader) :
    expect kind r = some (if r.next.kind = kind then (true, r.advance)
      else (false, r.report (.unexpected kind r.next.kind) r.next)) := by
  change (if r.next.kind = kind then _ else _ : Parse Bool) r = _
  split <;> rfl

/-- Reading on behind a token that has to follow, or reporting another one. -/
lemma expecting_run (kind : Token.Kind) (otherwise : α) (rest : Parse α)
    (r : Reader) : expecting kind otherwise rest r =
      if r.next.kind = kind then rest r.advance else
        some (otherwise, r.report (.unexpected kind r.next.kind) r.next) := by
  change (expect kind r).bind _ = _
  rw [expect_run]
  split <;> rfl

lemma skip_run (kind : Token.Kind) (r : Reader) :
    skip kind r = some ((), if r.next.kind = kind then r.advance else r) := by
  change (if r.next.kind = kind then _ else _ : Parse Unit) r = _
  split <;> rfl

/-- Without faults the token that has to follow does.  If it does not, what
comes then has to end all the same. -/
lemma reads_expecting_bind {kind : Token.Kind} {otherwise : α}
    {rest : Parse α} {k : α → Parse β} (hkind : kind ≠ .eof)
    (hrest : ∀ c vs, us.tail = c :: vs → c.kind = kind →
      Reads (c :: vs) (rest >>= k) R)
    (hotherwise : Reads us (k otherwise) fun _ _ => True) :
    Reads us (expecting kind otherwise rest >>= k) R := by
  intro r hr
  -- what comes next is drawn into both branches, as it goes on from another
  -- answer in each
  have hrun : (expecting kind otherwise rest >>= k) r =
      if r.next.kind = kind then (rest >>= k) r.advance
      else k otherwise (r.report (.unexpected kind r.next.kind) r.next) := by
    change (expecting kind otherwise rest r).bind _ = _
    rw [expecting_run]
    split <;> rfl
  rw [hrun]
  split
  · next hnext =>
    obtain ⟨c, vs, htail, hc⟩ := Token.Kind.exists_cons_of_first hkind
      (hr.next_kind.symm.trans hnext)
    have hadvance := hr.advance
    rw [htail] at hadvance
    obtain ⟨b, ws, r', hrest', hr', hws, hclean⟩ :=
      hrest c vs htail hc _ hadvance
    have hsuffix : c :: vs <:+ us := htail ▸ List.tail_suffix us
    exact ⟨b, ws, r', hrest', hr', hws.trans hsuffix, hclean⟩
  -- a fault was reported, so nothing has to be shown of the answer
  · obtain ⟨b, ws, r', hk, hr', hws, hclean⟩ :=
      hotherwise (r.report (.unexpected kind r.next.kind) r.next)
        (hr.congr rfl rfl)
    exact ⟨b, ws, r', hk, hr', hws,
      fun h => absurd (hclean h).1 (r.report_ne _ _)⟩

lemma reads_expecting {kind : Token.Kind} {otherwise : α} {rest : Parse α}
    (hkind : kind ≠ .eof)
    (hrest : ∀ c vs, us.tail = c :: vs → c.kind = kind →
      Reads (c :: vs) rest Q) :
    Reads us (expecting kind otherwise rest) Q := by
  rw [← bind_pure (expecting kind otherwise rest)]
  refine reads_expecting_bind hkind (fun c vs htail hc => ?_)
    (reads_pure trivial)
  rw [bind_pure]
  exact hrest c vs htail hc

/-- A token that may follow. -/
lemma reads_skip {kind : Token.Kind} {k : Unit → Parse β}
    (hskip : Token.Kind.first us.tail = kind → Reads us.tail (k ()) R)
    (hstay : Token.Kind.first us.tail ≠ kind → Reads us (k ()) R) :
    Reads us (skip kind >>= k) R := by
  intro r hr
  have hrun : (skip kind >>= k) r =
      if r.next.kind = kind then (advance >>= k) r else k () r := by
    change ((if r.next.kind = kind then _ else _ : Parse Unit) r).bind _ = _
    split <;> rfl
  rw [hrun]
  split
  · next hnext =>
    exact reads_advance (hskip (hr.next_kind.symm.trans hnext)) r hr
  · next hnext =>
    exact hstay (fun h => hnext (hr.next_kind.trans h)) r hr

/-- Reading by a rule reads what its body does. -/
lemma reads_entering {rule : Rule} (hp : Reads us p Q) :
    Reads us (entering rule p) Q := by
  intro r hr
  obtain ⟨hunread, heof, hfaults⟩ := r.enter_eq rule
  obtain ⟨a, vs, r', hp', hr', hvs, hclean⟩ := hp _ (hr.congr hunread heof)
  obtain ⟨hunread', heof', hfaults'⟩ := r'.leave_eq rule
  refine ⟨a, vs, r'.leave rule, ?_, hr'.congr hunread' heof', hvs, ?_⟩
  · change (p (r.enter rule)).bind _ = _
    rw [hp']
    rfl
  · rw [hfaults', ← hfaults]
    exact hclean

/-- There are enough rounds for the tokens that are left. -/
lemma reads_repeated {round : Parse (Round α)}
    {Q : Option (List α) → List Token → Prop}
    (h : ∀ m, us.length < m → Reads us (rounds round m) Q) :
    Reads us (repeated round) Q :=
  reads_get fun r hr => h (r.unread.length + 1) (by rw [hr]; omega)

end Parse

end MonkeyLang

/-
Two runs of the parser on streams that start alike.

* `Reader.Ahead X r r'`: the second reader has more tokens `X` before it, or
  none more but whatever it has counted and traced;
* `Reader.Border X r`: what a parser does up to `r` does not depend on what
  stands behind its own tokens, for it met no fault and not their end;
* `Reader.Inner X r`: the next token is one of the reader's own;
* `Parse.Follows X Q p p' r`: whatever `p` gives from `r` up to such a place,
  `p'` gives from every reader that is ahead of `r`;
* `Grammar.Mirrors X expr expr'`: nested expressions are read alike; the
  lemmas say that the other rules do not look further;
* `mirrors_expression`: expressions are read alike, and those nested deeper as
  well.
-/
import MonkeyLang.Proofs.Parser.Reads
import MonkeyLang.Proofs.Parser.Yields

namespace MonkeyLang

namespace Reader

variable {X : Option (List Token)} {r r' : Reader}

/-! ### Readers ahead of others -/

/-- The first reader's tokens are followed by more for the second one, or by
nothing more and the same end token.  What is more begins a statement: the
first reader's last token is a semicolon. -/
structure Ahead (X : Option (List Token)) (r r' : Reader) : Prop where
  unread : r'.unread = r.unread ++ X.getD []
  diagnostics : r'.diagnostics = r.diagnostics
  eof_kind : r.eof.kind = .eof
  eof : X = none → r'.eof = r.eof
  last : X ≠ none → ∀ t ∈ r.unread.getLast?, t.kind = .semicolon

/-- Up to here nothing depends on what stands behind the reader's tokens: it
has some left and met no fault. -/
def Border (X : Option (List Token)) (r : Reader) : Prop :=
  X = none ∨ r.unread ≠ [] ∧ r.diagnostics = #[]

/-- The reader stands on no semicolon, so that its last token is not the one
that it stands on. -/
def Inner (X : Option (List Token)) (r : Reader) : Prop :=
  X = none ∨ r.current.kind ≠ .semicolon

/-- Only what is left, the end token and the faults count. -/
lemma Ahead.congr {s s' : Reader} (h : r.Ahead X r')
    (hs : s.unread = r.unread ∧ s.eof = r.eof ∧ s.diagnostics = r.diagnostics)
    (hs' : s'.unread = r'.unread ∧ s'.eof = r'.eof ∧
      s'.diagnostics = r'.diagnostics) : s.Ahead X s' where
  unread := by rw [hs.1, hs'.1, h.unread]
  diagnostics := by rw [hs.2.2, hs'.2.2, h.diagnostics]
  eof_kind := by rw [hs.2.1, h.eof_kind]
  eof hX := by rw [hs.2.1, hs'.2.1, h.eof hX]
  last hX := by
    rw [hs.1]
    exact h.last hX

lemma border_enter (rule : Rule) : (r.enter rule).Border X ↔ r.Border X := by
  rw [Border, Border, unread_enter, diagnostics_enter]

lemma border_leave (rule : Rule) : (r.leave rule).Border X ↔ r.Border X := by
  rw [Border, Border, unread_leave, diagnostics_leave]

lemma inner_leave (rule : Rule) : (r.leave rule).Inner X ↔ r.Inner X := by
  rw [Inner, Inner, current, current, unread_leave, eof_leave]

lemma Inner.enter (h : r.Inner X) (rule : Rule) : (r.enter rule).Inner X :=
  h.imp_right fun h => by rwa [current_enter]

lemma inner_of_kind {kind : Token.Kind} (h : r.current.kind = kind)
    (hkind : kind ≠ .semicolon) : r.Inner X :=
  Or.inr (h ▸ hkind)

lemma inner_advance {kind : Token.Kind} (h : r.next.kind = kind)
    (hkind : kind ≠ .semicolon) : r.advance.Inner X :=
  inner_of_kind (r := r.advance) h hkind

lemma Border.of_advance (h : r.advance.Border X) : r.Border X := by
  refine h.imp_right fun h => ⟨?_, h.2⟩
  intro hnil
  exact h.1 (congrArg List.tail hnil)

lemma Ahead.advance (h : r.Ahead X r') (hr : r.Border X) :
    r.advance.Ahead X r'.advance where
  unread := by
    show r'.unread.tail = r.unread.tail ++ X.getD []
    rw [h.unread]
    rcases hr with rfl | hr
    · simp
    · exact List.tail_append_of_ne_nil hr.1
  diagnostics := h.diagnostics
  eof_kind := h.eof_kind
  eof := h.eof
  last hX t ht := by
    rw [Reader.advance, List.getLast?_tail] at ht
    split at ht
    · cases ht
    · exact h.last hX t ht

/-- Both stand on the same token. -/
lemma Ahead.current_eq (h : r.Ahead X r') (hr : r.Border X) :
    r'.current = r.current := by
  rcases hr with rfl | hr
  · rw [current, h.unread, h.eof rfl, Option.getD_none, List.append_nil]
    rfl
  · obtain ⟨t, ts, hunread⟩ := List.exists_cons_of_ne_nil hr.1
    rw [current, current, h.unread, hunread]
    rfl

/-- The token behind is the same if it is one of the first reader's. -/
lemma Ahead.next_eq_of_tail (h : r.Ahead X r') (htail : r.unread.tail ≠ []) :
    r'.next = r.next := by
  have hne : r.unread ≠ [] := fun hnil => htail (congrArg List.tail hnil)
  obtain ⟨t, ts, hts⟩ := List.exists_cons_of_ne_nil htail
  rw [next, next, h.unread, List.tail_append_of_ne_nil hne, hts]
  rfl

/-- Whoever stands on no semicolon is not on its last token. -/
lemma Ahead.next_eq (h : r.Ahead X r') (hr : r.Border X) (hi : r.Inner X) :
    r'.next = r.next := by
  rcases hr with rfl | hr
  · rw [next, next, h.unread, h.eof rfl, Option.getD_none, List.append_nil]
  rcases hi with rfl | hi
  · rw [next, next, h.unread, h.eof rfl, Option.getD_none, List.append_nil]
  by_cases hX : X = none
  · rw [next, next, h.unread, h.eof hX, hX, Option.getD_none, List.append_nil]
  refine h.next_eq_of_tail fun htail => hi ?_
  obtain ⟨t, ts, hunread⟩ := List.exists_cons_of_ne_nil hr.1
  rw [hunread] at htail
  obtain rfl : ts = [] := htail
  rw [current, hunread]
  exact h.last hX t (by rw [hunread]; rfl)

end Reader

namespace Parse

variable {X : Option (List Token)} {α β : Type} {r : Reader} {p p' : Parse α}
  {P Q : α → Reader → Prop} {R : β → Reader → Prop}

/-- If `p` gives an answer from `r`, and nothing up to there depends on what
stands behind the tokens of `r`, then `p'` gives it from every reader that is
ahead of `r` and stays ahead.  Where `p` ends has `Q`. -/
def Follows (X : Option (List Token)) (Q : α → Reader → Prop)
    (p p' : Parse α) (r : Reader) : Prop :=
  ∀ a s, p r = some (a, s) → s.Border X → Q a s ∧ r.Border X ∧
    ∀ r', r.Ahead X r' →
      ∃ s', p' r' = some (a, s') ∧ s.Ahead X s' ∧ s'.eof = r'.eof

/-! ### Composition -/

lemma Follows.bind {k k' : α → Parse β} (hp : Follows X P p p' r)
    (hk : ∀ a s, (s.Border X → P a s) → Follows X R (k a) (k' a) s) :
    Follows X R (p >>= k) (p' >>= k') r := by
  intro b t hrun hborder
  change (p r).bind _ = _ at hrun
  obtain ⟨⟨a, s⟩, hp₁, hk₁⟩ := Option.bind_eq_some_iff.mp hrun
  have hP := hp a s hp₁
  obtain ⟨hR, hs, hahead⟩ := hk a s (fun hs => (hP hs).1) b t hk₁ hborder
  obtain ⟨-, hr, hahead₁⟩ := hP hs
  refine ⟨hR, hr, fun r' hr' => ?_⟩
  obtain ⟨s', hp', hs', heof⟩ := hahead₁ r' hr'
  obtain ⟨t', hk', ht', heof'⟩ := hahead s' hs'
  refine ⟨t', ?_, ht', heof'.trans heof⟩
  change (p' r').bind _ = _
  rw [hp']
  exact hk'

lemma follows_exhausted : Follows X Q exhausted p' r := nofun

lemma follows_pure {a : α} (ha : r.Border X → Q a r) :
    Follows X Q (pure a) (pure a) r := by
  rintro b s ⟨⟩ hborder
  exact ⟨ha hborder, hborder, fun r' hr' => ⟨r', rfl, hr', rfl⟩⟩

/-- A last step that only changes the answer. -/
lemma Follows.map {f : α → β} (hp : Follows X P p p' r)
    (hf : ∀ a s, P a s → R (f a) s) :
    Follows X R (do return f (← p)) (do return f (← p')) r :=
  hp.bind fun a s ha => follows_pure fun hs => hf a s (ha hs)

/-! ### Steps -/

/-- A step that looks at a reader, and finds in each what it finds in `r`. -/
lemma Follows.of_eq {q q' : Parse α} (hr : p r = q r)
    (hahead : ∀ r', r.Border X → r.Ahead X r' → p' r' = q' r')
    (hq : Follows X P q q' r) : Follows X P p p' r := by
  intro a s hrun hborder
  obtain ⟨hP, hr, hfollows⟩ := hq a s (hr ▸ hrun) hborder
  refine ⟨hP, hr, fun r' hr' => ?_⟩
  obtain ⟨s', hq', hs'⟩ := hfollows r' hr'
  exact ⟨s', (hahead r' hr hr').trans hq', hs'⟩

lemma follows_current {k k' : Token → Parse β}
    (hk : Follows X R (k r.current) (k' r.current) r) :
    Follows X R (current >>= k) (current >>= k') r :=
  hk.of_eq rfl fun r' hr hr' => by
    show k' r'.current r' = _
    rw [hr'.current_eq hr]

lemma follows_next {k k' : Token → Parse β} (hi : r.Border X → r.Inner X)
    (hk : Follows X R (k r.next) (k' r.next) r) :
    Follows X R (next >>= k) (next >>= k') r :=
  hk.of_eq rfl fun r' hr hr' => by
    show k' r'.next r' = _
    rw [hr'.next_eq hr (hi hr)]

lemma follows_advance {k k' : Unit → Parse β}
    (hk : Follows X R (k ()) (k' ()) r.advance) :
    Follows X R (advance >>= k) (advance >>= k') r := by
  intro b s hrun hborder
  obtain ⟨hR, hr, hahead⟩ := hk b s hrun hborder
  have hr := hr.of_advance
  exact ⟨hR, hr, fun r' hr' => hahead r'.advance (hr'.advance hr)⟩

/-- A fault is reported only where both readers have the same tokens. -/
lemma follows_report {cause : Diagnostic.Cause} {t : Token} {a : α}
    (hQ : X = none → Q a (r.report cause t)) :
    Follows X Q (do modify (Reader.report cause t); return a)
      (do modify (Reader.report cause t); return a) r := by
  rintro b s ⟨⟩ hborder
  have hX : X = none := hborder.resolve_right fun h => r.report_ne cause t h.2
  refine ⟨hQ hX, Or.inl hX, fun r' hr' => ⟨r'.report cause t, rfl, ?_, rfl⟩⟩
  exact
    { unread := hr'.unread
      diagnostics := by rw [Reader.report, hr'.diagnostics]; rfl
      eof_kind := hr'.eof_kind
      eof := hr'.eof
      last := hr'.last }

lemma follows_expecting {kind : Token.Kind} {otherwise : α}
    {rest rest' : Parse α} (hkind : kind ≠ .eof)
    (hrest : r.next.kind = kind → Follows X Q rest rest' r.advance)
    (hotherwise : ∀ s, X = none → Q otherwise s) :
    Follows X Q (expecting kind otherwise rest)
      (expecting kind otherwise rest') r := by
  by_cases hnext : r.next.kind = kind
  -- the token that is asked for is no end, so it is one of the first reader's
  -- own and stands before the second one, too
  · intro a s hrest₁ hborder
    rw [expecting_run, if_pos hnext] at hrest₁
    obtain ⟨hQ, hr, hahead⟩ := hrest hnext a s hrest₁ hborder
    have hr := hr.of_advance
    refine ⟨hQ, hr, fun r' hr' => ?_⟩
    have htail : r.unread.tail ≠ [] := by
      intro hnil
      rw [Reader.next, hnil] at hnext
      exact hkind (hnext.symm.trans hr'.eof_kind)
    rw [expecting_run, hr'.next_eq_of_tail htail, if_pos hnext]
    exact hahead r'.advance (hr'.advance hr)
  · intro a s hfault hborder
    rw [expecting_run, if_neg hnext] at hfault
    -- a fault was reported, so this is no border unless there is nothing more
    have hX : X = none := by
      cases hfault
      exact hborder.resolve_right fun h => r.report_ne _ _ h.2
    obtain ⟨hQ, hr, hahead⟩ := follows_report (Q := Q)
      (fun hX => hotherwise _ hX) a s hfault hborder
    refine ⟨hQ, hr, fun r' hr' => ?_⟩
    rw [expecting_run, hr'.next_eq hr (Or.inl hX), if_neg hnext]
    exact hahead r' hr'

lemma follows_skip {kind : Token.Kind} {k k' : Unit → Parse β}
    (hi : r.Border X → r.Inner X)
    (hskip : Follows X R (k ()) (k' ()) r.advance)
    (hstay : Follows X R (k ()) (k' ()) r) :
    Follows X R (skip kind >>= k) (skip kind >>= k') r := by
  have hrun (k : Unit → Parse β) : (skip kind >>= k) =
      next >>= fun t => if t.kind = kind then advance >>= k else k () := by
    funext s
    show (if s.next.kind = kind then _ else _ : Parse Unit) s >>= _ =
      (if s.next.kind = kind then _ else _ : Parse β) s
    split <;> rfl
  rw [hrun, hrun]
  refine follows_next hi ?_
  split
  · exact follows_advance hskip
  · exact hstay

/-- Reading by a rule reads what its body does. -/
lemma follows_entering {rule : Rule} (hp : Follows X Q p p' (r.enter rule))
    (hQ : ∀ a s, Q a s → Q a (s.leave rule)) :
    Follows X Q (entering rule p) (entering rule p') r := by
  intro a s hrun hborder
  change (p (r.enter rule)).bind _ = _ at hrun
  obtain ⟨⟨_, s₁⟩, hp₁, hleave⟩ := Option.bind_eq_some_iff.mp hrun
  cases hleave
  rw [Reader.border_leave] at hborder
  obtain ⟨hQ₁, hr, hahead⟩ := hp a s₁ hp₁ hborder
  rw [Reader.border_enter] at hr
  refine ⟨hQ a s₁ hQ₁, hr, fun r' hr' => ?_⟩
  obtain ⟨s', hp', hs', heof⟩ :=
    hahead _ (hr'.congr (r.enter_eq rule) (r'.enter_eq rule))
  refine ⟨s'.leave rule, ?_, hs'.congr (s₁.leave_eq rule) (s'.leave_eq rule), ?_⟩
  · change (p' (r'.enter rule)).bind _ = _
    rw [hp']
    rfl
  · rw [Reader.eof_leave, heof, Reader.eof_enter]

/-- A rule that stops on no semicolon. -/
lemma follows_entering_inner {rule : Rule}
    (hp : Follows X (fun _ s => s.Inner X) p p' (r.enter rule)) :
    Follows X (fun _ s => s.Inner X) (entering rule p) (entering rule p') r :=
  follows_entering hp fun _ _ => (Reader.inner_leave rule).mpr

/-! ### Repetition -/

/-- Where a round ends that finds an item, and where the last one does. -/
def Round.Ends (I Q : Reader → Prop) : Round α → Reader → Prop
  | .item _, r => I r
  | _, r => Q r

/-- Rounds are followed by as many or more. -/
lemma follows_rounds {round round' : Parse (Round α)} {I Q : Reader → Prop}
    (hround : ∀ r, (r.Border X → I r) →
      Follows X (Round.Ends I Q) round round' r)
    {m m' : ℕ} (hm : m ≤ m') (hr : r.Border X → I r) :
    Follows X (fun _ => Q) (rounds round m) (rounds round' m') r := by
  induction m generalizing m' r with
  | zero => exact follows_exhausted
  | succ m ih =>
      obtain ⟨m', rfl⟩ : ∃ j, m' = j + 1 := ⟨m' - 1, by omega⟩
      refine (hround r hr).bind fun found s hfound => ?_
      cases found with
      | item a =>
          exact (ih (Nat.le_of_succ_le_succ hm) hfound).map fun _ _ => id
      | done => exact follows_pure hfound
      | broken => exact follows_pure hfound

/-- A bound that grows with the tokens that are left. -/
lemma follows_bounded {body body' : ℕ → Parse α} {Q : α → Reader → Prop}
    (h : ∀ m m', m ≤ m' → Follows X Q (body m) (body' m') r) :
    Follows X Q (do body ((← get).unread.length + 1))
      (do body' ((← get).unread.length + 1)) r := by
  intro a s hrun hborder
  have hlength {r' : Reader} (hr' : r.Ahead X r') :
      r.unread.length + 1 ≤ r'.unread.length + 1 := by
    rw [hr'.unread, List.length_append]
    omega
  obtain ⟨hQ, hr, -⟩ := h _ _ (Nat.le_refl _) a s hrun hborder
  refine ⟨hQ, hr, fun r' hr' => ?_⟩
  exact (h _ _ (hlength hr') a s hrun hborder).2.2 r' hr'

lemma follows_repeated {round round' : Parse (Round α)} {I Q : Reader → Prop}
    (hround : ∀ r, (r.Border X → I r) →
      Follows X (Round.Ends I Q) round round' r) (hr : r.Border X → I r) :
    Follows X (fun _ => Q) (repeated round) (repeated round') r :=
  follows_bounded fun _ _ hm => follows_rounds hround hm hr

end Parse

namespace Grammar

open Parse

/-- Nested expressions are read alike, and they stop on no semicolon. -/
def Mirrors (X : Option (List Token)) (expr expr' : ℕ → Parse Node) : Prop :=
  ∀ level r, Follows X (fun _ s => s.Inner X) (expr level) (expr' level) r

/-- Which tokens start an expression does not depend on the nested ones. -/
lemma startRule?_eq_none {expr : ℕ → Parse Node} (expr' : ℕ → Parse Node)
    {kind : Token.Kind} (h : startRule? expr kind = none) :
    startRule? expr' kind = none := by
  cases kind <;> first | rfl | cases h

namespace Mirrors

variable {X : Option (List Token)} {expr expr' : ℕ → Parse Node}
  (hexpr : Mirrors X expr expr') {r : Reader}

include hexpr

/-! ### Statements and blocks -/

/-- A value and the semicolon that may stand behind it. -/
lemma follows_value {β : Type} (answer : Node → β) :
    Follows X (fun _ _ => True)
      (do
        let value ← expr lowest
        skip .semicolon
        return answer value)
      (do
        let value ← expr' lowest
        skip .semicolon
        return answer value) r :=
  (hexpr lowest r).bind fun _ _ hs =>
    follows_skip hs (follows_pure fun _ => trivial)
      (follows_pure fun _ => trivial)

lemma follows_letStatement : Follows X (fun _ _ => True)
    (letStatement expr) (letStatement expr') r := by
  refine follows_entering (follows_current ?_) fun _ _ => id
  refine follows_expecting (by decide) (fun _ => follows_current ?_)
    fun _ _ => trivial
  exact follows_expecting (by decide)
    (fun _ => follows_advance (hexpr.follows_value _)) fun _ _ => trivial

lemma follows_statement : Follows X (fun _ _ => True)
    (statement expr) (statement expr') r := by
  refine follows_entering (follows_current ?_) fun _ _ => id
  split
  · exact hexpr.follows_letStatement
  · refine (follows_entering (follows_current ?_) fun _ _ => id).map
      fun _ _ => id
    exact follows_advance (hexpr.follows_value _)
  · refine (follows_entering (follows_current ?_) fun _ _ => id).map
      fun _ _ => id
    exact hexpr.follows_value _

lemma follows_statementRound {stop : Token.Kind → Bool} :
    Follows X (Round.Ends (fun _ => True) fun s => stop s.current.kind = true)
      (statementRound expr stop) (statementRound expr' stop) r := by
  refine follows_current ?_
  split
  · next hstop => exact follows_pure fun _ => hstop
  · exact hexpr.follows_statement.bind fun _ _ _ =>
      follows_advance (follows_pure fun _ => trivial)

lemma follows_block :
    Follows X (fun _ s => s.Inner X) (block expr) (block expr') r := by
  refine follows_entering_inner (follows_current (follows_advance ?_))
  refine Follows.map (P := fun _ s => endsBlock s.current.kind = true) ?_
    fun _ s hs => Or.inr fun hkind => ?_
  · exact (follows_repeated (fun s _ => hexpr.follows_statementRound)
      fun _ => trivial).map fun _ _ => id
  · rw [hkind] at hs
    cases hs

/-! ### Lists -/

omit hexpr in
/-- Further items follow where the parser stands on no semicolon. -/
lemma follows_items {item item' : Parse (Round Node)}
    (hitem : ∀ r, Follows X
      (Round.Ends (Reader.Inner X) (Reader.Inner X)) item item' r)
    (hr : r.Border X → r.Inner X) :
    Follows X (fun _ s => s.Inner X) (repeated (listRound item))
      (repeated (listRound item')) r := by
  refine follows_repeated (I := Reader.Inner X) (fun s hs => ?_) hr
  refine follows_next hs ?_
  split
  · exact follows_advance (hitem s.advance)
  · exact follows_pure hs

lemma follows_list {close : Token.Kind} (hclose : close ≠ .eof)
    (hsemicolon : close ≠ .semicolon) (hr : r.Inner X) :
    Follows X (fun _ s => s.Inner X) (list expr close) (list expr' close) r := by
  refine follows_entering_inner (follows_next (fun _ => hr.enter _) ?_)
  split
  · next hkind =>
    exact follows_advance (follows_pure fun _ =>
      Reader.inner_advance hkind hsemicolon)
  · refine follows_advance ((hexpr lowest _).bind fun first s hs => ?_)
    refine (follows_items (fun r => follows_advance ?_) hs).bind
      fun more s _ => ?_
    · exact (hexpr lowest _).map fun _ _ => id
    · exact follows_expecting hclose
        (fun hkind => follows_pure fun _ =>
          Reader.inner_advance hkind hsemicolon) fun _ => Or.inl

omit hexpr in
lemma follows_parameters (hr : r.Inner X) :
    Follows X (fun _ s => s.Inner X) parameters parameters r := by
  refine follows_entering_inner (follows_next (fun _ => hr.enter _) ?_)
  split
  · next hkind =>
    exact follows_advance (follows_pure fun _ =>
      Reader.inner_advance hkind (by decide))
  · refine follows_expecting (by decide) (fun hkind => ?_) fun _ => Or.inl
    refine follows_current ((follows_items (fun r => ?_) fun _ =>
      Reader.inner_advance hkind (by decide)).bind fun ns? s hs => ?_)
    · exact follows_expecting (by decide)
        (fun hkind => follows_current (follows_pure fun _ =>
          Reader.inner_advance hkind (by decide))) fun _ => Or.inl
    · cases ns? with
      | none => exact follows_pure hs
      | some ns =>
          exact follows_expecting (by decide)
            (fun hkind => follows_pure fun _ =>
              Reader.inner_advance hkind (by decide)) fun _ => Or.inl

/-! ### Expressions that start with a token of their own -/

omit hexpr in
/-- A rule that stays on its token. -/
lemma follows_atom {rule : Rule} {f : Token → Node} (hr : r.Inner X) :
    Follows X (fun _ s => s.Inner X) (entering rule do return f (← current))
      (entering rule do return f (← current)) r :=
  follows_entering_inner (follows_current (follows_pure fun _ => hr.enter _))

omit hexpr in
lemma follows_integer (hr : r.Inner X) :
    Follows X (fun _ s => s.Inner X) integer integer r := by
  refine follows_entering_inner (follows_current ?_)
  split
  · exact follows_pure fun _ => hr.enter _
  · exact follows_report Or.inl

lemma follows_prefixOperation : Follows X (fun _ s => s.Inner X)
    (prefixOperation expr) (prefixOperation expr') r :=
  follows_entering_inner (follows_current (follows_advance
    ((hexpr tight _).map fun _ _ => id)))

lemma follows_group :
    Follows X (fun _ s => s.Inner X) (group expr) (group expr') r :=
  follows_entering_inner (follows_advance ((hexpr lowest _).bind fun _ _ _ =>
    follows_expecting (by decide)
      (fun hkind => follows_pure fun _ =>
        Reader.inner_advance hkind (by decide)) fun _ => Or.inl))

lemma follows_conditional : Follows X (fun _ s => s.Inner X)
    (conditional expr) (conditional expr') r := by
  refine follows_entering_inner (follows_current ?_)
  refine follows_expecting (by decide) (fun _ => ?_) fun _ => Or.inl
  refine follows_advance ((hexpr lowest _).bind fun c s _ => ?_)
  refine follows_expecting (by decide) (fun _ => ?_) fun _ => Or.inl
  refine follows_expecting (by decide) (fun _ => ?_) fun _ => Or.inl
  refine hexpr.follows_block.bind fun a s hs => follows_next hs ?_
  split
  · refine follows_advance (follows_expecting (by decide) (fun _ => ?_)
      fun _ => Or.inl)
    exact hexpr.follows_block.map fun _ _ => id
  · exact follows_pure hs

lemma follows_abstraction {make : Token → List Node → Node → Node} :
    Follows X (fun _ s => s.Inner X) (abstraction expr make)
      (abstraction expr' make) r := by
  refine follows_current ?_
  refine follows_expecting (by decide) (fun hkind => ?_) fun _ => Or.inl
  refine (follows_parameters (Reader.inner_advance hkind (by decide))).bind
    fun ns? s hs => ?_
  cases ns? with
  | none => exact follows_pure hs
  | some ns =>
      exact follows_expecting (by decide)
        (fun _ => hexpr.follows_block.map fun _ _ => id) fun _ => Or.inl

lemma follows_array (hr : r.Inner X) :
    Follows X (fun _ s => s.Inner X) (array expr) (array expr') r := by
  refine follows_entering_inner (follows_current ?_)
  refine (hexpr.follows_list (by decide) (by decide) (hr.enter _)).bind
    fun es? s hs => ?_
  cases es? <;> exact follows_pure hs

lemma follows_hashRound (hr : r.Border X → r.Inner X) :
    Follows X (Round.Ends (Reader.Inner X) (Reader.Inner X))
      (hashRound expr) (hashRound expr') r := by
  refine follows_next hr ?_
  split
  · exact follows_pure hr
  · refine follows_advance ((hexpr lowest _).bind fun k s _ => ?_)
    refine follows_expecting (by decide) (fun _ => ?_) fun _ => Or.inl
    refine follows_advance ((hexpr lowest _).bind fun v s hs => ?_)
    refine follows_next hs ?_
    split
    · exact follows_pure hs
    · exact follows_expecting (by decide)
        (fun hkind => follows_pure fun _ =>
          Reader.inner_advance hkind (by decide)) fun _ => Or.inl

lemma follows_hash (hr : r.Inner X) :
    Follows X (fun _ s => s.Inner X) (hash expr) (hash expr') r := by
  refine follows_entering_inner (follows_current ?_)
  refine (follows_repeated (fun _ => hexpr.follows_hashRound)
    fun _ => hr.enter _).bind fun ps? s hs => ?_
  cases ps? with
  | none => exact follows_pure hs
  | some ps =>
      exact follows_expecting (by decide)
        (fun hkind => follows_pure fun _ =>
          Reader.inner_advance hkind (by decide)) fun _ => Or.inl

lemma follows_startRule {kind : Token.Kind} {rule : Parse Node}
    (hkind : r.current.kind = kind)
    (hrule : startRule? expr kind = some rule) :
    ∃ rule', startRule? expr' kind = some rule' ∧
      Follows X (fun _ s => s.Inner X) rule rule' r := by
  -- an expression does not start with a semicolon, so its rule may look at the
  -- next token
  have hr : r.Inner X := by
    refine Reader.inner_of_kind hkind ?_
    rintro rfl
    cases hrule
  unfold startRule? at hrule ⊢
  split at hrule <;> cases hrule
  · exact ⟨_, rfl, follows_atom hr⟩
  · exact ⟨_, rfl, follows_integer hr⟩
  · exact ⟨_, rfl, follows_atom hr⟩
  · exact ⟨_, rfl, hexpr.follows_prefixOperation⟩
  · exact ⟨_, rfl, hexpr.follows_prefixOperation⟩
  · exact ⟨_, rfl, follows_atom hr⟩
  · exact ⟨_, rfl, follows_atom hr⟩
  · exact ⟨_, rfl, hexpr.follows_group⟩
  · exact ⟨_, rfl, hexpr.follows_conditional⟩
  · exact ⟨_, rfl, follows_entering_inner hexpr.follows_abstraction⟩
  · exact ⟨_, rfl, follows_entering_inner hexpr.follows_abstraction⟩
  · exact ⟨_, rfl, hexpr.follows_array hr⟩
  · exact ⟨_, rfl, hexpr.follows_hash hr⟩

/-! ### Expressions that go on with an expression -/

lemma follows_extend (left : Node) : Follows X (fun _ s => s.Inner X)
    (extend expr left) (extend expr' left) r := by
  refine follows_current ?_
  split
  · next hkind =>
    have hr : (r.enter .call).Inner X :=
      (Reader.inner_of_kind hkind (by decide)).enter _
    refine follows_entering_inner (follows_current ?_)
    refine (hexpr.follows_list (by decide) (by decide) hr).bind
      fun as? s hs => ?_
    cases as? <;> exact follows_pure hs
  · refine follows_entering_inner (follows_current (follows_advance ?_))
    exact (hexpr lowest _).bind fun _ _ _ => follows_expecting (by decide)
      (fun hkind => follows_pure fun _ =>
        Reader.inner_advance hkind (by decide)) fun _ => Or.inl
  · exact follows_entering_inner (follows_current (follows_advance
      ((hexpr _ _).map fun _ _ => id)))

lemma follows_extensions {level m m' : ℕ} (hm : m ≤ m') (left : Node)
    (hr : r.Border X → r.Inner X) : Follows X (fun _ s => s.Inner X)
      (extensions expr level m left) (extensions expr' level m' left) r := by
  induction m generalizing m' r left with
  | zero => exact follows_exhausted
  | succ m ih =>
      obtain ⟨m', rfl⟩ : ∃ j, m' = j + 1 := ⟨m' - 1, by omega⟩
      refine follows_next hr ?_
      split
      · exact follows_advance ((hexpr.follows_extend left).bind
          fun n s hs => ih (Nat.le_of_succ_le_succ hm) n hs)
      · exact follows_pure hr

/-- Expressions one rule deeper are read alike. -/
lemma expressionWith :
    Mirrors X (Grammar.expressionWith expr) (Grammar.expressionWith expr') := by
  intro level r
  refine follows_entering_inner (follows_current ?_)
  cases hrule : startRule? expr (r.enter .expression).current.kind with
  | none =>
      rw [startRule?_eq_none expr' hrule]
      exact follows_report Or.inl
  | some rule =>
      obtain ⟨rule', hrule', hfollows⟩ := hexpr.follows_startRule rfl hrule
      rw [hrule']
      exact hfollows.bind fun left s hs => follows_bounded fun m m' hm =>
        hexpr.follows_extensions hm left hs

end Mirrors

/-- Expressions are read alike, and so are those that may be nested deeper. -/
theorem mirrors_expression {X : Option (List Token)} {depth depth' : ℕ}
    (h : depth ≤ depth') :
    Mirrors X (expression depth) (expression depth') := by
  induction depth generalizing depth' with
  | zero => exact fun _ _ => follows_exhausted
  | succ depth ih =>
      obtain ⟨depth', rfl⟩ : ∃ j, depth' = j + 1 := ⟨depth' - 1, by omega⟩
      exact (ih (Nat.le_of_succ_le_succ h)).expressionWith

end Grammar

end MonkeyLang

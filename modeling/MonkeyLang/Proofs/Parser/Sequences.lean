/-
What the lists, hashes and statements of the grammar have read.

* `Phrase.Spans`: the tokens between two places of the stream derive a phrase;
* `Node.ReadAs`: what an expression is while the parser goes on with it;
* `Grammar.Sound`: the rule for nested expressions reads them as they are
  derived; the lemmas say what the other rules read then;
* `Sound.reads_list`, `reads_parameters`, `Sound.reads_rounds_hash`: what
  stands between delimiters;
* `Sound.reads_statement`, `Sound.reads_block`: statements and blocks.
-/
import MonkeyLang.Proofs.Parser.Completeness
import MonkeyLang.Proofs.Parser.Derivation
import MonkeyLang.Proofs.Parser.Reads

namespace MonkeyLang

open Parse Grammar

/-! ### Spans -/

/-- The tokens from the first of `us` to the first of `vs`, that included,
derive a phrase.  A block is open there just if the stream ends. -/
def Phrase.Spans (p : Phrase) (us vs : List Token) : Prop :=
  ∃ ts k, us = ts ++ vs.tail ∧ (0 < k ↔ vs = []) ∧ Derives p ts k

namespace Phrase

variable {p : Phrase} {us vs ws : List Token} {t c : Token} {ts : List Token}

/-- A phrase of one token. -/
lemma spans_token (h : Derives p [t] 0) : p.Spans (t :: ts) (t :: ts) :=
  ⟨[t], 0, rfl, ⟨fun hpos => absurd hpos (Nat.lt_irrefl 0), nofun⟩, h⟩

/-- Where the stream does not end no block is open. -/
lemma Spans.whole (h : p.Spans us vs) (hvs : vs ≠ []) :
    ∃ ts, us = ts ++ vs.tail ∧ Derives p ts 0 := by
  obtain ⟨ts, k, hus, hk, hderives⟩ := h
  obtain rfl : k = 0 := by
    by_contra hpos
    exact hvs (hk.mp (Nat.pos_of_ne_zero hpos))
  exact ⟨ts, hus, hderives⟩

lemma Spans.before (h : p.Spans us vs) (hvs : vs.tail = c :: ws) :
    ∃ ts, us = ts ++ c :: ws ∧ Derives p ts 0 := by
  obtain ⟨ts, hus, hderives⟩ := h.whole (by rintro rfl; cases hvs)
  exact ⟨ts, by rw [hus, hvs], hderives⟩

/-- A phrase whose last token is known. -/
lemma spans_closed (h : Derives p ts 0) (hus : us = ts ++ ws) :
    p.Spans us (c :: ws) :=
  ⟨ts, 0, hus, ⟨fun hpos => absurd hpos (Nat.lt_irrefl 0), nofun⟩, h⟩

end Phrase

/-! ### Places -/

/-- The places of which an expression that fits a precedence and a next token
asks for no parentheses. -/
def Place.Suits : Place → ℕ → Token.Kind → Prop
  | free, _, _ => True
  | left op, _, next => next = op
  | right op, level, _ => level = op.precedence
  | operand, level, _ => level = tight
  | applied, _, next => tight < next.precedence

lemma Place.Suits.not_demands {place : Place} {level : ℕ} {next : Token.Kind}
    {n : Node} (h : place.Suits level next) (hfits : n.Fits level next)
    (hn : ∀ t l r, n = .infixOp t l r → t.kind.isInfix = true) :
    ¬ place.Demands n := by
  -- only operators and signs may need parentheses; a place that would demand
  -- them was left with a level or a token that they do not fit
  cases n with
  | infixOp t l r =>
      obtain ⟨hlevel, hnext⟩ := hfits
      have htight := (Token.Kind.precedence_of_isInfix (hn t l r rfl)).2
      cases place with
      | free => exact id
      | left op =>
          obtain rfl : next = op := h
          exact Nat.not_lt.mpr hnext
      | right op =>
          obtain rfl : level = op.precedence := h
          exact Nat.not_le.mpr hlevel
      | operand =>
          obtain rfl : level = tight := h
          exact absurd htight (by omega)
      | applied =>
          have hstrong : tight < next.precedence := h
          exact absurd htight (by omega)
  | prefixOp t r =>
      cases place with
      | applied =>
          have hstrong : tight < next.precedence := h
          exact absurd (show next.precedence ≤ tight from hfits) (by omega)
      | _ => exact id
  | _ => cases place <;> exact id

/-- An expression between two places of the stream, while the parser may go
on with it: one in parentheses, or one that what follows does not take
operands from. -/
def Node.ReadAs (level : ℕ) (us : List Token) (n : Node) (vs : List Token) :
    Prop :=
  (∀ place, (Phrase.expression place n).Spans us vs) ∨
    (Phrase.bare n).Spans us vs ∧ n.Fits level (Token.Kind.first vs.tail)

/-- Whichever it is, it may stand at the places that suit it. -/
lemma Node.ReadAs.at_place {level : ℕ} {us vs : List Token} {n : Node}
    (h : n.ReadAs level us vs) (place : Place)
    (hplace : place.Suits level (Token.Kind.first vs.tail)) :
    (Phrase.expression place n).Spans us vs := by
  rcases h with h | ⟨⟨ts, k, hus, hk, hderives⟩, hfits⟩
  · exact h place
  · refine ⟨ts, k, hus, hk, .plain (hplace.not_demands hfits ?_) hderives⟩
    rintro t l r rfl
    cases hderives with
    | infixOp ht => exact ht

namespace Grammar

/-- From fewer tokens than the bound an expression is read with all operators
that bind more strongly than the precedence, and derived where that suits. -/
def Sound (expr : ℕ → Parse Node) (bound : ℕ) : Prop :=
  ∀ level us, lowest ≤ level → level ≤ tight → us.length < bound →
    Reads us (expr level) fun n vs =>
      (Token.Kind.first vs.tail).precedence ≤ level ∧ n.ReadAs level us vs

namespace Sound

variable {expr : ℕ → Parse Node} {bound : ℕ} {t : Token} {ts : List Token}
  {level : ℕ} (hexpr : Sound expr bound)

include hexpr

/-- An expression on its own. -/
lemma reads_free (hts : ts.length < bound) :
    Reads ts (expr lowest) fun n vs => (Phrase.expression .free n).Spans ts vs :=
  (hexpr lowest ts (Nat.le_refl _) (by decide) hts).mono
    fun _ _ _ hn => hn.2.at_place .free trivial

/-! ### Lists -/

omit hexpr in
/-- The further members of a list, by what one of them adds to a list that is
derived. -/
lemma reads_rounds_list {item : Parse (Round Node)}
    {D : List Node → List Token → Prop} (hnil : D [] [])
    (hitem : ∀ s us, s.kind = .comma → us.length < bound →
      Reads (s :: us) item fun found vs => ∃ n ts, found = .item n ∧
        us = ts ++ vs.tail ∧ (vs ≠ [] →
          ∀ ns ts', D ns ts' → D (n :: ns) (s :: (ts ++ ts'))))
    (m : ℕ) {us : List Token} (hus : us.length ≤ bound) (hm : us.length < m) :
    Reads us (rounds (listRound item) m) fun ns? vs => ∃ ns ts, ns? = some ns ∧
      us.tail = ts ++ vs.tail ∧ (vs ≠ [] → D ns ts) := by
  -- the induction is on the rounds, of which there are more than tokens; each
  -- comma that is found leaves fewer of them
  induction m generalizing us with
  | zero => omega
  | succ m ih =>
      rw [rounds, listRound, bind_assoc]
      refine reads_next fun t ht => ?_
      split
      · next hcomma =>
        rw [bind_assoc]
        refine reads_advance ?_
        obtain ⟨s, ws, hws, hs⟩ := Token.Kind.exists_cons_of_first
          (by decide) (ht.symm.trans hcomma)
        have hlength := Token.length_add_two_le (List.suffix_refl us) hws
        rw [hws]
        refine (hitem s ws hs (by omega)).bind fun found vs hvs => ?_
        have hle := hvs.length_le
        rw [List.length_cons] at hle
        cases found with
        | item n =>
            refine (ih (by omega) (by omega)).map ?_
            rintro _ xs hxs ⟨ns, ts', rfl, htail, hD⟩ ⟨_, ts₁, ⟨⟩, hws', hadd⟩
            refine ⟨n :: ns, s :: (ts₁ ++ ts'), rfl, ?_, fun hne => ?_⟩
            · rw [hws', htail, List.cons_append, List.append_assoc]
            -- this item did not end with the tokens, or nothing would be left
            -- behind the further ones
            · have hvs' : vs ≠ [] := by
                rintro rfl
                exact hne (List.suffix_nil.mp hxs)
              exact hadd hvs' ns ts' (hD hne)
        | done => exact reads_pure fun ⟨_, _, h, _⟩ => nomatch h
        | broken => exact reads_pure fun ⟨_, _, h, _⟩ => nomatch h
      · rw [pure_bind]
        exact reads_pure ⟨[], [], rfl, rfl, fun _ => hnil⟩

/-- What a list between its delimiters derives, up to the one that closes
it. -/
def Closed (close : Token.Kind) (p : List Node → Phrase) (us : List Token)
    (ns? : Option (List Node)) (vs : List Token) : Prop :=
  ∃ ns ts c ws, ns? = some ns ∧ us = ts ++ c :: ws ∧ vs = c :: ws ∧
    c.kind = close ∧ Derives (p ns) ts 0

omit hexpr in
/-- A list that is closed at once. -/
lemma reads_closed {close : Token.Kind} {p : List Node → Phrase}
    (hclose : close ≠ .eof) (hfirst : Token.Kind.first ts = close)
    (hp : Derives (p []) [] 0) :
    Reads (t :: ts) (do advance; return some []) (Closed close p ts) := by
  refine reads_advance ?_
  obtain ⟨c, ws, rfl, hc⟩ := Token.Kind.exists_cons_of_first hclose hfirst
  exact reads_pure ⟨[], [], c, ws, rfl, rfl, rfl, hc, hp⟩

/-- The expressions of a list. -/
lemma reads_list {close : Token.Kind} (hclose : close ≠ .eof)
    (hts : ts.length < bound) :
    Reads (t :: ts) (list expr close) (Closed close .list ts) := by
  refine reads_entering (reads_next fun t' ht' => ?_)
  split
  · next hkind => exact reads_closed hclose (ht'.symm.trans hkind) .noItems
  · refine reads_advance ((hexpr.reads_free hts).bind fun n vs hvs => ?_)
    have hle : vs.length ≤ ts.length := hvs.length_le
    refine (reads_repeated fun m hm => reads_rounds_list
      (D := fun ns ts => Derives (.moreItems ns) ts 0) .itemsEnd
      (fun s us hs hus => ?_) m (by omega : vs.length ≤ bound) hm).bind
      fun ns? ws hws => ?_
    · refine reads_advance ((hexpr.reads_free hus).map ?_)
      rintro n xs - ⟨us', k, hus', hk, hderives⟩
      refine ⟨n, us', rfl, hus', fun hxs ns ts' hns => ?_⟩
      obtain rfl : k = 0 := by
        by_contra hpos
        exact hxs (hk.mp (Nat.pos_of_ne_zero hpos))
      exact .item hs hderives hns
    -- the closing token was found, so neither the first item nor the others
    -- ended with the tokens
    · refine reads_expecting hclose fun c xs hxs hc => reads_pure ?_
      rintro ⟨ns, us, rfl, htail, hns⟩ hn
      have hend : ws ≠ [] := by
        rintro rfl
        cases hxs
      obtain ⟨us', hts', hderives⟩ := hn.whole (by
        rintro rfl
        exact hend (List.suffix_nil.mp hws))
      refine ⟨n :: ns, us' ++ us, c, xs, rfl, ?_, rfl, hc,
        .items hderives (hns hend)⟩
      rw [hts', htail, hxs, List.append_assoc]

omit hexpr in
/-- The parameters of a function. -/
lemma reads_parameters :
    Reads (t :: ts) parameters (Closed .rparen .params ts) := by
  refine reads_entering (reads_next fun t' ht' => ?_)
  split
  · next hkind =>
    exact reads_closed (by decide) (ht'.symm.trans hkind) .noParams
  · refine reads_expecting (by decide) fun u us hus hu => reads_current_cons ?_
    refine (reads_repeated fun m hm => reads_rounds_list
      (D := fun ns ts => Derives (.moreParams ns) ts 0) .paramsEnd
      (fun s vs hs _ => ?_) m (Nat.le_refl _) hm).bind fun ns? ws hws => ?_
    · refine reads_expecting (by decide) fun p xs hxs hp =>
        reads_current_cons (reads_pure ?_)
      exact ⟨_, [p], rfl, hxs, fun _ ns ts' hns => .param hs hp hns⟩
    · cases ns? with
      | none => exact reads_pure fun ⟨_, _, h, _⟩ => nomatch h
      | some ns =>
          refine reads_expecting (by decide) fun c xs hxs hc => reads_pure ?_
          rintro ⟨_, ps, ⟨⟩, htail, hns⟩
          have hend : ws ≠ [] := by
            rintro rfl
            cases hxs
          refine ⟨.ident u :: ns, u :: ps, c, xs, rfl, ?_, rfl, hc,
            .params hu (hns hend)⟩
          have hts : ts = u :: us := hus
          have hus' : us = ps ++ ws.tail := htail
          rw [hts, hus', hxs, List.cons_append]

/-! ### Statements and blocks -/

/-- A value and the semicolon that may stand behind it, as the end of a
statement that starts with the tokens `before`. -/
lemma reads_value {A : Type} (answer : Node → A) (make : Node → Node)
    (before us : List Token) (hus : us.length < bound)
    (hmake : ∀ v vs ws k, vs <+: us → Derives (.expression .free v) vs k →
      Closing k ws → Derives (.statement (make v)) (before ++ (vs ++ ws)) k) :
    Reads us (do
        let value ← expr lowest
        skip .semicolon
        return answer value)
      fun a vs => ∃ v, a = answer v ∧
        (Phrase.statement (make v)).Spans (before ++ us) vs := by
  refine (hexpr.reads_free hus).bind fun v vs hvs => reads_skip ?_ ?_
  · intro hsemicolon
    refine reads_pure fun hv => ⟨v, rfl, ?_⟩
    obtain ⟨s, ws, htail, hs⟩ :=
      Token.Kind.exists_cons_of_first (by decide) hsemicolon
    obtain ⟨ts, hts, hderives⟩ := hv.before htail
    rw [htail]
    refine Phrase.spans_closed (hmake v ts [s] 0 ⟨_, hts.symm⟩ hderives
      (.semicolon hs)) ?_
    rw [hts]
    simp
  · intro _
    refine reads_pure ?_
    rintro ⟨ts, k, hts, hk, hv⟩
    refine ⟨v, rfl, before ++ (ts ++ []), k, ?_, hk,
      hmake v ts [] k ⟨_, hts.symm⟩ hv (.bare k)⟩
    rw [hts, List.append_nil, List.append_assoc]

lemma reads_letStatement (ht : t.kind = .letKey) (hts : ts.length < bound) :
    Reads (t :: ts) (letStatement expr) fun n? vs => ∃ n, n? = some n ∧
      (Phrase.statement n).Spans (t :: ts) vs := by
  refine reads_entering (reads_current_cons ?_)
  refine reads_expecting (by decide) fun name us hus hname =>
    reads_current_cons (reads_expecting (by decide) fun q vs hvs hq =>
      reads_advance ?_)
  obtain rfl : ts = name :: us := hus
  obtain rfl : us = q :: vs := hvs
  simp only [List.length_cons] at hts
  refine (hexpr.reads_value (fun v => some (Node.letStmt t name v))
    (Node.letStmt t name) [t, name, q] vs (by omega)
    fun v us ws k _ hv hws => ?_).mono ?_
  · show Derives _ (t :: name :: q :: (us ++ ws)) k
    exact .letStmt ht hname hq hv hws
  · rintro _ ws - ⟨v, rfl, hspans⟩
    exact ⟨_, rfl, hspans⟩

lemma reads_returnStatement (ht : t.kind = .returnKey)
    (hts : ts.length < bound) :
    Reads (t :: ts) (returnStatement expr) fun n vs =>
      (Phrase.statement n).Spans (t :: ts) vs := by
  refine reads_entering (reads_current_cons (reads_advance ?_))
  refine (hexpr.reads_value (Node.returnStmt t) (Node.returnStmt t) [t] ts hts
    fun v us ws k _ hv hws => ?_).mono ?_
  · show Derives _ (t :: (us ++ ws)) k
    exact .returnStmt ht hv hws
  · rintro _ ws - ⟨v, rfl, hspans⟩
    exact hspans

lemma reads_expressionStatement (hts : (t :: ts).length < bound) :
    Reads (t :: ts) (expressionStatement expr) fun n vs =>
      (Phrase.statement n).Spans (t :: ts) vs := by
  refine reads_entering (reads_current_cons ?_)
  refine (hexpr.reads_value (Node.exprStmt t) (Node.exprStmt t) [] (t :: ts) hts
    fun v us ws k hus hv hws => ?_).mono ?_
  · obtain _ | ⟨u, us⟩ := us
    · exact absurd rfl (hv.ne_nil_of_expression trivial)
    · obtain ⟨rfl, -⟩ := List.cons_prefix_cons.mp hus
      exact .exprStmt hv hws
  · rintro _ ws - ⟨v, rfl, hspans⟩
    exact hspans

lemma reads_statement (hts : (t :: ts).length < bound) :
    Reads (t :: ts) (statement expr) fun n? vs => ∃ n, n? = some n ∧
      (Phrase.statement n).Spans (t :: ts) vs := by
  have htail : ts.length < bound := by
    rw [List.length_cons] at hts
    omega
  refine reads_entering (reads_current_cons ?_)
  split
  · next ht => exact hexpr.reads_letStatement ht htail
  · next ht =>
    exact (hexpr.reads_returnStatement ht htail).map
      fun n vs _ hn => ⟨n, rfl, hn⟩
  · exact (hexpr.reads_expressionStatement hts).map
      fun n vs _ hn => ⟨n, rfl, hn⟩

/-- The statements up to a token that ends them. -/
lemma reads_rounds_statements {stop : Token.Kind → Bool}
    (hstop : stop .eof = true) (m : ℕ) {us : List Token}
    (hus : us.length < bound) (hm : us.length < m) :
    Reads us (rounds (statementRound expr stop) m) fun found vs =>
      ∃ ns ts k, found = some (ns.map some) ∧ us = ts ++ vs ∧
        (0 < k → vs = []) ∧ stop (Token.Kind.first vs) = true ∧
        Derives (.statements ns) ts k := by
  -- the induction is on the rounds, of which there are more than tokens; `k`
  -- blocks were still open when these ended
  induction m generalizing us with
  | zero => omega
  | succ m ih =>
      rw [rounds, statementRound, bind_assoc]
      refine reads_current fun e he => ?_
      have hkind : (us.headD e).kind = Token.Kind.first us := by
        cases us with
        | nil => exact he
        | cons t ts => rfl
      split
      · next hends =>
        rw [hkind] at hends
        rw [pure_bind]
        exact reads_pure ⟨[], [], 0, rfl, rfl, fun h => absurd h (by decide),
          hends, .noStatements⟩
      · next hgoes =>
        obtain _ | ⟨t, ts⟩ := us
        · exact absurd (hkind ▸ hstop) hgoes
        simp only [bind_assoc]
        refine (hexpr.reads_statement hus).bind fun n? vs hvs => ?_
        have hle := hvs.length_le
        refine reads_advance ?_
        rw [List.length_cons] at hle hus hm
        have hlt : vs.tail.length < ts.length + 1 := by
          rw [List.length_tail]
          omega
        rw [pure_bind]
        refine (ih (by omega) (by omega)).map ?_
        rintro _ ws hws ⟨ns, us', k, rfl, htail, hk, hends, hns⟩
          ⟨n, rfl, ts', j, hts, hj, hn⟩
        -- a statement that has blocks open is the last one, and nothing is left
        have hopen : 0 < j → us' = [] ∧ ws = [] := by
          intro hpos
          rw [hj.mp hpos] at htail
          exact List.append_eq_nil_iff.mp htail.symm
        obtain ⟨i, hderives, hi⟩ := hn.append_statement
          (fun hpos => (hopen hpos).1) hns
        refine ⟨n :: ns, ts' ++ us', i, rfl, ?_, fun hpos => ?_, hends,
          hderives⟩
        · rw [hts, htail, List.append_assoc]
        · exact (hi hpos).elim (fun h => (hopen h).2) hk

/-- The statements of a block or a program. -/
lemma reads_statements {stop : Token.Kind → Bool} (hstop : stop .eof = true)
    {us : List Token} (hus : us.length < bound) :
    Reads us (statements expr stop) fun ns vs => ∃ ts k, us = ts ++ vs ∧
      (0 < k → vs = []) ∧ stop (Token.Kind.first vs) = true ∧
      Derives (.statements ns) ts k := by
  refine (reads_repeated fun m hm =>
    hexpr.reads_rounds_statements hstop m hus hm).map ?_
  rintro _ vs - ⟨ns, ts, k, rfl, h⟩
  have hfound : (Option.getD (some (ns.map some)) []).filterMap id = ns := by
    simp
  rw [hfound]
  exact ⟨ts, k, h⟩

/-- A block from its opening brace on. -/
lemma reads_block (ht : t.kind = .lbrace) (hts : ts.length < bound) :
    Reads (t :: ts) (block expr) fun n vs =>
      (Phrase.block n).Spans (t :: ts) vs := by
  refine reads_entering (reads_current_cons (reads_advance ?_))
  refine Reads.of_kind_ne_eof fun hends =>
    (hexpr.reads_statements rfl hts).map ?_
  rintro ns vs hvs ⟨us, k, hus, hk, hstop, hns⟩
  have hkind : Token.Kind.first vs = .rbrace ∨ Token.Kind.first vs = .eof := by
    revert hstop
    cases Token.Kind.first vs <;> decide
  have hts' : ts = us ++ vs := hus
  -- the block ends at its brace, and then none of its statements has a block
  -- open, or with the tokens, which leaves one block more open than its
  -- statements do
  rcases hkind with hkind | hkind
  · obtain ⟨c, ws, rfl, hc⟩ :=
      Token.Kind.exists_cons_of_first (by decide) hkind
    obtain rfl : k = 0 := by
      by_contra hpos
      cases hk (Nat.pos_of_ne_zero hpos)
    refine Phrase.spans_closed (.block ht hc hns) ?_
    rw [hts']
    simp
  · obtain rfl := Token.Kind.eq_nil_of_first
      (fun t ht => hends t (hvs.subset ht)) hkind
    refine ⟨t :: us, k + 1, ?_, ⟨fun _ => rfl, fun _ => Nat.succ_pos k⟩,
      .openBlock ht hns⟩
    rw [hts']
    rfl

/-! ### Hashes -/

/-- One entry of a hash and the comma behind it, from the key on. -/
def entry (expr : ℕ → Parse Node) : Parse (Round (Node × Node)) := do
  let key ← expr lowest
  expecting .colon .broken do
    advance
    let value ← expr lowest
    if (← next).kind = .rbrace then return .item (key, value)
    else
      expecting .comma .broken do
        return .item (key, value)

/-- An entry may be the last one, and others may follow unless the closing
brace does. -/
lemma reads_entry (hts : ts.length < bound) :
    Reads ts (entry expr) fun found vs => ∃ k v us, found = .item (k, v) ∧
      ts = us ++ vs.tail ∧ Derives (.entries [(k, v)]) us 0 ∧
      (Token.Kind.first vs.tail ≠ .rbrace → ∀ ps us',
        Derives (.entries ps) us' 0 →
        Derives (.entries ((k, v) :: ps)) (us ++ us') 0) := by
  refine (hexpr.reads_free hts).bind fun k vs hvs => ?_
  refine reads_expecting (by decide) fun s ws hws hs => reads_advance ?_
  have hwsBound : ws.length < bound := by
    have hle := Token.length_add_two_le hvs hws
    omega
  refine (hexpr.reads_free hwsBound).bind fun v xs hxs => ?_
  refine reads_next fun t ht => ?_
  -- either the brace follows and this entry was the last one, or a comma does
  split
  · next hbrace =>
    rw [hbrace] at ht
    refine reads_pure fun hv hk => ?_
    have hend : xs ≠ [] := by
      rintro rfl
      cases ht
    obtain ⟨us₁, hus₁, hkey⟩ := hk.before hws
    obtain ⟨us₂, hus₂, hvalue⟩ := hv.whole hend
    refine ⟨k, v, us₁ ++ s :: us₂, rfl, ?_, .lastEntry hs hkey hvalue,
      fun hne => absurd ht.symm hne⟩
    have hws' : ws = us₂ ++ xs.tail := hus₂
    rw [hus₁, hws']
    simp
  · refine reads_expecting (by decide) fun m ys hys hm =>
      reads_pure fun hv hk => ?_
    obtain ⟨us₁, hus₁, hkey⟩ := hk.before hws
    obtain ⟨us₂, hus₂, hvalue⟩ := hv.before hys
    have hws' : ws = us₂ ++ m :: ys := hus₂
    have hadd : ∀ ps us', Derives (.entries ps) us' 0 →
        Derives (.entries ((k, v) :: ps))
          (us₁ ++ s :: (us₂ ++ [m]) ++ us') 0 := by
      intro ps us' hps
      rw [List.append_assoc, List.cons_append, List.append_assoc]
      exact .entry hs hm hkey hvalue hps
    refine ⟨k, v, us₁ ++ s :: (us₂ ++ [m]), rfl, ?_, ?_, fun _ => hadd⟩
    · rw [hus₁, hws']
      simp
    · have hlast := hadd [] [] .noEntries
      rwa [List.append_nil] at hlast

omit hexpr in
lemma hashRound_eq (expr : ℕ → Parse Node) :
    hashRound expr = (do
      if (← next).kind = .rbrace then return .done
      else
        advance
        entry expr) := rfl

omit hexpr in
/-- Before the closing brace there is no further entry. -/
lemma reads_rounds_hash_done {us : List Token} {m : ℕ} (hm : 0 < m)
    (hus : Token.Kind.first us.tail = .rbrace) :
    Reads us (rounds (hashRound expr) m) fun ps? vs =>
      ps? = some [] ∧ vs = us := by
  obtain ⟨m, rfl⟩ : ∃ j, m = j + 1 := ⟨m - 1, by omega⟩
  rw [rounds, hashRound_eq, bind_assoc]
  refine reads_next fun t ht => ?_
  rw [if_pos (ht.trans hus), pure_bind]
  exact reads_pure ⟨rfl, rfl⟩

/-- Where the stream ends a hash has no entry and no closing brace. -/
lemma reads_rounds_hash_nil {m : ℕ} (hm : 0 < m) (hbound : 0 < bound)
    {Q : Option (List (Node × Node)) → List Token → Prop} :
    Reads [] (rounds (hashRound expr) m) Q := by
  obtain ⟨m, rfl⟩ : ∃ j, m = j + 1 := ⟨m - 1, by omega⟩
  rw [rounds, hashRound_eq, bind_assoc]
  refine reads_next fun t ht => ?_
  rw [if_neg (by rw [ht]; decide), bind_assoc]
  refine reads_advance ?_
  rw [entry, bind_assoc]
  have hnil : ([] : List Token).length < bound := hbound
  refine (hexpr.reads_free hnil).bind fun k vs hvs => ?_
  obtain rfl := List.suffix_nil.mp hvs
  exact reads_expecting_bind (by decide) nofun (reads_pure trivial)

/-- The entries of a hash, up to the closing brace. -/
lemma reads_rounds_hash (m : ℕ) {us : List Token} (hbound : 0 < bound)
    (hus : us.length ≤ bound) (hm : us.length < m) :
    Reads us (rounds (hashRound expr) m) fun ps? vs => ∃ ps ts,
      ps? = some ps ∧ us.tail = ts ++ vs.tail ∧ Derives (.entries ps) ts 0 := by
  -- the induction is on the rounds, of which there are more than tokens
  induction m generalizing us with
  | zero => omega
  | succ m ih =>
      obtain _ | ⟨t, ts⟩ := us
      · exact hexpr.reads_rounds_hash_nil (Nat.succ_pos m) hbound
      rw [rounds, hashRound_eq, bind_assoc]
      rw [List.length_cons] at hus hm
      refine reads_next fun t ht => ?_
      split
      · rw [pure_bind]
        exact reads_pure ⟨[], [], rfl, rfl, .noEntries⟩
      · rw [bind_assoc]
        have hts : ts.length < bound := by omega
        refine reads_advance ((hexpr.reads_entry hts).bind
          fun found vs hvs => ?_)
        have hle : vs.length ≤ ts.length := hvs.length_le
        cases found with
        | item p =>
            -- where the brace follows the entry has no comma behind it, and the
            -- next round is the last one
            by_cases hbrace : Token.Kind.first vs.tail = .rbrace
            · refine (reads_rounds_hash_done (by omega) hbrace).map ?_
              rintro _ xs - ⟨rfl, rfl⟩ ⟨k, v, us, ⟨⟩, hus, hlast, -⟩
              exact ⟨[(k, v)], us, rfl, hus, hlast⟩
            · refine (ih (by omega) (by omega)).map ?_
              rintro _ xs - ⟨ps, us', rfl, htail, hps⟩
                ⟨k, v, us, ⟨⟩, hus, -, hadd⟩
              refine ⟨(k, v) :: ps, us ++ us', rfl, ?_, hadd hbrace ps us' hps⟩
              have hus' : ts = us ++ vs.tail := hus
              rw [List.tail_cons, hus', htail, List.append_assoc]
        | done => exact reads_pure fun ⟨_, _, _, h, _⟩ => nomatch h
        | broken => exact reads_pure fun ⟨_, _, _, h, _⟩ => nomatch h

end Sound

end Grammar

end MonkeyLang

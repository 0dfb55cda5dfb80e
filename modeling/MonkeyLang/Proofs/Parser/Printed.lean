/-
Trees that are read back from their texts.

* `Node.Plain`: trees of names, integers, truth values, operators, indices,
  calls, arrays and hashes;
* `Complete.of_within`: what lies within a complete tree is complete, unless it
  is missing; `mem_tokens_of_within`: and it has no other tokens;
* `readBack_prefixOp` and the lemmas around it: one for each kind of node;
* `Plain.readBack`: the text of such a tree is read as the tree, wherever it
  stands;
* `Parser.ofSource_text`: so the parser gives back all such trees that it finds
  in texts without faults.
-/
import MonkeyLang.Proofs.Parser.Completeness
import MonkeyLang.Proofs.Parser.Faultless
import MonkeyLang.Proofs.Parser.Places
import MonkeyLang.Proofs.Parser.Printing
import MonkeyLang.Proofs.Token.Reread

namespace MonkeyLang

open Grammar (Same)
open List (Forall₂)

namespace Node

/-! ### Parts of trees -/

/-- The kinds of expressions without strings, statements and parameters. -/
def Kind.isPlain : Kind → Bool
  | ident | intLit | boolLit | prefixOp | infixOp | call | array | index
  | hash => true
  | _ => false

/-- Trees of names, integers, truth values, operators, indices, calls, arrays
and hashes. -/
inductive Plain : Node → Prop where
  | node {n : Node} (hn : n.kind.isPlain = true)
      (hchildren : ∀ m ∈ n.children, Plain m) : Plain n

lemma tokensList_eq_flatMap (ns : List Node) :
    tokensList ns = ns.flatMap tokens := by
  induction ns with
  | nil => rfl
  | cons n ns ih => rw [tokensList, ih, List.flatMap_cons]

lemma tokensPairs_eq_flatMap (ps : List (Node × Node)) :
    tokensPairs ps = (ps.flatMap fun p => [p.1, p.2]).flatMap tokens := by
  induction ps with
  | nil => rfl
  | cons p ps ih =>
      obtain ⟨k, v⟩ := p
      rw [tokensPairs, ih, List.flatMap_cons]
      rfl

/-- The tokens of a child are among those of its node. -/
lemma mem_tokens_of_child {n m : Node} {u : Token} (hm : m ∈ n.children)
    (hu : u ∈ m.tokens) : u ∈ n.tokens := by
  have hlist {ns : List Node} (hm : m ∈ ns) : u ∈ tokensList ns := by
    rw [tokensList_eq_flatMap]
    exact List.mem_flatMap.mpr ⟨m, hm, hu⟩
  have hone {n : Node} (hm : m ∈ [n]) : u ∈ n.tokens :=
    List.mem_singleton.mp hm ▸ hu
  -- where a child stands among the tokens is told by the node; only lists have
  -- it in a place that is not known
  cases n with
  | program ss => exact hlist hm
  | block t ss | array t ss => exact List.mem_cons_of_mem _ (hlist hm)
  | letStmt t name v =>
      exact List.mem_cons_of_mem _ (List.mem_cons_of_mem _ (hone hm))
  | returnStmt t v | prefixOp t v => exact List.mem_cons_of_mem _ (hone hm)
  | exprStmt t v => exact hone (n := v) hm
  | infixOp t l r | index t l r =>
      rw [tokens, List.mem_append]
      rcases List.mem_cons.mp hm with rfl | hm
      · exact Or.inl hu
      · exact Or.inr (List.mem_cons_of_mem _ (hone hm))
  | conditional t c a b =>
      rw [tokens, List.mem_cons, List.mem_append, List.mem_append]
      rcases List.mem_cons.mp hm with rfl | hm
      · exact Or.inr (Or.inl hu)
      rcases List.mem_cons.mp hm with rfl | hm
      · exact Or.inr (Or.inr (Or.inl hu))
      · exact Or.inr (Or.inr (Or.inr (hone hm)))
  | function t ps b | macroFn t ps b =>
      rw [tokens, List.mem_cons, List.mem_append]
      rcases List.mem_append.mp hm with hm | hm
      · exact Or.inr (Or.inl (hlist hm))
      · exact Or.inr (Or.inr (hone hm))
  | call t c as =>
      rw [tokens, List.mem_append]
      rcases List.mem_cons.mp hm with rfl | hm
      · exact Or.inl hu
      · exact Or.inr (List.mem_cons_of_mem _ (hlist hm))
  | hash t ps =>
      refine List.mem_cons_of_mem _ ?_
      rw [tokensPairs_eq_flatMap, ← tokensList_eq_flatMap]
      exact hlist hm
  | missing | ident | intLit | boolLit | strLit => cases hm

/-- What lies within a tree has no other tokens. -/
lemma mem_tokens_of_within {n m : Node} {u : Token} (hm : n.Within m)
    (hu : u ∈ m.tokens) : u ∈ n.tokens := by
  induction hm with
  | refl => exact hu
  | tail _ hchild ih => exact ih (mem_tokens_of_child hchild hu)

/-- The children of a complete tree are complete, but for an alternative that is
missing. -/
lemma Complete.of_child {role : Role} {n m : Node} (h : Complete role n)
    (hm : m ∈ n.children) : m = missing ∨ ∃ role', Complete role' m := by
  have hparam {ps : List Node} (hps : ∀ p ∈ ps, p.IsParam) (hm : m ∈ ps) :
      Complete .expression m := by
    obtain ⟨t, rfl, ht⟩ := hps m hm
    exact .ident ht
  -- nothing is missing but the alternative of an `if` without `else`
  cases h with
  | ident | intLit | trueLit | falseLit | strLit => cases hm
  | prefixOp _ hr => exact Or.inr ⟨_, List.mem_singleton.mp hm ▸ hr⟩
  | infixOp _ hl hr | index _ hl hr =>
      rcases List.mem_cons.mp hm with rfl | hm
      · exact Or.inr ⟨_, hl⟩
      · exact Or.inr ⟨_, List.mem_singleton.mp hm ▸ hr⟩
  | ifThen _ hc ha =>
      rcases List.mem_cons.mp hm with rfl | hm
      · exact Or.inr ⟨_, hc⟩
      rcases List.mem_cons.mp hm with rfl | hm
      · exact Or.inr ⟨_, ha⟩
      · exact Or.inl (List.mem_singleton.mp hm)
  | ifThenElse _ hc ha hb =>
      rcases List.mem_cons.mp hm with rfl | hm
      · exact Or.inr ⟨_, hc⟩
      rcases List.mem_cons.mp hm with rfl | hm
      · exact Or.inr ⟨_, ha⟩
      · exact Or.inr ⟨_, List.mem_singleton.mp hm ▸ hb⟩
  | function _ hps hb | macroFn _ hps hb =>
      rcases List.mem_append.mp hm with hm | hm
      · exact Or.inr ⟨_, hparam hps hm⟩
      · exact Or.inr ⟨_, List.mem_singleton.mp hm ▸ hb⟩
  | call _ hc has =>
      rcases List.mem_cons.mp hm with rfl | hm
      · exact Or.inr ⟨_, hc⟩
      · exact Or.inr ⟨_, has m hm⟩
  | array _ hes => exact Or.inr ⟨_, hes m hm⟩
  | hash _ hks hvs =>
      obtain ⟨p, hp, hm⟩ := List.mem_flatMap.mp hm
      rcases List.mem_cons.mp hm with rfl | hm
      · exact Or.inr ⟨_, hks p hp⟩
      · exact Or.inr ⟨_, List.mem_singleton.mp hm ▸ hvs p hp⟩
  | letStmt _ _ hv | returnStmt _ hv | exprStmt hv =>
      exact Or.inr ⟨_, List.mem_singleton.mp hm ▸ hv⟩
  | block _ hss | program hss => exact Or.inr ⟨_, hss m hm⟩

/-- What lies within a complete tree is complete, unless it is missing. -/
lemma Complete.of_within {role : Role} {n m : Node} (h : Complete role n)
    (hm : n.Within m) : m = missing ∨ ∃ role', Complete role' m := by
  induction hm with
  | refl => exact Or.inr ⟨role, h⟩
  | tail _ hchild ih =>
      rcases ih with rfl | ⟨role', h'⟩
      · cases hchild
      · exact h'.of_child hchild

/-- A plain tree within a complete one is a complete expression. -/
lemma Plain.complete {role : Role} {n m : Node} (hm : m.Plain)
    (h : Complete role n) (hwithin : n.Within m) :
    Complete .expression m := by
  obtain ⟨hkind, -⟩ := hm
  rcases h.of_within hwithin with rfl | ⟨role', h'⟩
  · cases hkind
  · have hrole : role' = .expression := by
      cases h' <;> first | rfl | cases hkind
    rwa [hrole] at h'

end Node

namespace Piece

/-- What is read as an expression starts with no equals sign. -/
lemma head?_ne_of_starts {cs : List Char} {u : Token} {us : List Token}
    (hscan : scan p cs = u :: us) (hu : u.kind.startsExpression = true) :
    cs.head? ≠ some '=' := by
  intro hcs
  obtain ⟨ds, rfl⟩ := List.head?_eq_some_iff.mp hcs
  have hsign : ∃ kind rest, first '=' ds = (operator kind, rest) ∧
      kind.startsExpression = false := by
    rcases ds with _ | ⟨d, ds⟩
    · exact ⟨_, _, rfl, rfl⟩
    · by_cases hd : d = '='
      · subst hd
        exact ⟨_, _, rfl, rfl⟩
      · have hoperator : operator? '=' (d :: ds) = some (.assign, d :: ds) :=
          operator?_symbol fun es hes => absurd (List.cons.inj hes).1 hd
        exact ⟨.assign, d :: ds,
          (First.operator (fun h => absurd h.1 (by decide)) hoperator).eq, rfl⟩
  obtain ⟨kind, rest, hfirst, hkind⟩ := hsign
  rw [scan_cons hfirst] at hscan
  obtain ⟨rfl, -⟩ := List.cons.inj hscan
  rw [hkind] at hu
  cases hu

end Piece

namespace Node

open Piece

/-! ### Texts of nodes -/

/-- The text of a tree is read as a tree that is equal without places, wherever
it stands. -/
abbrev ReadBack (n : Node) : Prop := Printed .applied text Same n

variable {t : Token}

lemma ReadBack.free {n : Node} (h : n.ReadBack) :
    Printed .free text Same n := by
  intro p rest hrest
  obtain ⟨ts, m, hscan, hw, hm⟩ := h p rest hrest
  exact ⟨ts, m, hscan, hw.of_applied _, hm⟩

/-- A name or a truth value. -/
lemma readBack_word {f : Token → Node} (ht : t.Drawn)
    (hkind : t.kind.isWord = true) (htext : (f t).text = t.text)
    (hsame : ∀ u, u.bare = t.bare → Same (f u) (f t))
    (hw : ∀ u, u.kind = t.kind → Writes (.expression .applied (f u)) [u]) :
    (f t).ReadBack := by
  intro p rest hrest
  rw [htext]
  exact ⟨[⟨t.kind, t.text, p⟩], f ⟨t.kind, t.text, p⟩,
    ht.scan_word hkind p hrest, hw _ rfl, hsame _ rfl⟩

/-- The literal of a number. -/
lemma readBack_intLit {n : ℕ} (ht : t.kind = .int)
    (hn : Numeral.Spells t.text n) (hmax : (n : Int) ≤ maxInteger) :
    (intLit t n).ReadBack := by
  intro p rest hrest
  obtain ⟨hne, hdigits⟩ := hn.isDigit
  have hscan := scan_digits (p := p) hne hdigits hrest
  rw [String.ofList_toList] at hscan
  refine ⟨[⟨.int, t.text, p⟩], intLit ⟨.int, t.text, p⟩ n, hscan,
    .plain id (.intLit rfl hn hmax), ?_⟩
  rw [Same, bare, bare, Token.bare, Token.bare, ht]

/-- An operator before its operand. -/
lemma readBack_prefixOp {r : Node} (ht : t.kind.isPrefix = true)
    (htext : t.text = t.kind.label) (hr : r.ReadBack) :
    (prefixOp t r).ReadBack := by
  intro p rest hrest
  let sign : Token := ⟨t.kind, t.kind.label, p.next '('⟩
  obtain ⟨ts, m, hscan, hw, hm⟩ := hr
    ((p.next '(').after t.kind.label.toList) (')' :: rest)
    (breaks_cons (by decide) (by decide))
  obtain ⟨u, us, rfl, hu⟩ := hw.starts
  have hsign : Scans (p.next '(') t.kind.label.toList
      (r.text.toList ++ ')' :: rest) [sign] :=
    scan_prefix ht _ (head?_ne_of_starts hscan hu)
  have hwhole : (prefixOp t r).text.toList =
      '(' :: ((t.kind.label.toList ++ r.text.toList) ++ [')']) := by
    simp [text, htext]
  rw [hwhole]
  refine ⟨_, prefixOp sign m, scans_enclosed rfl rfl (by decide) (by decide)
    (hsign.append hscan),
    .group rfl rfl (.plain id (.prefixOp ht (hw.of_applied _))), ?_⟩
  rw [Same, bare, bare, hm, Token.bare, Token.bare, htext]

/-- An operator between its operands. -/
lemma readBack_infixOp {l r : Node} (ht : t.kind.isInfix = true)
    (htext : t.text = t.kind.label) (hl : l.ReadBack) (hr : r.ReadBack) :
    (infixOp t l r).ReadBack := by
  intro p rest hrest
  let q := ((p.next '(').after l.text.toList).next ' '
  let sign : Token := ⟨t.kind, t.kind.label, q⟩
  -- the left operand ends before a blank and the right one before the
  -- parenthesis, so neither runs into what follows
  obtain ⟨ts, m, hscan, hw, hm⟩ := hl (p.next '(')
    (' ' :: (t.kind.label.toList ++ ' ' :: r.text.toList) ++ ')' :: rest)
    (breaks_cons (by decide) (by decide))
  obtain ⟨us, n, hscan', hw', hn⟩ := hr
    ((q.after t.kind.label.toList).next ' ') (')' :: rest)
    (breaks_cons (by decide) (by decide))
  have hright : Scans (q.after t.kind.label.toList) (' ' :: r.text.toList)
      (')' :: rest) us := scans_blank.append hscan'
  have hsign : Scans q t.kind.label.toList
      (' ' :: r.text.toList ++ ')' :: rest) [sign] := scan_infix ht _ _
  have hbehind : Scans ((p.next '(').after l.text.toList)
      (' ' :: (t.kind.label.toList ++ ' ' :: r.text.toList)) (')' :: rest)
      (sign :: us) := scans_blank.append (hsign.append hright)
  -- parentheses stand around the whole, so it may be read in any place
  have hwhole : (infixOp t l r).text.toList = '(' :: ((l.text.toList ++
      ' ' :: (t.kind.label.toList ++ ' ' :: r.text.toList)) ++ [')']) := by
    simp [text, htext]
  rw [hwhole]
  refine ⟨_, infixOp sign m n, scans_enclosed rfl rfl (by decide) (by decide)
    (hscan.append hbehind), .group rfl rfl (.plain id (.infixOp ht
      (hw.of_applied _) (hw'.of_applied _))), ?_⟩
  rw [Same, bare, bare, hm, hn, Token.bare, Token.bare, htext]

/-- An index. -/
lemma readBack_index {l i : Node} (ht : t.bare = .made .lbracket "[")
    (hl : l.ReadBack) (hi : i.ReadBack) : (index t l i).ReadBack := by
  intro p rest hrest
  let q := (p.next '(').after l.text.toList
  obtain ⟨ts, m, hscan, hw, hm⟩ := hl (p.next '(')
    ('[' :: (i.text.toList ++ [']']) ++ ')' :: rest)
    (breaks_cons (by decide) (by decide))
  obtain ⟨us, n, hscan', hw', hn⟩ := hi (q.next '[') (']' :: ')' :: rest)
    (breaks_cons (by decide) (by decide))
  have hindex : Scans q ('[' :: (i.text.toList ++ [']'])) (')' :: rest) _ :=
    scans_enclosed rfl rfl (by decide) (by decide) hscan'
  have hwhole : (index t l i).text.toList = '(' ::
      ((l.text.toList ++ '[' :: (i.text.toList ++ [']'])) ++ [')']) := by
    simp [text]
  rw [hwhole]
  refine ⟨_, index ⟨.lbracket, "[", q⟩ m n, scans_enclosed rfl rfl (by decide)
    (by decide) (hscan.append hindex), .group rfl rfl (.plain id
      (.index rfl rfl hw (hw'.of_applied _))), ?_⟩
  rw [Same, bare, bare, hm, hn, ht]
  rfl

/-- A call. -/
lemma readBack_call {c : Node} {as : List Node}
    (ht : t.bare = .made .lparen "(") (hc : c.ReadBack)
    (has : ∀ a ∈ as, a.ReadBack) : (call t c as).ReadBack := by
  intro p rest hrest
  let q := p.after c.text.toList
  let list := (String.intercalate ", " (as.map text)).toList
  obtain ⟨ts, m, hscan, hw, hm⟩ := hc p ('(' :: (list ++ [')']) ++ rest)
    (breaks_cons (by decide) (by decide))
  obtain ⟨us, ns, hscan', hws, hns⟩ := printed_items
    (fun a ha => (has a ha).free) (q.next '(')
    (breaks_cons (c := ')') (by decide) (by decide))
  have hlist : Scans q ('(' :: (list ++ [')'])) rest _ :=
    scans_enclosed rfl rfl (by decide) (by decide) hscan'
  have hwhole : (call t c as).text.toList =
      c.text.toList ++ '(' :: (list ++ [')']) := by
    simp [text, texts_eq_map, list]
  rw [hwhole]
  refine ⟨_, call ⟨.lparen, "(", q⟩ m ns, hscan.append hlist,
    .plain id (.call rfl rfl hw hws), ?_⟩
  rw [Same, bare, bare, hm, Grammar.same_lists hns, ht]
  rfl

/-- An array. -/
lemma readBack_array {es : List Node} (ht : t.bare = .made .lbracket "[")
    (hes : ∀ e ∈ es, e.ReadBack) : (array t es).ReadBack := by
  intro p rest hrest
  obtain ⟨us, ns, hscan, hws, hns⟩ := printed_items
    (fun e he => (hes e he).free) (p.next '[')
    (breaks_cons (c := ']') (by decide) (by decide))
  have hwhole : (array t es).text.toList = '[' ::
      ((String.intercalate ", " (es.map text)).toList ++ [']']) := by
    simp [text, texts_eq_map]
  rw [hwhole]
  refine ⟨_, array ⟨.lbracket, "[", p⟩ ns, scans_enclosed rfl rfl (by decide)
    (by decide) hscan, .plain id (.array rfl rfl hws), ?_⟩
  rw [Same, bare, bare, Grammar.same_lists hns, ht]
  rfl

/-- The text of an entry. -/
def entryText (p : Node × Node) : String := p.1.text ++ ":" ++ p.2.text

/-- The texts of the entries of a hash are taken one by one. -/
lemma pairTexts_eq_map (ps : List (Node × Node)) :
    pairTexts ps = ps.map entryText := by
  induction ps with
  | nil => rfl
  | cons p ps ih =>
      rw [pairTexts, ih]
      rfl

/-- A hash. -/
lemma readBack_hash {ps : List (Node × Node)}
    (ht : t.bare = .made .lbrace "\x7b") (hks : ∀ p ∈ ps, p.1.ReadBack)
    (hvs : ∀ p ∈ ps, p.2.ReadBack) : (hash t ps).ReadBack := by
  intro p rest hrest
  -- an entry is its key and its value, each read back where it stands, with a
  -- colon and no blank in between
  have hentries : ∀ q ∈ ps, PrintedEntry entryText
      (fun p q => (p.1.bare, p.2.bare) = (q.1.bare, q.2.bare)) q := by
    intro q hq
    have hgap : ∀ c ∈ ([] : List Char), isBlank c = true := nofun
    have htext : (entryText q).toList =
        q.1.text.toList ++ ':' :: ([] ++ q.2.text.toList) := by
      rw [entryText, String.toList_append, String.toList_append,
        List.append_assoc]
      rfl
    exact printedEntry_of_printed (hks q hq).free (hvs q hq).free hgap htext
      fun _ _ hm hn => congrArg₂ Prod.mk hm hn
  obtain ⟨us, qs, hscan, hws, hqs⟩ := printed_entries hentries (p.next '\x7b')
    (breaks_cons (c := '\x7d') (by decide) (by decide))
  have hwhole : (hash t ps).text.toList = '\x7b' ::
      ((String.intercalate ", " (ps.map entryText)).toList ++ ['\x7d']) := by
    simp [text, pairTexts_eq_map]
  rw [hwhole]
  refine ⟨_, hash ⟨.lbrace, "\x7b", p⟩ qs, scans_enclosed rfl rfl (by decide)
    (by decide) hscan, .plain id (.hash rfl rfl hws), ?_⟩
  rw [Same, bare, bare, barePairs_eq_map, barePairs_eq_map,
    forall₂_map_eq.mp hqs, ht]
  rfl

/-- **Trees are read back.**  The text of a plain tree is read as the tree,
places aside, wherever it stands, if nothing is missing in the tree and its
tokens are drawn from texts. -/
theorem Plain.readBack {n : Node} (h : n.Plain) (hn : Complete .expression n)
    (htokens : ∀ t ∈ n.tokens, t.Drawn) : n.ReadBack := by
  -- the induction is on the plain tree; that nothing is missing tells the kinds
  -- of its tokens, and that they are drawn from texts tells how these are
  -- spelled
  induction h with
  | node hkind hchildren ih =>
      rename_i n
      have hpart : ∀ m ∈ n.children, Complete .expression m → m.ReadBack :=
        fun m hm hcomplete => ih m hm hcomplete fun t ht =>
          htokens t (mem_tokens_of_child hm ht)
      cases hn with
      | ident ht =>
          exact readBack_word (htokens _ List.mem_cons_self)
            (by rw [ht]; rfl) rfl (fun u hu => congrArg ident hu)
            fun u hu => .plain id (.ident (hu.trans ht))
      | trueLit ht =>
          exact readBack_word (f := (boolLit · true))
            (htokens _ List.mem_cons_self) (by rw [ht]; rfl) rfl
            (fun u hu => congrArg (boolLit · true) hu)
            fun u hu => .plain id (.trueLit (hu.trans ht))
      | falseLit ht =>
          exact readBack_word (f := (boolLit · false))
            (htokens _ List.mem_cons_self) (by rw [ht]; rfl) rfl
            (fun u hu => congrArg (boolLit · false) hu)
            fun u hu => .plain id (.falseLit (hu.trans ht))
      | intLit ht hn hmax => exact readBack_intLit ht hn hmax
      | prefixOp ht hr =>
          have htext := (htokens _ List.mem_cons_self).text_eq
            (Token.Kind.isSymbol_of_isPrefix ht)
          exact readBack_prefixOp ht htext (hpart _ List.mem_cons_self hr)
      | infixOp ht hl hr =>
          have htext := (htokens _ (List.mem_append_right _
            List.mem_cons_self)).text_eq (Token.Kind.isSymbol_of_isInfix ht)
          exact readBack_infixOp ht htext (hpart _ List.mem_cons_self hl)
            (hpart _ (List.mem_cons_of_mem _ List.mem_cons_self) hr)
      | index ht hl hi =>
          have hbare := (htokens _ (List.mem_append_right _
            List.mem_cons_self)).bare_eq ht rfl
          exact readBack_index hbare (hpart _ List.mem_cons_self hl)
            (hpart _ (List.mem_cons_of_mem _ List.mem_cons_self) hi)
      | call ht hc has =>
          have hbare := (htokens _ (List.mem_append_right _
            List.mem_cons_self)).bare_eq ht rfl
          exact readBack_call hbare (hpart _ List.mem_cons_self hc)
            fun a ha => hpart a (List.mem_cons_of_mem _ ha) (has a ha)
      | array ht hes =>
          exact readBack_array ((htokens _ List.mem_cons_self).bare_eq ht rfl)
            fun e he => hpart e he (hes e he)
      | hash ht hks hvs =>
          refine readBack_hash ((htokens _ List.mem_cons_self).bare_eq ht rfl)
            (fun p hp => hpart _ (List.mem_flatMap.mpr ⟨p, hp, ?_⟩) (hks p hp))
            fun p hp => hpart _ (List.mem_flatMap.mpr ⟨p, hp, ?_⟩) (hvs p hp)
          · exact List.mem_cons_self
          · exact List.mem_cons_of_mem _ List.mem_cons_self
      -- these are not plain
      | strLit | ifThen | ifThenElse | function | macroFn => cases hkind

end Node

/-! ### Sources -/

/-- The tokens that stand between punctuation stand there. -/
lemma Punctuated.subset {ns ts : List Token} (h : Punctuated ns ts) :
    ns ⊆ ts := by
  induction h with
  | nil => exact List.Subset.refl _
  | keep t _ ih => exact List.cons_subset_cons t ih
  | pass _ _ ih => exact List.subset_cons_of_subset _ ih

/-- **Printing and parsing.**  Let a source text be without faults and let a
tree within its program consist of names, integers, truth values, operators,
indices, calls, arrays and hashes.  The text of the tree is without faults,
too, and the parser finds in it a single expression: the tree, places aside. -/
theorem Parser.ofSource_text {source : String} {tracing : Bool}
    (hclean : (Parser.ofSource source tracing).diagnostics = []) {n : Node}
    (hn : (Parser.ofSource source tracing).program.Within n) (hplain : n.Plain)
    (tracing' : Bool) :
    (Parser.ofSource n.text tracing').diagnostics = [] ∧
    ∃ t m, (Parser.ofSource n.text tracing').program =
        .program [.exprStmt t m] ∧
      m.bare = n.bare := by
  obtain ⟨ss, parts, hprogram, hcomplete, -⟩ := ofSource_complete hclean
  obtain ⟨ss', k, hprogram', -, htokens⟩ := ofTokens_derives hclean
  rw [Parser.ofSource] at hprogram
  obtain rfl := Node.program.inj (hprogram.symm.trans hprogram')
  rw [Parser.ofSource, hprogram] at hn
  have hdrawn : ∀ t ∈ n.tokens, t.Drawn := by
    intro t ht
    have hmem := htokens.subset (Node.mem_tokens_of_within hn ht)
    exact Token.drawn_of_mem_stream ((List.takeWhile_prefix _).subset hmem)
      (by simpa using List.mem_takeWhile_imp hmem)
  have hread := hplain.readBack (hplain.complete hcomplete hn) hdrawn
  obtain ⟨t, m, hm, hsource⟩ := hread.free.ofSource
  exact ⟨(hsource tracing').2, t, m, (hsource tracing').1, hm⟩

/-- The expression in `-a(b)[0];`. -/
def negatedMember : Node :=
  .prefixOp ⟨.minus, "-", ⟨0, 0⟩⟩ (.index ⟨.lbracket, "[", ⟨0, 5⟩⟩
    (.call ⟨.lparen, "(", ⟨0, 2⟩⟩ (.ident ⟨.ident, "a", ⟨0, 1⟩⟩)
      [.ident ⟨.ident, "b", ⟨0, 3⟩⟩])
    (.intLit ⟨.int, "0", ⟨0, 6⟩⟩ 0))

/-- It is printed as `(-(a(b)[0]))`. -/
theorem Parser.ofSource_text_negatedMember :
    (Parser.ofSource "-a(b)[0];" false).diagnostics = [] ∧
    (Parser.ofSource "-a(b)[0];" false).program.Within negatedMember ∧
    negatedMember.Plain ∧ negatedMember.text = "(-(a(b)[0]))" ∧
    (Parser.ofSource negatedMember.text false).diagnostics = [] ∧
    ∃ t m, (Parser.ofSource negatedMember.text false).program =
        .program [.exprStmt t m] ∧
      m.bare = negatedMember.bare := by
  have hclean : (Parser.ofSource "-a(b)[0];" false).diagnostics = [] := by
    decide +kernel
  have hprogram : (Parser.ofSource "-a(b)[0];" false).program =
      .program [.exprStmt ⟨.minus, "-", ⟨0, 0⟩⟩ negatedMember] := by
    rfl
  have hwithin : (Parser.ofSource "-a(b)[0];" false).program.Within
      negatedMember := by
    rw [hprogram]
    exact .head List.mem_cons_self (.single List.mem_cons_self)
  have hleaf : ∀ {n : Node}, n.kind.isPlain = true → n.children = [] →
      n.Plain := fun hkind hchildren => .node hkind (by rw [hchildren]; nofun)
  have hplain : negatedMember.Plain := by
    refine .node rfl (List.forall_mem_singleton.mpr (.node rfl ?_))
    refine List.forall_mem_cons.mpr ⟨.node rfl (List.forall_mem_cons.mpr
      ⟨hleaf rfl rfl, ?_⟩), List.forall_mem_singleton.mpr (hleaf rfl rfl)⟩
    exact List.forall_mem_singleton.mpr (hleaf rfl rfl)
  exact ⟨hclean, hwithin, hplain, by decide +kernel,
    Parser.ofSource_text hclean hwithin hplain false⟩

end MonkeyLang

/-
The order of function definitions.

* `FunctionDefinition`: a `let` of a function literal;
  `FunctionDefinition.made`: the closures that several of them make;
* `sequence_definitions`: they are bound in the frame, and nothing else is done;
* `Matching.ofNames`: closures that were made under the same name are matched,
  and `related_bound`: so the functions are the same;
* `Reordered.define`: so definitions in any order leave stores that are the same
  but for names and the order of bindings;
* `eval_definitions_perm`: whatever stands before and behind them.
-/
import MonkeyLang.Proofs.Eval.Asks
import MonkeyLang.Proofs.Eval.Renamed
import MonkeyLang.Proofs.Session.Whole
import MonkeyLang.Proofs.Store.Shuffled

namespace MonkeyLang

open List (Forall₂)

/-! ### Definitions -/

/-- A `let` of a function literal. -/
structure FunctionDefinition where
  key : Token
  name : Token
  literal : Token
  params : List Node
  body : Node

namespace FunctionDefinition

/-- The statement. -/
def node (d : FunctionDefinition) : Node :=
  .letStmt d.key d.name (.function d.literal d.params d.body)

/-- The definition that a statement is, if it is one. -/
def ofNode? : Node → Option FunctionDefinition
  | .letStmt key name (.function literal params body) =>
      some ⟨key, name, literal, params, body⟩
  | _ => none

lemma eq_node_of_ofNode? {n : Node} {d : FunctionDefinition}
    (h : ofNode? n = some d) : n = d.node := by
  unfold ofNode? at h
  split at h
  · cases h
    rfl
  · cases h

/-- What is bound to which name, places aside. -/
def content (d : FunctionDefinition) : String × List Node × Node :=
  (d.name.text, d.params.map Node.bare, d.body.bare)

/-- The closures that definitions make in a frame, from a number on, each with
its name. -/
def made (e : ℕ) : ℕ → List FunctionDefinition → List (String × Closure)
  | _, [] => []
  | n, d :: ds => (d.name.text, ⟨n, d.params, d.body, e⟩) :: made e (n + 1) ds

/-- The functions that definitions bind. -/
def bound (e n : ℕ) (ds : List FunctionDefinition) : Bindings String Value :=
  (made e n ds).map fun p => (p.1, .function p.2)

/-- The same for a closure that was made. -/
def contentMade (p : String × Closure) : String × List Node × Node :=
  (p.1, p.2.params.map Node.bare, p.2.body.bare)

/-- Statements that are equal without places have the same content. -/
lemma content_of_bare {d d' : FunctionDefinition}
    (h : d.node.bare = d'.node.bare) : d.content = d'.content := by
  cases Node.matches_of_bare h with
  | letStmt hname hv =>
      cases Node.matches_of_bare hv with
      | function hps hb => exact Prod.ext hname (Prod.ext hps hb)

/-- So have those that stand in another order. -/
lemma perm_content {ds ds' : List FunctionDefinition}
    (h : (ds.map fun d => d.node.bare).Perm (ds'.map fun d => d.node.bare)) :
    (ds.map content).Perm (ds'.map content) := by
  obtain ⟨cs, hcs, hbare⟩ := exists_perm_of_map h
  have hcontent : ds.map content = cs.map content :=
    forall₂_map_eq.mp ((forall₂_map_eq.mpr hbare).imp
      fun _ _ => content_of_bare)
  exact hcontent ▸ hcs.map content

variable {e : ℕ}

lemma map_contentMade (e n : ℕ) (ds : List FunctionDefinition) :
    (made e n ds).map contentMade = ds.map content := by
  induction ds generalizing n with
  | nil => rfl
  | cons d ds ih => rw [made, List.map_cons, List.map_cons, ih]; rfl

lemma map_id_made (e n : ℕ) (ds : List FunctionDefinition) :
    (made e n ds).map (fun p => p.2.id) = List.range' n ds.length := by
  induction ds generalizing n with
  | nil => rfl
  | cons d ds ih => rw [made, List.map_cons, ih]; rfl

lemma frame_of_mem_made {n : ℕ} {ds : List FunctionDefinition}
    {p : String × Closure} (hp : p ∈ made e n ds) : p.2.frame = e := by
  induction ds generalizing n with
  | nil => cases hp
  | cons d ds ih =>
      obtain rfl | hp := List.mem_cons.mp hp
      · rfl
      · exact ih hp

/-- The numbers of closures that are made lie beyond those that there were. -/
lemma id_of_mem_made {n : ℕ} {ds : List FunctionDefinition}
    {p : String × Closure} (hp : p ∈ made e n ds) :
    n ≤ p.2.id ∧ p.2.id < n + ds.length := by
  have hid : p.2.id ∈ List.range' n ds.length :=
    map_id_made e n ds ▸ List.mem_map_of_mem hp
  exact List.mem_range'_1.mp hid

end FunctionDefinition

open FunctionDefinition

namespace Store

/-- The closures of some definitions are made and bound in a frame. -/
def define (e : ℕ) (ds : List FunctionDefinition) (s : Store) : Store :=
  bindAll e (bound e s.closures ds)
    { s with closures := s.closures + ds.length }

end Store

/-- **Definitions.**  Evaluated in a row they are bound, and nothing else
happens. -/
theorem sequence_definitions (depth e : ℕ) (ds : List FunctionDefinition)
    (last : Option Value) (s : Store) :
    sequence (eval (depth + 2)) e last (ds.map node) s =
      some (.ok (if ds = [] then last else none), s.define e ds) := by
  induction ds generalizing last s with
  | nil => rfl
  | cons d ds ih =>
      have hfirst : eval (depth + 2) d.node e s =
          some (.ok none, s.define e [d]) := rfl
      have hrest : (s.define e [d]).define e ds = s.define e (d :: ds) := by
        have hcount : s.closures + (ds.length + 1) =
            s.closures + 1 + ds.length := by omega
        show _ = Store.bindAll e (bound e s.closures (d :: ds))
          { s with closures := s.closures + (ds.length + 1) }
        rw [hcount]
        rfl
      rw [List.map_cons, sequence, bind_ok hfirst,
        if_neg (List.cons_ne_nil d ds), ← hrest]
      refine (ih none _).trans ?_
      rw [ite_self]

/-! ### Closures of the same names -/

namespace Matching

/-- Numbers that are matched, and others beyond them. -/
def join (m m' : Matching) {n n' : ℕ} (h : m.Below n n')
    (h' : ∀ e e', m'.pair e e' → n ≤ e ∧ n' ≤ e') : Matching where
  pair e e' := m.pair e e' ∨ m'.pair e e'
  oneToOne := by
    rintro e e' d d' (he | he) (hd | hd)
    · exact m.oneToOne he hd
    · have hlow := h _ _ he
      have hhigh := h' _ _ hd
      omega
    · have hlow := h _ _ hd
      have hhigh := h' _ _ he
      omega
    · exact m'.oneToOne he hd

/-- Closures under the same name are matched. -/
def ofNames {cs cs' : List (String × Closure)}
    (hnames : (cs.map Prod.fst).Nodup) (hids : (cs.map (·.2.id)).Nodup)
    (hnames' : (cs'.map Prod.fst).Nodup) (hids' : (cs'.map (·.2.id)).Nodup) :
    Matching where
  pair i j := ∃ c ∈ cs, ∃ d ∈ cs', c.1 = d.1 ∧ c.2.id = i ∧ d.2.id = j
  oneToOne := by
    rintro _ _ _ _ ⟨c, hc, d, hd, hname, rfl, rfl⟩
      ⟨c', hc', d', hd', hname', rfl, rfl⟩
    constructor
    · intro hid
      obtain rfl := List.inj_on_of_nodup_map hids hc hc' hid
      rw [List.inj_on_of_nodup_map hnames' hd hd' (hname.symm.trans hname')]
    · intro hid
      obtain rfl := List.inj_on_of_nodup_map hids' hd hd' hid
      rw [List.inj_on_of_nodup_map hnames hc hc' (hname.trans hname'.symm)]

end Matching

/-- A renaming, with closures beyond those that there are matched. -/
def Renaming.joinClosures (ρ : Renaming) (m : Matching) {n n' : ℕ}
    (h : ρ.closures.Below n n')
    (h' : ∀ i j, m.pair i j → n ≤ i ∧ n' ≤ j) : Renaming :=
  ⟨ρ.frames, ρ.closures.join m h h'⟩

lemma Renaming.le_joinClosures {ρ : Renaming} {m : Matching} {n n' : ℕ}
    (h : ρ.closures.Below n n')
    (h' : ∀ i j, m.pair i j → n ≤ i ∧ n' ≤ j) :
    ρ ≤ ρ.joinClosures m h h' :=
  ⟨le_refl _, fun _ _ => Or.inl⟩

namespace FunctionDefinition

variable {ds ds' : List FunctionDefinition}

/-- Definitions of the same contents in another order make closures of the same
contents in another order. -/
lemma exists_perm_made (h : (ds.map content).Perm (ds'.map content))
    (e n e' n' : ℕ) :
    ∃ cs, cs.Perm (made e' n' ds') ∧
      Forall₂ (fun c d => contentMade c = contentMade d) (made e n ds) cs := by
  have hmade : ((made e n ds).map contentMade).Perm
      ((made e' n' ds').map contentMade) := by
    rw [map_contentMade, map_contentMade]
    exact h
  obtain ⟨cs, hperm, hcontents⟩ := exists_perm_of_map hmade
  exact ⟨cs, hperm, forall₂_map_eq.mpr hcontents⟩

lemma nodup_made (h : (ds.map fun d => d.name.text).Nodup) (e n : ℕ) :
    ((made e n ds).map Prod.fst).Nodup ∧
      ((made e n ds).map (·.2.id)).Nodup := by
  have hnames : (made e n ds).map Prod.fst = ds.map fun d => d.name.text := by
    have hcontents := congrArg (List.map Prod.fst) (map_contentMade e n ds)
    rwa [List.map_map, List.map_map] at hcontents
  rw [hnames, map_id_made]
  exact ⟨h, List.nodup_range'⟩

/-- The functions that are bound are the same if their closures are matched. -/
lemma related_bound {ρ : Renaming} {e e' n n' : ℕ} (he : ρ.frames.pair e e')
    {cs : List (String × Closure)} (hcs : ∀ d ∈ cs, d ∈ made e' n' ds')
    (hcontents : Forall₂ (fun c d => contentMade c = contentMade d)
      (made e n ds) cs)
    (hpair : ∀ c ∈ made e n ds, ∀ d ∈ cs, c.1 = d.1 →
      ρ.closures.pair c.2.id d.2.id) :
    Bindings.Related (Value.Renamed ρ) (bound e n ds)
      (cs.map fun d => (d.1, .function d.2)) := by
  have hmem : Forall₂ (fun c d => c ∈ made e n ds ∧ d ∈ cs ∧
      contentMade c = contentMade d) (made e n ds) cs :=
    (List.forall₂_and_left _ _).mpr ⟨fun _ hc => hc,
      ((List.forall₂_and_left _ _).mpr ⟨fun _ hd => hd, hcontents.flip⟩).flip⟩
  refine List.forall₂_map_left_iff.mpr (List.forall₂_map_right_iff.mpr
    (hmem.imp ?_))
  rintro c d ⟨hc, hd, hcd⟩
  obtain ⟨hname, hparams, hbody⟩ : c.1 = d.1 ∧
      c.2.params.map Node.bare = d.2.params.map Node.bare ∧
      c.2.body.bare = d.2.body.bare := by
    simpa [contentMade] using hcd
  refine ⟨hname, .function ⟨hpair c hc d hd hname, hparams, hbody, ?_⟩⟩
  rw [frame_of_mem_made hc, frame_of_mem_made (hcs d hd)]
  exact he

end FunctionDefinition

namespace Store

variable {p q : Array String} {ρ : Renaming} {s t : Store}

/-- Closures that are made may be matched with each other. -/
lemma Renamed.joinClosures (h : s.Renamed p q ρ t) {m : Matching} {n n' : ℕ}
    (hbeyond : ∀ i j, m.pair i j → s.closures ≤ i ∧ t.closures ≤ j)
    (hbelow : m.Below (s.closures + n) (t.closures + n')) :
    Renamed p q (ρ.joinClosures m h.closures hbeyond)
      { s with closures := s.closures + n }
      { t with closures := t.closures + n' } where
  frames d d' hd := by
    obtain ⟨f, g, hf, hg, hfg⟩ := h.frames d d' hd
    exact ⟨f, g, hf, hg, hfg.mono (Renaming.le_joinClosures _ _)⟩
  closures := by
    rintro i j (hij | hij)
    · exact h.closures.mono (Nat.le_add_right _ _) (Nat.le_add_right _ _) i j
        hij
    · exact hbelow i j hij
  nested := h.nested
  printed := h.printed

/-- **Definitions in another order** leave stores that are the same but for
names and the order of bindings. -/
theorem Reordered.define {e e' : ℕ} {ds ds' : List FunctionDefinition}
    (h : s.Reordered p q ρ t) (he : ρ.frames.pair e e')
    (hperm : (ds.map content).Perm (ds'.map content))
    (hnames : (ds.map fun d => d.name.text).Nodup) :
    ∃ ρ', ρ ≤ ρ' ∧ (s.define e ds).Reordered p q ρ' (t.define e' ds') := by
  obtain ⟨u, hs, ht⟩ := h
  have hnames' : (ds'.map fun d => d.name.text).Nodup := by
    have hpermNames := hperm.map Prod.fst
    rw [List.map_map, List.map_map] at hpermNames
    exact hpermNames.nodup_iff.mp hnames
  obtain ⟨cs, hcs, hcontents⟩ :=
    exists_perm_made hperm e s.closures e' u.closures
  obtain ⟨hn, hi⟩ := nodup_made hnames e s.closures
  obtain ⟨hn', hi'⟩ := nodup_made hnames' e' u.closures
  have hbeyond : ∀ i j, (Matching.ofNames hn hi hn' hi').pair i j →
      s.closures ≤ i ∧ u.closures ≤ j := by
    rintro _ _ ⟨c, hc, d, hd, -, rfl, rfl⟩
    exact ⟨(id_of_mem_made hc).1, (id_of_mem_made hd).1⟩
  have hbelow : (Matching.ofNames hn hi hn' hi').Below
      (s.closures + ds.length) (u.closures + ds'.length) := by
    rintro _ _ ⟨c, hc, d, hd, -, rfl, rfl⟩
    exact ⟨(id_of_mem_made hc).2, (id_of_mem_made hd).2⟩
  have hmem : ∀ d ∈ cs, d ∈ made e' u.closures ds' :=
    fun d hd => hcs.mem_iff.mp hd
  -- the new closures are matched under their names before they are bound
  let ρ' := ρ.joinClosures _ hs.closures hbeyond
  have hfunctions : Bindings.Related (Value.Renamed ρ')
      (bound e s.closures ds) (cs.map fun d => (d.1, .function d.2)) :=
    related_bound (ρ := ρ') he hmem hcontents fun c hc d hd hname =>
      Or.inr ⟨c, hc, d, hmem d hd, hname, rfl, rfl⟩
  refine ⟨ρ', Renaming.le_joinClosures _ _, _,
    (hs.joinClosures hbeyond hbelow).bindAll he hfunctions, ?_⟩
  have hsame : Shuffled { u with closures := u.closures + ds'.length }
      { t with closures := t.closures + ds'.length } :=
    ⟨ht.frames, congrArg (· + ds'.length) ht.closures, ht.printed⟩
  have hbound : bound e' t.closures ds' =
      (made e' u.closures ds').map fun c => (c.1, .function c.2) := by
    rw [bound, ht.closures]
  rw [Store.define, hbound]
  refine hsame.bindAll e' (hcs.map _) ?_
  rw [Bindings.keys, List.map_map]
  exact (hcs.map Prod.fst).nodup_iff.mpr hn'

end Store

/-! ### Programs -/

section

open Store

variable {p q : Array String} {ρ : Renaming} {ds ds' : List FunctionDefinition}
  (hperm : (ds.map content).Perm (ds'.map content))
  (hnames : (ds.map fun d => d.name.text).Nodup)

include hperm hnames

/-- Statements of which the first are definitions in another order. -/
lemma sequence_definitions_perm (depth : ℕ) {e e' : ℕ}
    (he : ρ.frames.pair e e') {post post' : List Node}
    (hpost : post.map Node.bare = post'.map Node.bare)
    {last last' : Option Value}
    (hlast : Option.Rel (Value.Renamed ρ) last last')
    (hreturned : ∀ v, last ≠ some (.returned v)) :
    Run.Renamed (Reordered p q) ρ
      (sequence (eval depth) e last (ds.map node ++ post))
      (sequence (eval depth) e' last' (ds'.map node ++ post')) := by
  have hrec := (lockstep_reordered p q).evaluates_eval depth
  match ds, ds', depth with
  | [], ds', _ =>
      obtain rfl : ds' = [] := by simpa using hperm.length_eq.symm
      exact hrec.sequence he hpost hlast
  | d :: ds, [], _ => simpa using hperm.length_eq
  -- a function literal below a `let` is two evaluations deep
  | d :: ds, d' :: ds', 0 => exact .none
  | d :: ds, d' :: ds', 1 => exact .none
  | d :: ds, d' :: ds', depth + 2 =>
      intro s t hs
      have hfirst := sequence_definitions depth e (d :: ds) last s
      have hsecond := sequence_definitions depth e' (d' :: ds') last' t
      rw [if_neg (List.cons_ne_nil _ _)] at hfirst hsecond
      have hreturned' : ∀ v, last' ≠ some (.returned v) := by
        rintro v rfl
        cases hlast with
        | some hlast =>
            cases hlast with
            | returned _ => exact hreturned _ rfl
      rw [sequence_append hreturned hfirst nofun,
        sequence_append hreturned' hsecond nofun]
      obtain ⟨ρ', hρ, hs'⟩ := hs.define he hperm hnames
      refine rel_imp (hrec.sequence (hρ.1 _ _ he) hpost .none _ _ hs') ?_
      rintro x y ⟨ρ'', hρ', hxy⟩
      exact ⟨ρ'', hρ.trans hρ', hxy⟩

/-- So it is with others before them. -/
lemma sequence_definitions_perm_append (depth : ℕ) {e e' : ℕ}
    (he : ρ.frames.pair e e') {pre pre' post post' : List Node}
    (hpre : pre.map Node.bare = pre'.map Node.bare)
    (hpost : post.map Node.bare = post'.map Node.bare)
    {last last' : Option Value}
    (hlast : Option.Rel (Value.Renamed ρ) last last')
    (hreturned : ∀ v, last ≠ some (.returned v)) :
    Run.Renamed (Reordered p q) ρ
      (sequence (eval depth) e last (pre ++ (ds.map node ++ post)))
      (sequence (eval depth) e' last' (pre' ++ (ds'.map node ++ post'))) := by
  replace hpre := forall₂_map_eq.mpr hpre
  induction hpre generalizing ρ last last' with
  | nil =>
      exact sequence_definitions_perm hperm hnames depth he hpost hlast
        hreturned
  | cons hn _ ih =>
      have hrec := (lockstep_reordered p q).evaluates_eval depth
      refine (hrec ρ e e' _ _ he hn).bind fun ρ₁ hρ₁ v? w? hv => ?_
      have hnext := ih (hρ₁.1 _ _ he) hv
      cases hv with
      | none => exact hnext nofun
      | some hvw =>
          cases hvw with
          | returned hvw => exact .pure (.some (.returned hvw))
          | _ => exact hnext nofun

/-- Programs in which definitions stand in another order. -/
lemma eval_definitions_renamed (depth : ℕ) {e e' : ℕ}
    (he : ρ.frames.pair e e') {pre pre' post post' : List Node}
    (hpre : pre.map Node.bare = pre'.map Node.bare)
    (hpost : post.map Node.bare = post'.map Node.bare) :
    Run.Renamed (Reordered p q) ρ
      (eval depth (.program (pre ++ (ds.map node ++ post))) e)
      (eval depth (.program (pre' ++ (ds'.map node ++ post'))) e') := by
  cases depth with
  | zero => exact .none
  | succ depth =>
      exact (sequence_definitions_perm_append hperm hnames depth he hpre hpost
        .none nofun).bind fun _ _ _ _ hv => Value.Renamed.coupling.deliver hv

end

/-- **The order of definitions.**  Let two programs, as they are once macros are
expanded, differ in the places of tokens and in the order of function
definitions that stand behind each other under distinct names.  Then both end
alike, in every frame of every store: with values that are the same but for the
numbers of closures and frames, or with the same fault, having printed the same,
in stores that are the same but for these numbers and the order of bindings; or
neither ends. -/
theorem eval_definitions_perm {s : Store} (hs : s.Whole) {e : ℕ}
    (he : e < s.frames.size) {ds ds' : List FunctionDefinition}
    (hperm : (ds.map content).Perm (ds'.map content))
    (hnames : (ds.map fun d => d.name.text).Nodup)
    {pre pre' post post' : List Node}
    (hpre : pre.map Node.bare = pre'.map Node.bare)
    (hpost : post.map Node.bare = post'.map Node.bare) (depth : ℕ) :
    Option.Rel
      (fun x y => ∃ ρ, s.identity ≤ ρ ∧ x.2.Reordered #[] #[] ρ y.2 ∧
        x.2.printed = y.2.printed ∧
        Outcome Eq (Option.Rel (Value.Renamed ρ)) x.1 y.1)
      (eval depth (.program (pre ++ (ds.map node ++ post))) e s)
      (eval depth (.program (pre' ++ (ds'.map node ++ post'))) e s) := by
  refine rel_imp (eval_definitions_renamed hperm hnames depth
    (ρ := s.identity) ⟨rfl, he⟩ hpre hpost s s ⟨s, hs, .refl s⟩) ?_
  rintro x y ⟨ρ, hρ, hstores, hout⟩
  obtain ⟨u, hx, hy⟩ := hstores
  obtain ⟨texts, hs, hu⟩ := hx.printed
  refine ⟨ρ, hρ, ⟨u, hx, hy⟩, ?_, hout⟩
  rw [hy.printed, hs, hu]

end MonkeyLang

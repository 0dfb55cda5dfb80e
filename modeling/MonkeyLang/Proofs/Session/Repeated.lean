/-
Calls that are made twice.

* `Matching.Since n n'`: numbers are matched with themselves, or are new on both
  sides;
* `Store.Repeated s s'`: what came after `s` and what came after `s'` is the
  same, but for the frames and the closures that were made since;
  `lockstep_repeated`: it stays so whatever evaluation does to both;
* `Store.Reachable`: the stores that inputs to a session pass, and `Store.Has`:
  the values that may be had there;
* `Reachable.apply_again`: a value that was called does the same when it is
  called with the same arguments again.
-/
import MonkeyLang.Proofs.Eval.FrameLaw
import MonkeyLang.Proofs.Eval.Renamed
import MonkeyLang.Proofs.Session.Whole
import MonkeyLang.Proofs.Value.Bare

namespace MonkeyLang

open List (Forall₂)

/-! ### Old and new -/

/-- What is matched is old and matched with itself, or it is new on both
sides. -/
def Matching.Since (m : Matching) (n n' : ℕ) : Prop :=
  ∀ e e', m.pair e e' → (e < n ∧ e' = e) ∨ (n ≤ e ∧ n' ≤ e')

namespace Matching

variable {m : Matching} {n n' k k' : ℕ}

lemma since_upTo (n n' : ℕ) : (upTo n).Since n n' := by
  rintro e _ ⟨rfl, he⟩
  exact Or.inl ⟨he, rfl⟩

lemma Since.add (h : m.Since n n') (hk : n ≤ k) (hk' : n' ≤ k')
    (hbelow : m.Below k k') : (m.add k k' hbelow).Since n n' := by
  rintro e e' (he | ⟨rfl, rfl⟩)
  · exact h e e' he
  · exact Or.inr ⟨hk, hk'⟩

end Matching

namespace Store

/-- What came after `s` is the same as what came after `s'`: the frames and the
closures of `s` are matched with themselves, and new ones with new ones; behind
`s` and `s'` the same was printed. -/
structure Repeated (s s' : Store) (ρ : Renaming) (u t : Store) : Prop where
  renamed : u.Renamed s.printed s'.printed ρ t
  frames : ρ.frames.Since s.frames.size s'.frames.size
  closures : ρ.closures.Since s.closures s'.closures
  first : s.frames.size ≤ u.frames.size ∧ s.closures ≤ u.closures
  second : s'.frames.size ≤ t.frames.size ∧ s'.closures ≤ t.closures

/-- It stays so, since only new frames and closures are made. -/
lemma lockstep_repeated (s s' : Store) : Lockstep (Repeated s s') where
  lookup h _ _ he := h.renamed.lookup he
  bind h e e' he name v w hvw := by
    refine ⟨h.renamed.bind he name hvw, h.frames, h.closures, ⟨?_, h.first.2⟩,
      ⟨?_, h.second.2⟩⟩
    · exact Nat.le_trans h.first.1 (Nat.le_of_eq Array.size_modify.symm)
    · exact Nat.le_trans h.second.1 (Nat.le_of_eq Array.size_modify.symm)
  print h text :=
    ⟨h.renamed.print text, h.frames, h.closures, h.first, h.second⟩
  enter {ρ u t} h c d hc args args' hargs := by
    refine ⟨ρ.addFrame h.renamed.below, ρ.le_addFrame _, Or.inr ⟨rfl, rfl⟩,
      h.renamed.pushFrame (hc.entered hargs),
      h.frames.add h.first.1 h.second.1 h.renamed.below, h.closures,
      ⟨?_, h.first.2⟩, ⟨?_, h.second.2⟩⟩
    · exact Nat.le_trans (Nat.le_succ_of_le h.first.1)
        (Nat.le_of_eq (Array.size_push _).symm)
    · exact Nat.le_trans (Nat.le_succ_of_le h.second.1)
        (Nat.le_of_eq (Array.size_push _).symm)
  close {ρ u t} h e e' he ps ps' b b' hps hb :=
    ⟨ρ.addClosure h.renamed.closures, ρ.le_addClosure _,
      ⟨Or.inr ⟨rfl, rfl⟩, hps, hb, he⟩, h.renamed.countClosure ps ps' b b' e e',
      h.frames, h.closures.add h.first.2 h.second.2 h.renamed.closures,
      ⟨h.first.1, Nat.le_succ_of_le h.first.2⟩,
      ⟨h.second.1, Nat.le_succ_of_le h.second.2⟩⟩

/-! ### Reachable stores -/

/-- The stores that a session is in between its inputs, and those that are
passed while an input is expanded and evaluated. -/
inductive Reachable : Store → Prop where
  | between {s : Session} (hs : Session.Led (fun _ _ _ _ => True) s) :
      Reachable s.store
  | during {s : Session} {aim : Session.Aim} {depth : ℕ} {source : String}
      {m : Moment} {t : Store} (hs : Session.Led (fun _ _ _ _ => True) s)
      (hm : s.Begins aim depth source m) (ht : m.Passes t) : Reachable t

/-- All frames and closures that a value leads to are in the store. -/
def Has (s : Store) (v : Value) : Prop := v.Renamed s.identity v

variable {s s' : Store}

/-- Whatever is done while an input is worked on leads to nothing but what is
there. -/
lemma inside_whole {t : Session} (ht : Session.Led (fun _ _ _ _ => True) t)
    {aim : Session.Aim} {depth : ℕ} {source : String} {m q : Moment}
    (hm : t.Begins aim depth source m)
    (hq : Relation.ReflTransGen Moment.Calls m q) :
    (Regime.whole t.store.frames.size).Inside m q :=
  (Regime.whole_lawful _).inside_begins ht.whole.covers
    (fun _ => ht.whole.program) (Session.Whole.admits _ aim depth source t) hm
    hq

/-- All that a reachable store leads to is there. -/
lemma Reachable.whole (h : s.Reachable) : s.Whole := by
  cases h with
  | between hs => exact hs.whole.store
  | during hs hm ht =>
      cases ht with
      | starts hq => exact (inside_whole hs hm hq).good.2
      | ends hq hout =>
          exact ((inside_whole hs hm hq).ends.good
            (Moment.outcome_eq _ ▸ hout)).2

/-- What a name is bound to may be had. -/
lemma Reachable.has_of_lookup (h : s.Reachable) {e : ℕ}
    (he : e < s.frames.size) {name : String} {v : Value}
    (hv : s.lookup e name = some v) : s.Has v :=
  h.whole.lookup he hv

/-- So may all that is called while an input is worked on, with its
arguments. -/
lemma has_of_calls {t : Session} (ht : Session.Led (fun _ _ _ _ => True) t)
    {aim : Session.Aim} {depth : ℕ} {source : String} {m q : Moment}
    (hm : t.Begins aim depth source m)
    (hq : Relation.ReflTransGen Moment.Calls m q) {f : Value}
    {args : List Value} (hjob : q.job = .apply f args) :
    q.store.Reachable ∧ q.store.Has f ∧ ∀ a ∈ args, q.store.Has a := by
  have hasked := (inside_whole ht hm hq).asked
  rw [hjob] at hasked
  exact ⟨.during ht hm (.starts hq), hasked⟩

/-! ### Calling again -/

/-- A call leaves all frames as they are and makes others, so what came before
is the same as what came after. -/
lemma Whole.repeated (h : s.Whole) {depth : ℕ} {f : Value} {args : List Value}
    (hf : s.Has f) (hargs : ∀ a ∈ args, s.Has a)
    {out : Except Fault (Option Value)}
    (hrun : apply depth f args s = some (out, s')) :
    s.Repeated s' s.identity s s' := by
  -- the number of the next frame stands for a frame of its own
  have hkeeps : Keeps (s.ChangedIn s.frames.size) _ (apply depth f args) :=
    (stable_changedIn s.frames.size s).keeps_apply depth trivial
      fun _ _ => trivial
  have hsame := (hkeeps s out s' (.refl _ s) hrun).1.others
  have hends := (Regime.whole_lawful 0).ends (p := ⟨depth, .apply f args, s⟩)
    (Regime.permits_of_all (fun _ _ => trivial) _) ⟨Nat.zero_le _, h⟩
    ⟨hf, hargs⟩
  obtain ⟨hframes, hclosures⟩ := hends.le hrun
  refine ⟨h.transfer ?_ ?_ ⟨h.nested.1, (hends.good hrun).2.nested.1⟩
    ⟨#[], by simp, by simp⟩, Matching.since_upTo _ _, Matching.since_upTo _ _,
    ⟨Nat.le_refl _, Nat.le_refl _⟩, Nat.le_refl _, Nat.le_refl _⟩
  · rintro d _ ⟨rfl, hd⟩
    exact ⟨rfl, hsame d hd (Nat.ne_of_lt hd)⟩
  · exact h.closures.mono (Nat.le_refl _) hclosures

/-- **Functions have no memory.**  In a store that inputs to a session lead to
let a value be called with arguments that may be had there, and let the call
end.  Then the same call ends when it is made again in the store that the first
one left: it prints the same, and it has the same outcome and leaves the same
store, but for the frames and the closures that each of the two made.  A fault
is the same one, a value in which no function and no macro lies is equal but for
the places in quotes, and plain data is equal. -/
theorem Reachable.apply_again (hs : s.Reachable) {f : Value}
    {args : List Value} (hf : s.Has f) (hargs : ∀ a ∈ args, s.Has a)
    {depth : ℕ} {out : Except Fault (Option Value)}
    (hrun : apply depth f args s = some (out, s')) :
    ∃ again s'' ρ, apply depth f args s' = some (again, s'') ∧
      (∃ texts, s'.printed = s.printed ++ texts ∧
        s''.printed = s'.printed ++ texts) ∧
      s.identity ≤ ρ ∧ s.Repeated s' ρ s' s'' ∧
      Outcome Eq (Option.Rel (Value.Renamed ρ)) out again ∧
      (∀ g, out = .error g → again = .error g) ∧
      (∀ v, out = .ok (some v) → v.ClosureFree →
        ∃ w, again = .ok (some w) ∧ w.bare = v.bare) ∧
      ∀ v, out = .ok (some v) → v.Plain → again = .ok (some v) := by
  have hlockstep := lockstep_repeated s s'
  have hends := (hlockstep.evaluates_eval depth).applyWith hlockstep hf
    (List.forall₂_same.mpr hargs) s s' (hs.whole.repeated hf hargs hrun)
  -- the second run begins in the store that the first one leaves; it ends
  -- because the two go in lockstep
  change Option.Rel _ (apply depth f args s) (apply depth f args s') at hends
  rw [hrun] at hends
  rcases hagain : apply depth f args s' with _ | ⟨again, s''⟩ <;>
    rw [hagain] at hends
  · cases hends
  obtain ⟨ρ, hρ, hrepeated, hout⟩ : ∃ ρ, s.identity ≤ ρ ∧
      s.Repeated s' ρ s' s'' ∧
      Outcome Eq (Option.Rel (Value.Renamed ρ)) out again := by
    cases hends with
    | some hends => exact hends
  refine ⟨again, s'', ρ, rfl, hrepeated.renamed.printed, hρ, hrepeated, hout,
    ?_, ?_, ?_⟩
  · rintro g rfl
    cases hout with
    | error hg => rw [hg]
  -- without closures nothing is left that could be renamed, except for the
  -- positions in quotes
  · rintro v rfl hv
    cases hout with
    | ok hvw =>
        cases hvw with
        | some hvw => exact ⟨_, rfl, (hvw.bare_eq hv).symm⟩
  · rintro v rfl hv
    cases hout with
    | ok hvw =>
        cases hvw with
        | some hvw => rw [hvw.eq_of_plain hv]

/-- The definition of a function that prints and makes another one. -/
def printsAndMakes : String :=
  "let x = 1; let f = fn(y) \x7b puts(y); fn() \x7b x + y \x7d \x7d;"

set_option maxRecDepth 4000 in
/-- Called twice, it prints the same and makes two functions in two frames. -/
theorem Reachable.apply_again_printsAndMakes :
    ∃ s f c c' s' s'' ρ, Store.Reachable s ∧ s.lookup 0 "f" = some f ∧
      apply 20 f [.integer 2] s = some (.ok (some (.function c)), s') ∧
      apply 20 f [.integer 2] s' = some (.ok (some (.function c')), s'') ∧
      (∃ texts, s'.printed = s.printed ++ texts ∧
        s''.printed = s'.printed ++ texts) ∧
      c.Renamed ρ c' ∧ s.Repeated s' ρ s' s'' := by
  obtain ⟨out, t, hrun, f, hf, he, c, s', hcall⟩ : ∃ out t,
      (Session.start false).evaluate 20 printsAndMakes = some (out, t) ∧
      ∃ f, t.store.lookup 0 "f" = some f ∧ 0 < t.store.frames.size ∧
      ∃ c s', apply 20 f [.integer 2] t.store =
        some (.ok (some (.function c)), s') :=
    ⟨_, _, rfl, _, rfl, by decide, _, _, rfl⟩
  have hreachable : t.store.Reachable :=
    .between (.evaluate (.start false) trivial hrun)
  obtain ⟨again, s'', ρ, hagain, hprinted, -, hrepeated, hout, -⟩ :=
    hreachable.apply_again (hreachable.has_of_lookup he hf)
      (List.forall_mem_singleton.mpr (.integer 2)) hcall
  cases hout with
  | ok hv =>
      cases hv with
      | some hv =>
          cases hv with
          | function hc =>
              exact ⟨t.store, f, c, _, s', s'', ρ, hreachable, hf, hcall,
                hagain, hprinted, hc, hrepeated⟩

end Store

end MonkeyLang

/-
What the values of a session are.

* `Table.Keyed`: each entry of a hash lies under the hash key of its own key,
  and no two under the same one; `Keyed.set` puts an entry into it;
* `Value.Sound`: a value that is no error and, if it is a hash, is keyed;
* `Store.Link`: what a frame or a value leads to: bound values, the frame
  around, values inside and the frames that closures keep;
* `Session.Reached.sound`: all that the frame of the program leads to is
  sound, whatever inputs the session was given.
-/
import MonkeyLang.Proofs.Session.Stable
import MonkeyLang.Proofs.Store.Bound

namespace MonkeyLang

open Relation (ReflTransGen)

/-! ### Hashes -/

/-- Each entry lies under the hash key of its own key, an integer, a truth
value or a string, and no two lie under the same one. -/
structure Table.Keyed (t : Table) : Prop where
  nodup : (Bindings.keys t).Nodup
  under : ∀ h k v, (h, k, v) ∈ t → k.hashKey? = some h
  usable : ∀ h k v, (h, k, v) ∈ t →
    k.kind = .integer ∨ k.kind = .boolean ∨ k.kind = .string

namespace Table

lemma keyed_empty : Keyed empty where
  nodup := List.nodup_nil
  under _ _ _ hp := absurd hp List.not_mem_nil
  usable _ _ _ hp := absurd hp List.not_mem_nil

/-- What has a hash key is an integer, a truth value or a string. -/
lemma kind_of_hashKey? {k : Value} {h : HashKey} (hk : k.hashKey? = some h) :
    k.kind = .integer ∨ k.kind = .boolean ∨ k.kind = .string := by
  cases k with
  | integer n => exact Or.inl rfl
  | boolean b => exact Or.inr (Or.inl rfl)
  | string s => exact Or.inr (Or.inr rfl)
  | _ => cases hk

/-- An entry put under the hash key of its key leaves a hash keyed. -/
lemma Keyed.set {t : Table} (ht : Keyed t) {h : HashKey} {k v : Value}
    (hk : k.hashKey? = some h) : Keyed (Bindings.set h (k, v) t) := by
  refine ⟨Bindings.nodup_keys_set ht.nodup, ?_, ?_⟩
  · intro j l w hp
    rcases Bindings.mem_set hp with hp | hp
    · cases hp
      exact hk
    · exact ht.under j l w hp
  · intro j l w hp
    rcases Bindings.mem_set hp with hp | hp
    · cases hp
      exact kind_of_hashKey? hk
    · exact ht.usable j l w hp

end Table

/-! ### Sound values -/

/-- A value that is no error and, if it is a hash, is keyed. -/
def Value.Sound (v : Value) : Prop :=
  v.kind ≠ .error ∧ ∀ t, v = .hash t → Table.Keyed t

namespace Value

/-- Neither errors nor hashes are looked into. -/
lemma sound_of_kind {v : Value} (herror : v.kind ≠ .error)
    (hhash : v.kind ≠ .hash) : v.Sound := by
  refine ⟨herror, ?_⟩
  rintro t rfl
  exact absurd rfl hhash

lemma sound_hash {t : Table} (ht : Table.Keyed t) : Sound (.hash t) := by
  refine ⟨nofun, ?_⟩
  rintro u ⟨rfl⟩
  exact ht

/-- To be sound at any depth is a closed property. -/
lemma closed_sound : Closed (Every Sound) :=
  closed_every (fun _ => sound_of_kind) (sound_hash Table.keyed_empty)
    fun t _ _ _ ht hk => sound_hash ((ht.2 t rfl).set hk)

end Value

/-- That all bound values are sound at any depth is an invariant of
evaluation. -/
lemma stable_sound : Stable (fun _ => True)
    (Store.Bound (Value.Every Value.Sound)) (fun _ => True)
    (Value.Every Value.Sound) :=
  stable_every (fun _ => Value.sound_of_kind) Value.closed_sound

/-! ### What a frame leads to -/

/-- What a program can come to: frames and values. -/
inductive Store.Item where
  | frame (e : ℕ)
  | value (v : Value)

/-- A frame leads to the values bound in it and to the frame around it; a
value leads to those directly in it and, if it is a closure, to the frame
that it was made in. -/
inductive Store.Link (s : Store) : Store.Item → Store.Item → Prop where
  | bound {e : ℕ} {f : Frame} {name : String} {v : Value}
      (hf : s.frames[e]? = some f) (hv : (name, v) ∈ f.bindings) :
      Link s (.frame e) (.value v)
  | outer {e o : ℕ} {f : Frame} (hf : s.frames[e]? = some f)
      (ho : f.outer = some o) : Link s (.frame e) (.frame o)
  | inside {v w : Value} (hw : v.Holds w) : Link s (.value v) (.value w)
  | function {c : Closure} : Link s (.value (.function c)) (.frame c.frame)
  | macroFn {c : Closure} : Link s (.value (.macroFn c)) (.frame c.frame)

/-- If all bound values have a property at any depth, so has every value that
a frame leads to. -/
lemma Store.Bound.of_links {P : Value → Prop} {s : Store}
    (h : s.Bound (Value.Every P)) {e : ℕ} {i : Store.Item}
    (hi : ReflTransGen s.Link (.frame e) i) :
    ∀ v, i = .value v → Value.Every P v := by
  induction hi with
  | refl => nofun
  | tail _ hlink ih =>
      rintro v rfl
      cases hlink with
      | bound hf hv => exact h _ _ hf _ hv
      | inside hw => exact (Value.every_iff.mp (ih _ rfl)).2 v hw

/-! ### Sessions -/

/-- The invariant of sessions. -/
lemma Session.Reached.bound {s : Session} (h : s.Reached) :
    s.In 0 1 (Store.Bound (Value.Every Value.Sound)) := by
  induction h with
  | start tracing =>
      have hnone : ∀ b ∈ ([] : Bindings String Value),
          Value.Every Value.Sound b.2 := fun _ hb => absurd hb List.not_mem_nil
      have hroot := Store.Bound.empty.addFrame hnone none
      exact ⟨rfl, rfl, hroot.addFrame hnone none⟩
  | expand _ hrun ih =>
      exact (stable_sound.expand (fun _ _ => trivial) trivial ih hrun).2
  | evaluate _ hrun ih =>
      exact stable_sound.evaluate (fun _ _ => trivial) trivial trivial ih hrun

/-- **Only sound values.**  Whatever inputs a session was given and whatever
came of each, no value that the frame of its program leads to is an error,
and of a hash among them every entry lies under the hash key of its own key,
an integer, a truth value or a string, and no two under the same one. -/
theorem Session.Reached.sound {s : Session} (h : s.Reached) {v : Value}
    (hv : ReflTransGen s.store.Link (.frame s.program) (.value v)) :
    v.kind ≠ .error ∧ ∀ t, v = .hash t → Table.Keyed t :=
  h.bound.store.of_links hv v rfl v .refl

/-- A hash bound by the first input of a session. -/
theorem sound_hashLiteral : ∃ out s',
    (Session.start false).evaluate 20 "let h = \x7b1: [true]\x7d;" =
      some (out, s') ∧ s'.Reached ∧
    ∃ t, ReflTransGen s'.store.Link (.frame s'.program) (.value (.hash t)) ∧
      Table.Keyed t ∧ t = [(.integer 1, .integer 1, .array [.boolean true])] := by
  obtain ⟨out, s', hrun, hprogram, hframe⟩ : ∃ out s',
      (Session.start false).evaluate 20 "let h = \x7b1: [true]\x7d;" =
        some (out, s') ∧ s'.program = 0 ∧ s'.store.frames[0]? =
        some ⟨[("h", .hash [(.integer 1, .integer 1,
          .array [.boolean true])])], none⟩ := ⟨_, _, rfl, rfl, rfl⟩
  have hreached : s'.Reached := .evaluate (.start false) hrun
  have hlink : ReflTransGen s'.store.Link (.frame s'.program)
      (.value (.hash [(.integer 1, .integer 1, .array [.boolean true])])) := by
    rw [hprogram]
    exact .single (.bound hframe (List.mem_singleton.mpr rfl))
  exact ⟨out, s', hrun, hreached, _, hlink,
    (Session.Reached.sound hreached hlink).2 _ rfl, rfl⟩

end MonkeyLang

/-
Macros and the program stay apart.

* `Store.Reaches`: what frames a frame leads to, and `within_reaches`,
  `links_of_same`: it leads to the same ones as long as those stay as they are;
* `Session.Apart`: the frame of the program leads to frames that there are and
  not to that of the macros, which leads to nothing but itself;
* `Apart.expand_exchange`: no macro reads another frame that there was;
* `Apart.expand_frames`, `Apart.passes_body`, `Apart.passes_program`: none
  writes to one, and after the definitions of an input the frame of the macros
  stays as it is;
* `Session.Led.isolated`: so failed inputs leave a session intact.
-/
import MonkeyLang.Proofs.Eval.Zones
import MonkeyLang.Proofs.Session.Definitions
import MonkeyLang.Proofs.Session.Rejected
import MonkeyLang.Proofs.Session.WellFormed

namespace MonkeyLang

open Relation (ReflTransGen)

/-! ### What a frame leads to -/

namespace Store

variable {A : ℕ → Prop} {s t : Store} {e : ℕ}

/-- One frame leads to another one. -/
def Reaches (s : Store) (e d : ℕ) : Prop :=
  ReflTransGen s.Link (.frame e) (.frame d)

/-- If the frames with `A` lead to no others, one of them leads only to frames
with `A` and to values made in them. -/
lemma Within.of_links (h : s.Within A) (he : A e) {i : Item}
    (hi : ReflTransGen s.Link (.frame e) i) :
    (∀ d, i = .frame d → A d) ∧
      ∀ v, i = .value v → Value.Every (Value.MadeIn A) v := by
  -- by induction over the way: a frame leads to its bindings and its outer
  -- frame, a closure to the frame that it was made in
  induction hi with
  | refl =>
      refine ⟨?_, nofun⟩
      rintro d ⟨⟩
      exact he
  | tail _ hlink ih =>
      cases hlink with
      | bound hf hv =>
          refine ⟨nofun, ?_⟩
          rintro v ⟨⟩
          exact (h _ _ (ih.1 _ rfl) hf).values _ hv
      | outer hf ho =>
          refine ⟨?_, nofun⟩
          rintro d ⟨⟩
          exact (h _ _ (ih.1 _ rfl) hf).outer _ ho
      | inside hw =>
          refine ⟨nofun, ?_⟩
          rintro v ⟨⟩
          exact (Value.every_iff.mp (ih.2 _ rfl)).2 _ hw
      | function =>
          refine ⟨?_, nofun⟩
          rintro d ⟨⟩
          exact ih.2 _ rfl _ .refl
      | macroFn =>
          refine ⟨?_, nofun⟩
          rintro d ⟨⟩
          exact ih.2 _ rfl _ .refl

lemma Within.of_reaches (h : s.Within A) (he : A e) {d : ℕ}
    (hd : s.Reaches e d) : A d :=
  (h.of_links he hd).1 d rfl

/-- What one frame leads to leads to nothing else. -/
lemma within_reaches (s : Store) (e : ℕ) : s.Within (s.Reaches e) := by
  intro d f hd hf
  refine ⟨fun o ho => hd.tail (.outer hf ho), fun b hb w hw => ?_⟩
  have hvalue : ReflTransGen s.Link (.frame e) (.value w) := by
    have hinside := ReflTransGen.lift (r := Value.Holds) (p := s.Link)
      Item.value (fun _ _ hw => .inside hw) _ _ hw
    exact (hd.tail (.bound hf hb)).trans hinside
  cases w with
  | function c => exact hvalue.tail .function
  | macroFn c => exact hvalue.tail .macroFn
  | _ => trivial

/-- A frame leads to nothing more in a store in which the frames that it led to
are the same. -/
lemma links_of_same
    (h : ∀ d, s.Reaches e d → t.frames[d]? = s.frames[d]?) {i : Item}
    (hi : ReflTransGen t.Link (.frame e) i) :
    ReflTransGen s.Link (.frame e) i := by
  induction hi with
  | refl => exact .refl
  | tail _ hlink ih =>
      refine ih.tail ?_
      cases hlink with
      | bound hf hv => exact .bound ((h _ ih).symm.trans hf) hv
      | outer hf ho => exact .outer ((h _ ih).symm.trans hf) ho
      | inside hw => exact .inside hw
      | function => exact .function
      | macroFn => exact .macroFn

end Store

/-! ### Where macros and programs run -/

namespace Zone

variable {Z : Zone} {g : ℕ → Frame → Frame}

/-- A frame that was there from the start and is read is within the regime. -/
lemma reads_of_lt (hg : ∀ e, Z.reads e → g e = id) {e : ℕ} (he : Z.reads e)
    (hlt : e < Z.start) : (Regime.zone Z g).Reads e := by
  intro s name hs
  have hlive : Z.live s e := ⟨he, Nat.lt_of_lt_of_le hlt hs.1⟩
  exact ⟨Store.lookup_exchange hs.2 (fun d hd => hg d hd.1) hlive name,
    fun v hv => hs.2.lookup hlive hv⟩

/-- All calls are allowed. -/
lemma permits (m : Moment) : (Regime.zone Z g).Permits m :=
  Regime.permits_of_all (fun _ _ => trivial) m

/-- Of inputs nothing is asked. -/
lemma admits (aim : Session.Aim) (depth : ℕ) (source : String) (s : Session) :
    (Regime.zone Z g).Admits aim depth source s where
  definitions _ _ _ _ := ⟨.made .macroKey "macro", trivial⟩
  arguments _ _ _ _ _ _ _ _ _ _ _ := trivial
  program _ _ _ := trivial
  calls _ _ := Zone.permits _

end Zone

namespace Session

/-- Where the definitions of an input are bound and its macros run: the frame
of the macros and new ones. -/
def definingZone (s : Session) : Zone :=
  .around s.store.frames.size (· = s.macros)

/-- Where macros run: in new frames, in which the macros can be read. -/
def expandingZone (s : Session) : Zone where
  start := s.store.frames.size
  reads e := e = s.macros ∨ s.store.frames.size ≤ e
  writes e := s.store.frames.size ≤ e
  fresh _ he := he
  reads_of_writes _ he := Or.inr he

/-- Where a program runs: in the frames that its own one leads to, and in new
ones. -/
def programZone (s : Session) : Zone :=
  .around s.store.frames.size (s.store.Reaches s.program)

/-- The frame of the program leads to frames that there are, not to that of the
macros, which leads to no other one. -/
structure Apart (s : Session) : Prop where
  reached : ∀ d, s.store.Reaches s.program d →
    d < s.store.frames.size ∧ d ≠ s.macros
  root : ∃ f, s.store.frames[s.macros]? = some f ∧ f.LiesIn (· = s.macros)

namespace Apart

variable {s s' : Session} {depth : ℕ} {source : String}
  {g : ℕ → Frame → Frame}

lemma macros_lt (h : s.Apart) : s.macros < s.store.frames.size := by
  obtain ⟨f, hf, -⟩ := h.root
  exact (Array.getElem?_eq_some_iff.mp hf).1

/-! ### Expansion -/

/-- What is in the frame of the macros stays in the zone. -/
lemma within_macros (h : s.Apart) {Z : Zone} (hstart : Z.start =
    s.store.frames.size) (hreads : ∀ e, Z.reads e ↔
      e = s.macros ∨ s.store.frames.size ≤ e) :
    (Regime.zone Z g).good s.store := by
  refine ⟨Nat.le_of_eq hstart, ?_⟩
  rintro e f ⟨he, hlt⟩ hf
  obtain ⟨k, hk, hlies⟩ := h.root
  rcases (hreads e).mp he with rfl | hge
  · cases hk.symm.trans hf
    refine hlies.mono ?_
    rintro d rfl
    exact ⟨he, hlt⟩
  · omega

lemma covers_defining (h : s.Apart)
    (hg : ∀ e, s.definingZone.reads e → g e = id) :
    (Regime.zone s.definingZone g).Covers s where
  good := h.within_macros rfl fun _ => Iff.rfl
  macros := ⟨Or.inl rfl, h.macros_lt⟩
  reads := Zone.reads_of_lt hg (Or.inl rfl) h.macros_lt

/-- What leaves alone all frames but that of the macros, and there keeps
closures made in it, leaves macros and program apart. -/
lemma of_same (h : s.Apart) (hprogram : s'.program = s.program)
    (hmacros : s'.macros = s.macros)
    (hsize : s.store.frames.size ≤ s'.store.frames.size)
    (hsame : ∀ d, d < s.store.frames.size → d ≠ s.macros →
      s'.store.frames[d]? = s.store.frames[d]?)
    (hroot : ∃ f, s'.store.frames[s.macros]? = some f ∧
      f.LiesIn (· = s.macros)) : s'.Apart := by
  refine ⟨fun d hd => ?_, hmacros ▸ hroot⟩
  rw [hprogram] at hd
  have hd := Store.links_of_same (fun d hd => hsame d (h.reached d hd).1
    (h.reached d hd).2) hd
  rw [hmacros]
  exact ⟨Nat.lt_of_lt_of_le (h.reached d hd).1 hsize, (h.reached d hd).2⟩

/-- Macros and program are apart when the definitions of an input are
bound. -/
lemma prepared (h : s.Apart) (source : String) (n : Node) :
    (s.prepared source n).Apart ∧
      (s.prepared source n).program = s.program ∧
      (s.prepared source n).macros = s.macros := by
  obtain ⟨hsize, hdefines⟩ := defines_prepared source n s
  have hmoves := (Zone.lawful (g := fun _ => id) (Z := s.definingZone)
    fun _ _ => rfl).moves_prepared #[] source (n := n)
      (h.covers_defining fun _ _ => rfl)
      fun _ _ => ⟨.made .macroKey "macro", trivial⟩
  obtain ⟨-, hprogram, hmacros, -⟩ := hmoves.le
  refine ⟨h.of_same hprogram hmacros (Nat.le_of_eq hsize.symm)
    hdefines.others ?_, hprogram, hmacros⟩
  -- without new frames the zone has no other one than that of the macros
  obtain ⟨f, hf, -⟩ := h.root
  obtain ⟨k, hk, -⟩ := hdefines.own f hf
  refine ⟨k, hk, (hmoves.good.2 s.macros k ⟨Or.inl rfl, ?_⟩ hk).mono ?_⟩
  · exact hsize.symm ▸ h.macros_lt
  · rintro e ⟨he | he, hlt⟩
    · exact he
    · exact absurd hlt (Nat.not_lt.mpr (hsize ▸ he))

/-- A program is expanded in new frames. -/
lemma ends_expandAll (h : s.Apart) (n : Node) :
    Ends.RuleKeeps ((Regime.zone s.expandingZone fun _ => id).sessions #[])
      (Expanding.expandNode depth) (fun _ => True) (fun _ _ => True) n s ∧
    Ends ((Regime.zone s.expandingZone fun _ => id).sessions #[])
      (fun _ _ => True) (Expanding.expandAll depth n) s := by
  have hlawful := Zone.lawful (g := fun _ => id) (Z := s.expandingZone)
    fun _ _ => rfl
  exact And.imp_right (fun hends => hends.mono fun _ _ _ _ _ _ => trivial)
    (hlawful.ends_expandAll_of #[] Node.rebuilds_true
      (fun _ _ _ => ⟨trivial, trivial⟩)
      (h.within_macros rfl fun _ => Iff.rfl)
      (Zone.reads_of_lt (fun _ _ => rfl) (Or.inl rfl) h.macros_lt) trivial
      (fun _ _ _ _ _ _ _ _ _ _ => trivial)
      fun _ _ _ _ _ _ _ _ _ _ _ => Zone.permits _)

/-- **Expansion.**  When an input is expanded its definitions are bound and
macros run in new frames, whatever comes of it. -/
theorem expand_frames (h : s.Apart) {n : Node} {out : Except Failure Node}
    (hn : parsed source s.tracing = .ok n)
    (hrun : s.expand depth source = some (out, s')) :
    s'.program = s.program ∧ s'.macros = s.macros ∧
      s.store.frames.size ≤ s'.store.frames.size ∧
      ∀ d, d < s.store.frames.size →
        s'.store.frames[d]? = (s.prepared source n).store.frames[d]? := by
  obtain ⟨hapart, hprogram, hmacros⟩ := h.prepared source n
  have hsize := (defines_prepared source n s).1
  rcases expand_inv hrun with
    ⟨f, hf, -, -⟩ | ⟨k, result, hk, hexpand, -⟩
  · rw [hn] at hf
    cases hf
  · cases hn.symm.trans hk
    obtain ⟨⟨hle, hsame⟩, hprogram', hmacros', -⟩ :=
      (hapart.ends_expandAll n.remainder).2.le hexpand
    refine ⟨hprogram'.trans hprogram, hmacros'.trans hmacros,
      hsize ▸ hle, fun d hd => hsame d ?_⟩
    exact Nat.not_le.mpr (hsize.symm ▸ hd)

/-- So it is in every store that the body of a macro passes. -/
theorem passes_body (h : s.Apart) {n : Node}
    (hn : parsed source s.tracing = .ok n) {m : Moment} {store : Store}
    (hm : s.Begins .expand depth source m) (hstore : m.Passes store) {d : ℕ}
    (hd : d < s.store.frames.size) :
    store.frames[d]? = (s.prepared source n).store.frames[d]? := by
  cases hm with
  | program haim => cases haim
  | @body k callee t args s₁ c e store₁ hk hcomes hcallee hargs hframe =>
      cases hn.symm.trans hk
      have hapart := (h.prepared source n).1
      have hsize := (defines_prepared source n s).1
      have hlawful := Zone.lawful (g := fun _ => id)
        (Z := (s.prepared source n).expandingZone) fun _ _ => rfl
      obtain ⟨hgood, hle, hasked⟩ := hlawful.asked_of_comes
        (hapart.within_macros rfl fun _ => Iff.rfl)
        (Zone.reads_of_lt (fun _ _ => rfl) (Or.inl rfl) hapart.macros_lt)
        (hapart.ends_expandAll n.remainder).1 hcomes hcallee
        (fun _ _ => trivial) hframe
      have hpasses := hlawful.le_of_passes hstore
        (Zone.permits _) hgood hasked
      -- the macro starts in a store that the expansion has come to, so what
      -- it leaves alone has been left alone before
      have hnew : ¬ (s.prepared source n).expandingZone.writes d :=
        Nat.not_le.mpr (hsize.symm ▸ hd)
      exact (hpasses.2 d hnew).trans (hle.2 d hnew)

/-- Expansion leaves macros and program apart. -/
lemma expand (h : s.Apart) {out : Except Failure Node}
    (hrun : s.expand depth source = some (out, s')) : s'.Apart := by
  rcases expand_inv hrun with
    ⟨f, -, -, rfl⟩ | ⟨n, result, hn, -, -⟩
  · have hstore := heard_store source s
    exact h.of_same (heard_program source s) (heard_macros source s)
      (Nat.le_of_eq (by rw [hstore])) (fun _ _ _ => by rw [hstore])
      (hstore ▸ h.root)
  · obtain ⟨hapart, -, hmacros⟩ := h.prepared source n
    have hdefines := (defines_prepared source n s).2
    obtain ⟨hprogram, hmacros', hle, hsame⟩ := h.expand_frames hn hrun
    refine h.of_same hprogram hmacros' hle (fun d hd hne => ?_) ?_
    · exact (hsame d hd).trans (hdefines.others d hd hne)
    · obtain ⟨f, hf, hlies⟩ := hapart.root
      rw [hmacros] at hf hlies
      exact ⟨f, (hsame _ h.macros_lt).trans hf, hlies⟩

/-- **Other frames.**  An input is expanded alike, to a session that is alike,
whatever stands in the frames that there are besides that of the macros. -/
theorem expand_exchange (h : s.Apart)
    (hg : ∀ e, e = s.macros ∨ s.store.frames.size ≤ e → g e = id) :
    (s.changeStore (Store.exchange g)).expand depth source =
      (s.expand depth source).map
        fun p => (p.1, p.2.changeStore (Store.exchange g)) := by
  have himage : ((Regime.zone s.definingZone g).sessions #[]).image =
      Session.changeStore (Store.exchange g) := by
    funext t
    simp [Regime.sessions, Session.changeStore, Regime.zone]
  rw [← himage]
  exact (Zone.lawful hg).expand_image #[] (h.covers_defining hg)
    (Zone.admits .expand depth source s)

/-! ### Evaluation -/

/-- A program runs in the frames that its own one leads to and in new ones. -/
lemma asked_program (h : s.Apart) (n : Node) :
    (Regime.zone s.programZone fun _ => id).good s.store ∧
      (Regime.zone s.programZone fun _ => id).asked s.store
        (.eval n s.program) := by
  have hprogram : s.store.Reaches s.program s.program := .refl
  refine ⟨⟨Nat.le_refl _, ?_⟩,
    ⟨Or.inl hprogram, (h.reached _ hprogram).1⟩, trivial⟩
  rintro e f ⟨he | he, hlt⟩ hf
  · refine (Store.within_reaches s.store s.program e f he hf).mono ?_
    exact fun d hd => ⟨Or.inl hd, (h.reached d hd).1⟩
  · exact absurd hlt (Nat.not_lt.mpr he)

/-- **Evaluation.**  No store that a program passes has another frame of the
macros. -/
theorem passes_program (h : s.Apart) {n : Node} {store : Store}
    (hstore : Moment.Passes ⟨depth, .eval n s.program, s.store⟩ store) :
    store.frames[s.macros]? = s.store.frames[s.macros]? := by
  obtain ⟨hgood, hasked⟩ := h.asked_program n
  have hpasses := (Zone.lawful fun _ _ => rfl).le_of_passes hstore
    (Zone.permits _) hgood hasked
  refine hpasses.2 s.macros ?_
  rintro (hreached | hge)
  · exact (h.reached _ hreached).2 rfl
  · exact absurd h.macros_lt (Nat.not_lt.mpr hge)

/-- Evaluation leaves macros and program apart. -/
lemma eval (h : s.Apart) {n : Node} {result : Except Fault (Option Value)}
    {store : Store}
    (hrun : MonkeyLang.eval depth n s.program s.store = some (result, store)) :
    Apart { s with store } := by
  obtain ⟨hgood, hasked⟩ := h.asked_program n
  have hends := (Zone.lawful fun _ _ => rfl).ends
    (p := ⟨depth, .eval n s.program, s.store⟩)
    (Zone.permits _) hgood hasked
  have hle := hends.le hrun
  -- what the frame of the program leads to then lies in the zone, and that of
  -- the macros does not
  refine ⟨fun d hd => ?_, ?_⟩
  · have hlive : s.programZone.live store d := (hends.good hrun).2.of_reaches
      (Zone.live_mono hle.1 _ (Zone.live_of_writes hasked.1)) hd
    refine ⟨hlive.2, ?_⟩
    rcases hlive.1 with hreached | hge
    · exact (h.reached d hreached).2
    · exact Nat.ne_of_gt (Nat.lt_of_lt_of_le h.macros_lt hge)
  · obtain ⟨f, hf, hlies⟩ := h.root
    have hsame := h.passes_program (.ends .refl hrun)
    exact ⟨f, hsame.trans hf, hlies⟩

lemma evaluate (h : s.Apart) {out : Except Failure (Option Value)}
    (hrun : s.evaluate depth source = some (out, s')) : s'.Apart := by
  rcases evaluate_inv hrun with
    ⟨f, hexpand, -⟩ | ⟨n, t, result, store, hexpand, heval, -, rfl⟩
  · exact h.expand hexpand
  · exact (h.expand hexpand).eval heval

/-! ### The frame of the macros -/

/-- In no store that an input passes is the frame of the macros another one
than it is when the definitions of the input are bound. -/
theorem passes_macros (h : s.Apart) {n : Node}
    (hn : parsed source s.tracing = .ok n) {aim : Aim} {m : Moment}
    {store : Store} (hm : s.Begins aim depth source m)
    (hstore : m.Passes store) :
    store.frames[s.macros]? =
      (s.prepared source n).store.frames[s.macros]? := by
  cases hm with
  | body hk hcomes hcallee hargs hframe =>
      exact h.passes_body hn (.body hk hcomes hcallee hargs hframe) hstore
        h.macros_lt
  | @program k s₁ _ hexpand =>
      obtain ⟨-, hmacros, -, hsame⟩ := h.expand_frames hn hexpand
      have hkept := (h.expand hexpand).passes_program hstore
      rw [hmacros] at hkept
      exact hkept.trans (hsame _ h.macros_lt)

/-- Nor is it in the session that the input leads to. -/
theorem perform_macros (h : s.Apart) {n : Node}
    (hn : parsed source s.tracing = .ok n) {aim : Aim} {answer : Answer}
    (hrun : s.perform aim depth source = some (answer, s')) :
    s'.store.frames[s.macros]? =
      (s.prepared source n).store.frames[s.macros]? := by
  have hexpand : ∀ {out t}, s.expand depth source = some (out, t) →
      t.store.frames[s.macros]? =
        (s.prepared source n).store.frames[s.macros]? := fun hrun =>
    (h.expand_frames hn hrun).2.2.2 _ h.macros_lt
  cases aim with
  | expand =>
      obtain ⟨⟨out, t⟩, hrun, hout⟩ := Option.map_eq_some_iff.mp hrun
      cases hout
      exact hexpand hrun
  | evaluate =>
      obtain ⟨⟨out, t⟩, hrun, hout⟩ := Option.map_eq_some_iff.mp hrun
      cases hout
      rcases evaluate_inv hrun with
        ⟨f, hfailed, -⟩ | ⟨k, t, result, store, hok, heval, -, rfl⟩
      · exact hexpand hfailed
      · exact h.passes_macros hn (.program rfl hok) (.ends .refl heval)

end Apart

/-- In whatever session inputs lead to macros and program are apart. -/
theorem Led.apart {P : Aim → ℕ → String → Session → Prop} {s : Session}
    (h : Led P s) : s.Apart := by
  induction h with
  | start tracing =>
      have hempty : ∀ A : ℕ → Prop, Frame.LiesIn A ⟨[], none⟩ := fun A =>
        ⟨nofun, fun b hb => absurd hb List.not_mem_nil⟩
      have hwithin : (Session.start tracing).store.Within (· = 0) := by
        rintro e f rfl hf
        cases hf
        exact hempty _
      refine ⟨fun d hd => ?_, ⟨⟨[], none⟩, rfl, hempty _⟩⟩
      have hd : d = 0 := hwithin.of_reaches rfl hd
      rw [hd]
      exact ⟨Nat.zero_lt_two, Nat.zero_ne_one⟩
  | expand _ _ hrun ih => exact ih.expand hrun
  | evaluate _ _ hrun ih => exact ih.evaluate hrun
  | output _ printed events ih =>
      exact ih.of_same rfl rfl (Nat.le_refl _) (fun _ _ _ => rfl) ih.root

/-! ### Isolation -/

/-- What an input to a session leaves alone. -/
structure Isolated (depth : ℕ) (source : String) (s : Session) : Prop where
  /-- The frame of the macros is there, and the one of the program leads to
  other frames that are there. -/
  reached : s.macros < s.store.frames.size ∧
    ∀ d, s.store.Reaches s.program d →
      d < s.store.frames.size ∧ d ≠ s.macros
  /-- A rejected input changes nothing but what is recorded, and whatever
  follows is answered as if there had been no such input. -/
  rejected : ∀ aim ds s',
    s.perform aim depth source = some (.error (.rejected ds), s') →
      s'.unheard = s.unheard ∧ ∀ depth inputs,
        (performAll depth ((aim, source) :: inputs) s).map
            (fun p => (p.1, p.2.unheard)) =
          (performAll depth inputs s).map
            fun p => (.error (.rejected ds) :: p.1, p.2.unheard)
  /-- A rejected line of a dialogue is answered with what is wrong with it, and
  whatever is said behind it is as if there had been no such line. -/
  rejectedLine : ∀ ds s',
    s.perform .evaluate depth source = some (.error (.rejected ds), s') →
      s.store.printed = #[] → ∀ style prompt lines,
        (Dialogue.transcriptOf depth style prompt (source :: lines) s).map
            (fun p => (p.1, p.2.unheard)) =
          (Dialogue.transcriptOf depth style prompt lines s).map fun p =>
            (⟨prompt ++ Dialogue.failureText (.rejected ds) ++ p.1.text,
              p.1.broken⟩, p.2.unheard)
  /-- An input of which a macro fails changes no frame that the one of the
  program leads to, and in that of the macros binds what it defines, the last
  definition of each name. -/
  failed : ∀ aim fault s',
    s.perform aim depth source = some (.error (.expansion fault), s') →
      s'.program = s.program ∧ s'.macros = s.macros ∧
      (∀ d, s.store.Reaches s.program d →
        s'.store.frames[d]? = s.store.frames[d]?) ∧
      ∃ n, parsed source s.tracing = .ok n ∧
        s.store.Defines s.macros n.definitions s'.store
  /-- Macros read no frame that there was but their own: whatever stands in the
  others, an input is expanded alike, to a session that is alike. -/
  unread : ∀ g : ℕ → Frame → Frame,
    (∀ e, e = s.macros ∨ s.store.frames.size ≤ e → g e = id) →
      (s.changeStore (Store.exchange g)).expand depth source =
        (s.expand depth source).map
          fun p => (p.1, p.2.changeStore (Store.exchange g))
  /-- Macros write to none of them, be it for a moment. -/
  unwritten : ∀ m store, s.Begins .expand depth source m → m.Passes store →
    ∀ d, d < s.store.frames.size → d ≠ s.macros →
      store.frames[d]? = s.store.frames[d]?
  /-- In the frame of the macros the definitions of the input are bound before
  anything runs, and then neither macros nor the program change it. -/
  kept : ∀ n, parsed source s.tracing = .ok n →
    s.store.Defines s.macros n.definitions (s.prepared source n).store ∧
    (∀ aim m store, s.Begins aim depth source m → m.Passes store →
      store.frames[s.macros]? =
        (s.prepared source n).store.frames[s.macros]?) ∧
    ∀ aim answer s', s.perform aim depth source = some (answer, s') →
      s'.store.frames[s.macros]? =
        (s.prepared source n).store.frames[s.macros]?

/-- **Isolation.**  In every session, whatever inputs it was given before,
failed inputs leave the program as it was, and macros and the program stay
apart. -/
theorem Led.isolated {s : Session} (h : Led (fun _ _ _ _ => True) s)
    (depth : ℕ) (source : String) : s.Isolated depth source where
  reached := ⟨h.apart.macros_lt, h.apart.reached⟩
  rejected aim ds s' hrun := by
    obtain ⟨hparsed, rfl⟩ := perform_inv_rejected hrun
    exact ⟨unheard_heard source s,
      fun depth inputs => performAll_of_rejected hparsed inputs⟩
  rejectedLine ds s' hrun hprinted style prompt lines :=
    Dialogue.transcriptOf_of_rejected (perform_inv_rejected hrun).1 hprinted
      lines
  failed aim fault s' hrun := by
    obtain ⟨n, hn, -⟩ := perform_inv_expansion hrun
    have hdefines := (defines_prepared source n s).2
    obtain ⟨hprogram, hmacros, hle, hsame⟩ :=
      h.apart.expand_frames hn (perform_inv_error hrun)
    -- expansion may have opened frames, but it binds nothing in those that were
    -- there
    have hdefined := hdefines.mono h.apart.macros_lt hle hsame
    refine ⟨hprogram, hmacros, fun d hd => ?_, n, hn, hdefined⟩
    obtain ⟨hlt, hne⟩ := h.apart.reached d hd
    exact hdefined.others d hlt hne
  unread g hg := h.apart.expand_exchange hg
  unwritten m store hm hstore d hlt hne := by
    obtain ⟨n, hn⟩ : ∃ n, parsed source s.tracing = .ok n := by
      cases hm with
      | body hn => exact ⟨_, hn⟩
      | program haim => cases haim
    have hdefines := (defines_prepared source n s).2
    -- bodies of macros run in frames of their own, and the program's are not
    -- among those that they lead to
    exact (h.apart.passes_body hn hm hstore hlt).trans
      (hdefines.others d hlt hne)
  kept n hn :=
    ⟨(defines_prepared source n s).2,
      fun _ _ _ hm hstore => h.apart.passes_macros hn hm hstore,
      fun _ _ _ hrun => h.apart.perform_macros hn hrun⟩

/-- An input whose macro fails after it has bound a name of the program. -/
def failingMacro : String :=
  "let m = macro() \x7b let a = 2; 1 \x7d; let b = 3; m()"

/-- A rejected input and a failed one behind one that binds a name. -/
theorem Led.isolated_failingMacro : ∃ s ds rejected failed,
    Led (fun _ _ _ _ => True) s ∧
    s.store.lookup s.program "a" = some (.integer 1) ∧
    s.perform .evaluate 20 "let a = ;" =
      some (.error (.rejected ds), rejected) ∧
    s.perform .evaluate 20 failingMacro =
      some (.error (.expansion .noSyntax), failed) ∧
    s.Isolated 20 "let a = ;" ∧ s.Isolated 20 failingMacro := by
  obtain ⟨out, s, hrun, hbound, ds, rejected, hrejected, failed, hfailed⟩ :
      ∃ out s, (Session.start false).evaluate 20 "let a = 1;" = some (out, s) ∧
        s.store.lookup s.program "a" = some (.integer 1) ∧
        ∃ ds rejected, s.perform .evaluate 20 "let a = ;" =
          some (.error (.rejected ds), rejected) ∧
        ∃ failed, s.perform .evaluate 20 failingMacro =
          some (.error (.expansion .noSyntax), failed) :=
    ⟨_, _, rfl, rfl, _, _, rfl, _, rfl⟩
  have hled : Led (fun _ _ _ _ => True) s := .evaluate (.start false) trivial
    hrun
  exact ⟨s, ds, rejected, failed, hled, hbound, hrejected, hfailed,
    Led.isolated hled 20 _, Led.isolated hled 20 _⟩

end Session

end MonkeyLang

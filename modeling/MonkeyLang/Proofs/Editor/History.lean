/-
What a server has of a document after a history of notifications.

* `Notification.about`, `Notification.sinceAbsent`, `Notification.given`: the
  notifications about a document, those since it was last absent, and the last
  text that these brought;
* `get?_receive`, `shown?_receive`: what one notification does to the document
  it is about and what it publishes; other documents stay;
* `Server.Keeps`: text, index and published faults in step with a history;
* `Server.keeps_after`: so they are after every history.
-/
import MonkeyLang.Editor.Message
import MonkeyLang.Proofs.Bindings
import Mathlib.Data.List.DropRight

namespace MonkeyLang

open Editor

/-! ### Histories -/

namespace Notification

/-- Whether a document is closed. -/
def closes : Notification → Bool
  | closed _ => true
  | _ => false

/-- The text that a notification brings, if it brings one: the whole text of
the last change. -/
def text? : Notification → Option String
  | opened _ text => some text
  | changed _ texts => texts.getLast?
  | closed _ => none

variable (uri : String) (ns : List Notification) (n : Notification)

/-- The notifications about a document. -/
def about : List Notification := ns.filter (·.uri = uri)

/-- Those behind the last one that closed it, or all of them. -/
def sinceAbsent : List Notification := (about uri ns).rtakeWhile (!·.closes)

/-- The last text that was given for a document since it was absent. -/
def given : String :=
  ((sinceAbsent uri ns).filterMap text?).getLast?.getD ""

variable {uri n}

lemma about_concat : about uri (ns ++ [n]) =
    if n.uri = uri then about uri ns ++ [n] else about uri ns := by
  rw [about, List.filter_append, List.filter_singleton, ← about]
  split <;> simp_all

lemma sinceAbsent_concat (hn : n.uri = uri) : sinceAbsent uri (ns ++ [n]) =
    if n.closes then [] else sinceAbsent uri ns ++ [n] := by
  rw [sinceAbsent, about_concat, if_pos hn, List.rtakeWhile_concat,
    ← sinceAbsent]
  cases n.closes <;> rfl

/-- There is such a notification if the last one about the document does not
close it. -/
lemma sinceAbsent_ne_nil_iff : sinceAbsent uri ns ≠ [] ↔
    ∃ n, (about uri ns).getLast? = some n ∧ n.closes = false := by
  rw [sinceAbsent, Ne, List.rtakeWhile_eq_nil_iff]
  constructor
  · intro h
    push Not at h
    obtain ⟨hne, hopen⟩ := h
    exact ⟨_, List.getLast?_eq_some_getLast hne, by simpa using hopen⟩
  · rintro ⟨n, hlast, hopen⟩ h
    obtain ⟨before, hbefore⟩ := List.getLast?_eq_some_iff.mp hlast
    refine h (by simp [hbefore]) ?_
    simp [hbefore, hopen]

/-- A notification that brings no text leaves the last one. -/
lemma given_concat (hn : n.uri = uri) (hopen : n.closes = false) :
    given uri (ns ++ [n]) = n.text?.getD (given uri ns) := by
  rw [given, sinceAbsent_concat ns hn, hopen, if_neg Bool.false_ne_true,
    List.filterMap_append]
  cases htext : n.text? <;> simp [htext, given]

end Notification

/-! ### Single notifications -/

/-- The faults that are published for a document. -/
def Document.notices (d : Document) : List Notice :=
  d.index.diagnostics.map .ofDiagnostic

namespace Server

open Notification

variable (s : Server) (n : Notification) (uri : String)

/-- What becomes of a document by a notification about it. -/
def next (d? : Option Document) : Option Document :=
  if n.closes then none
  else some (.ofText (n.text?.getD ((d?.map (·.text)).getD "")))

/-- A notification changes the document that it is about, and no other. -/
lemma get?_receive : (s.receive n).documents.get? uri =
    if n.uri = uri then next n (s.documents.get? uri)
    else s.documents.get? uri := by
  by_cases hn : n.uri = uri
  · subst hn
    rw [if_pos rfl]
    cases n with
    | opened uri text =>
        exact (Bindings.get?_set uri uri _ _).trans (if_pos rfl)
    | changed uri texts =>
        exact (Bindings.get?_set uri uri _ _).trans (if_pos rfl)
    | closed uri =>
        exact (Bindings.get?_filter_ne uri uri _).trans (if_pos rfl)
  · rw [if_neg hn]
    cases n with
    | opened uri' text =>
        exact (Bindings.get?_set uri' uri _ _).trans (if_neg hn)
    | changed uri' texts =>
        exact (Bindings.get?_set uri' uri _ _).trans (if_neg hn)
    | closed uri' =>
        exact (Bindings.get?_filter_ne uri' uri _).trans (if_neg hn)

/-- What is published for a document: its faults, or none once it is closed. -/
lemma published_receive : (s.receive n).published = s.published ++
    [⟨n.uri, ((s.receive n).documents.get? n.uri).elim [] Document.notices⟩] := by
  rw [get?_receive, if_pos rfl]
  cases n <;> rfl

lemma shown?_receive : (s.receive n).shown? uri =
    if n.uri = uri then
      some (((s.receive n).documents.get? uri).elim [] Document.notices)
    else s.shown? uri := by
  rw [shown?, published_receive, List.filter_append, List.filter_singleton]
  by_cases hn : n.uri = uri
  · simp [hn]
  · simp [hn, shown?]

/-! ### Whole histories -/

lemma after_concat (ns : List Notification) :
    after (ns ++ [n]) = (after ns).receive n :=
  List.foldl_concat ..

variable (ns : List Notification)

/-- The document that is open after a history, by what the history says of
it. -/
lemma get?_after : (after ns).documents.get? uri =
    if sinceAbsent uri ns = [] then none
    else some (.ofText (given uri ns)) := by
  induction ns using List.reverseRecOn with
  | nil => rfl
  | append_singleton ns n ih =>
      rw [after_concat, get?_receive, ih]
      by_cases hn : n.uri = uri
      · rw [if_pos hn, next, sinceAbsent_concat ns hn]
        cases hopen : n.closes with
        | true => rfl
        | false =>
            rw [given_concat ns hn hopen]
            by_cases habsent : sinceAbsent uri ns = []
            · simp [habsent, given]
            · simp [habsent, Document.ofText]
      · rw [if_neg hn, given, given, sinceAbsent, sinceAbsent, about_concat,
          if_neg hn]

variable {uri ns} in
lemma eq_of_get?_after {d : Document}
    (h : (after ns).documents.get? uri = some d) :
    d = .ofText (given uri ns) := by
  rw [get?_after] at h
  split at h
  · cases h
  · exact (Option.some.inj h).symm

/-- A document is open if the last notification about it did not close it. -/
lemma mem_keys_after : uri ∈ Bindings.keys (after ns).documents ↔
    ∃ n, (about uri ns).getLast? = some n ∧ n.closes = false := by
  rw [← sinceAbsent_ne_nil_iff, ← Bindings.isSome_get?, get?_after]
  split <;> simp_all

variable {uri ns} in
lemma get?_after_eq_none {n : Notification}
    (hlast : (about uri ns).getLast? = some n) (hclosed : n.closes = true) :
    (after ns).documents.get? uri = none := by
  rw [← Option.not_isSome_iff_eq_none, Bindings.isSome_get?, mem_keys_after]
  rintro ⟨n', hlast', hopen⟩
  simp_all

/-- The faults that are shown after it. -/
lemma shown?_after : (after ns).shown? uri =
    (about uri ns).getLast?.map fun _ =>
      ((after ns).documents.get? uri).elim [] Document.notices := by
  induction ns using List.reverseRecOn with
  | nil => rfl
  | append_singleton ns n ih =>
      rw [after_concat, shown?_receive, about_concat]
      by_cases hn : n.uri = uri
      · rw [if_pos hn, if_pos hn, List.getLast?_concat, Option.map_some]
      · rw [if_neg hn, if_neg hn, get?_receive, if_neg hn, ih]

/-- What a server has of a document is in step with the history: the document
is open if the last notification about it did not close it; its text is the
last one that was given since it was absent, its index is that of the text, and
the faults that are shown are those of the index, or none once it is closed. -/
structure Keeps (s : Server) (ns : List Notification) (uri : String) :
    Prop where
  stored : uri ∈ Bindings.keys s.documents ↔
    ∃ n, (about uri ns).getLast? = some n ∧ n.closes = false
  text : ∀ d, s.documents.get? uri = some d → d.text = given uri ns
  index : ∀ d, s.documents.get? uri = some d → d.index = .ofText d.text
  shown : ∀ d, s.documents.get? uri = some d →
    s.shown? uri = some (d.index.diagnostics.map .ofDiagnostic)
  withdrawn : ∀ n, (about uri ns).getLast? = some n → n.closes = true →
    s.shown? uri = some []

/-- **In step with the editor.**  After every history of notifications the
server is in step with it for every document, and a notification about another
document changes neither what is stored nor what is shown for this one. -/
theorem keeps_after : (after ns).Keeps ns uri ∧
    ∀ n, n.uri ≠ uri →
      (after (ns ++ [n])).documents.get? uri =
          (after ns).documents.get? uri ∧
        (after (ns ++ [n])).shown? uri = (after ns).shown? uri := by
  refine ⟨?_, fun n hn => ?_⟩
  · exact {
      stored := mem_keys_after uri ns
      text := fun d hd => by rw [eq_of_get?_after hd]; rfl
      index := fun d hd => by rw [eq_of_get?_after hd]; rfl
      shown := fun d hd => by
        obtain ⟨n, hlast, -⟩ := (mem_keys_after uri ns).mp
          (by simp [← Bindings.isSome_get?, hd])
        rw [shown?_after, hlast, hd]
        rfl
      withdrawn := fun n hlast hclosed => by
        rw [shown?_after, hlast, get?_after_eq_none hlast hclosed]
        rfl }
  · rw [after_concat, get?_receive, shown?_receive, if_neg hn, if_neg hn]
    exact ⟨rfl, rfl⟩

end Server

end MonkeyLang

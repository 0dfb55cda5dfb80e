/-
Where a layout breaks a value over lines.

* `onOneLine`, `overLines`: the two ways to write parts between two signs, of
  which `enclosed` takes one;
* `enclosed_of_oneLine`: parts that end no line were found to fit;
* `height`: how deep values lie in a value; `Limit.Exceeds.nested`: a limit above
  it is above all depths in the value;
* `Shallow`: at a depth no value in a value lies too deep;
* `layout_of_oneLine`: what is laid out of such a value on one line is its text;
* `squeeze`: a text without blanks and line ends;
* `squeeze_layout`: without them, a value in which nothing is left out is laid
  out as its text.
-/
import MonkeyLang.Proofs.Display.OneLine
import Mathlib.Data.List.Forall2

namespace MonkeyLang.Display

open List (Forall₂)

/-! ### Texts with separators in between -/

/-- A relation of texts that passes to texts in a row passes to texts with
separators in between. -/
lemma rel_intercalate (R : List Char → List Char → Prop) {sep sep' : String}
    (hnil : R [] [])
    (happend : ∀ {t u t' u'}, R t u → R t' u' → R (t ++ t') (u ++ u'))
    (hsep : R sep.toList sep'.toList) {ts us : List String}
    (h : Forall₂ (fun t u => R t.toList u.toList) ts us) :
    R (sep.intercalate ts).toList (sep'.intercalate us).toList := by
  induction h with
  | nil => exact hnil
  | @cons t u ts us ht hts ih =>
      cases hts with
      | nil => simpa [String.intercalate_singleton] using ht
      | @cons t' u' ts us ht' hts =>
          rw [String.intercalate_cons_cons, String.intercalate_cons_cons]
          simp only [String.toList_append]
          exact happend (happend ht hsep) ih

/-- The margin is made of blanks. -/
lemma toList_margin (indent : ℕ) :
    (margin indent).toList = List.replicate (2 * indent) ' ' := by
  rw [margin, String.pushn_eq_repeat_push]
  induction 2 * indent with
  | zero => rfl
  | succ n ih =>
      rw [Nat.repeat, String.toList_push, ih, ← List.replicate_succ']

/-! ### One line or several -/

/-- Parts between two signs, on one line. -/
def onOneLine (opening closing : String) (parts : List String) : String :=
  opening ++ String.intercalate ", " parts ++ closing

/-- Parts between two signs, one a line. -/
def overLines (indent : ℕ) (opening closing : String) (parts : List String) :
    String :=
  opening ++ "\n" ++
    String.intercalate ",\n" (parts.map (margin (indent + 1) ++ ·)) ++
    "\n" ++ margin indent ++ closing

lemma enclosed_eq_ite (style : Style) (indent : ℕ)
    (plain opening closing : String) (parts : List String) :
    enclosed style indent plain opening closing parts =
      if '\n' ∉ (onOneLine opening closing parts).toList ∧
          style.fits (plain.length + 2 * indent) = true then
        onOneLine opening closing parts
      else overLines indent opening closing parts := by
  simp [enclosed, onOneLine, overLines]

lemma newline_mem_overLines (indent : ℕ) (opening closing : String)
    (parts : List String) :
    '\n' ∈ (overLines indent opening closing parts).toList := by
  simp [overLines]

/-- Parts that end no line were found to fit. -/
lemma enclosed_of_oneLine {style : Style} {indent : ℕ}
    {plain opening closing : String} {parts : List String}
    (h : '\n' ∉ (enclosed style indent plain opening closing parts).toList) :
    style.fits (plain.length + 2 * indent) = true ∧
      enclosed style indent plain opening closing parts =
        onOneLine opening closing parts ∧
      ∀ part ∈ parts, '\n' ∉ part.toList := by
  rw [enclosed_eq_ite] at h ⊢
  split_ifs at h ⊢ with hline
  · refine ⟨hline.2, rfl, fun part hpart hmem => h ?_⟩
    have hinner := (infix_intercalate ", " hpart).subset hmem
    simp only [onOneLine, String.toList_append, List.mem_append, hinner, or_true,
      true_or]
  · exact absurd (newline_mem_overLines ..) h

/-- Parts that do are written one a line. -/
lemma enclosed_of_overLines {style : Style} {indent : ℕ}
    {plain opening closing : String} {parts : List String}
    (h : '\n' ∈ (enclosed style indent plain opening closing parts).toList) :
    enclosed style indent plain opening closing parts =
      overLines indent opening closing parts := by
  rw [enclosed_eq_ite] at h ⊢
  split_ifs at h ⊢ with hline
  · exact absurd h hline.1
  · rfl

/-! ### Shallow values -/

mutual

/-- How deep values lie in a value. -/
def height : Value → ℕ
  | .array vs => heights vs
  | .hash es => entryHeights es
  | _ => 0

/-- How deep values lie in an array with these members. -/
def heights : List Value → ℕ
  | [] => 0
  | v :: vs => max (height v + 1) (heights vs)

/-- How deep values lie in a hash with these entries. -/
def entryHeights : List (HashKey × Value × Value) → ℕ
  | [] => 0
  | (_, k, v) :: es => max (max (height k) (height v) + 1) (entryHeights es)

end

lemma height_lt_heights {vs : List Value} {v : Value} (hv : v ∈ vs) :
    height v < heights vs := by
  induction vs with
  | nil => cases hv
  | cons u vs ih =>
      rw [heights]
      rcases List.mem_cons.mp hv with rfl | hv
      · omega
      · have := ih hv
        omega

lemma height_lt_entryHeights {es : List (HashKey × Value × Value)}
    {p : HashKey × Value × Value} (hp : p ∈ es) :
    height p.2.1 < entryHeights es ∧ height p.2.2 < entryHeights es := by
  induction es with
  | nil => cases hp
  | cons q es ih =>
      obtain ⟨k, u, w⟩ := q
      rw [entryHeights]
      rcases List.mem_cons.mp hp with rfl | hp
      · dsimp only
        omega
      · have := ih hp
        omega

/-- Nothing lies deeper in a value. -/
lemma le_height {v w : Value} {depth : ℕ} (h : v.Nested depth w) :
    depth ≤ height v := by
  induction h with
  | self => exact Nat.zero_le _
  | element hv _ ih => exact ih.trans_lt (height_lt_heights hv)
  | key hp _ ih => exact ih.trans_lt (height_lt_entryHeights hp).1
  | content hp _ ih => exact ih.trans_lt (height_lt_entryHeights hp).2

/-- A limit above the height of a value is above all depths in it. -/
lemma Limit.Exceeds.nested {l : Limit} {v : Value} (h : l.Exceeds (height v)) :
    ∀ depth w, v.Nested depth w → l.Exceeds depth := by
  intro depth w hw
  have hle := le_height hw
  cases l with
  | number n =>
      change (height v : ℤ) < n at h
      change (depth : ℤ) < n
      omega
  | unlimited => trivial
  | invalid => exact h

/-- At a depth no value in a value lies too deep. -/
def Shallow (style : Style) (depth : ℕ) (v : Value) : Prop :=
  ∀ d w, v.Nested d w → style.depth.Exceeds (depth + d)

namespace Shallow

variable {style : Style} {depth : ℕ}

lemma omits_eq {v : Value} (h : Shallow style depth v) :
    style.omits depth = false :=
  Style.omits_eq (h 0 v (.self v))

/-- What lies one step deeper in a shallow value is shallow there. -/
lemma part {v w : Value} (h : Shallow style depth v)
    (hnested : ∀ d x, w.Nested d x → v.Nested (d + 1) x) :
    Shallow style (depth + 1) w := by
  intro d x hx
  rw [show depth + 1 + d = depth + (d + 1) by omega]
  exact h (d + 1) x (hnested d x hx)

lemma element {vs : List Value} {v : Value}
    (h : Shallow style depth (.array vs)) (hv : v ∈ vs) :
    Shallow style (depth + 1) v :=
  h.part fun _ _ => .element hv

lemma key {es : List (HashKey × Value × Value)} {p : HashKey × Value × Value}
    (h : Shallow style depth (.hash es)) (hp : p ∈ es) :
    Shallow style (depth + 1) p.2.1 :=
  h.part fun _ _ => .key hp

lemma content {es : List (HashKey × Value × Value)}
    {p : HashKey × Value × Value} (h : Shallow style depth (.hash es))
    (hp : p ∈ es) : Shallow style (depth + 1) p.2.2 :=
  h.part fun _ _ => .content hp

end Shallow

/-- **What is laid out on one line is the text**, if nothing is left out and no
color put on. -/
theorem layout_of_oneLine {style : Style} (hplain : style.IsPlain) {v : Value} :
    ∀ {depth indent : ℕ}, Shallow style depth v →
      '\n' ∉ (layout style depth indent v).toList →
      layout style depth indent v = v.text := by
  -- by induction over the value, at every depth: if the whole stands on one
  -- line, so do its parts
  induction v using Value.induct with
  | array vs ih =>
    intro depth indent h hline
    rw [layout, h.omits_eq, if_neg Bool.false_ne_true] at hline ⊢
    obtain ⟨-, heq, hparts⟩ := enclosed_of_oneLine hline
    rw [layouts_eq_map] at heq hparts
    have htexts : vs.map (layout style (depth + 1) (indent + 1)) =
        vs.map Value.text :=
      List.map_congr_left fun v hv => ih v hv (h.element hv)
        (hparts _ (List.mem_map_of_mem hv))
    rw [layouts_eq_map, heq, htexts, ← Value.texts_eq_map, onOneLine, Value.text]
  | hash es ih =>
    intro depth indent h hline
    rw [layout, h.omits_eq, if_neg Bool.false_ne_true] at hline ⊢
    obtain ⟨-, heq, hparts⟩ := enclosed_of_oneLine hline
    rw [entryLayouts_eq_map] at heq hparts
    have htexts : (es.map fun p => layout style (depth + 1) (indent + 1) p.2.1 ++
          ": " ++ layout style (depth + 1) (indent + 1) p.2.2) =
        es.map Value.entryText := by
      refine List.map_congr_left fun p hp => ?_
      have hentry := hparts _ (List.mem_map_of_mem hp)
      simp only [String.toList_append, List.mem_append, not_or] at hentry
      rw [(ih p hp).1 (h.key hp) hentry.1.1,
        (ih p hp).2 (h.content hp) hentry.2, Value.entryText]
    rw [entryLayouts_eq_map, heq, htexts, ← Value.entryTexts_eq_map, onOneLine,
      Value.text]
  | _ =>
    intro depth indent h _
    simp only [layout, h.omits_eq, Bool.false_eq_true, if_false]
    exact hplain.paint_eq _

/-! ### Blanks and line ends -/

/-- A text without its blanks and line ends. -/
def squeeze (cs : List Char) : List Char :=
  cs.filter fun c => c ≠ ' ' && c ≠ '\n'

lemma squeeze_append (cs ds : List Char) :
    squeeze (cs ++ ds) = squeeze cs ++ squeeze ds :=
  List.filter_append cs ds

lemma squeeze_margin (indent : ℕ) : squeeze (margin indent).toList = [] := by
  rw [toList_margin, squeeze, List.filter_eq_nil_iff]
  intro c hc
  rw [List.eq_of_mem_replicate hc]
  decide

/-- Nothing but blanks and line ends tells apart the two ways to write parts
between two signs. -/
lemma squeeze_enclosed (style : Style) (indent : ℕ)
    (plain opening closing : String) {parts texts : List String}
    (hparts : Forall₂ (fun p t => squeeze p.toList = squeeze t.toList)
      parts texts) :
    squeeze (enclosed style indent plain opening closing parts).toList =
      squeeze (onOneLine opening closing texts).toList := by
  have happend : ∀ {t u t' u' : List Char}, squeeze t = squeeze u →
      squeeze t' = squeeze u' → squeeze (t ++ t') = squeeze (u ++ u') := by
    intro t u t' u' h h'
    rw [squeeze_append, squeeze_append, h, h']
  rw [enclosed_eq_ite]
  split_ifs
  · have hline : squeeze (String.intercalate ", " parts).toList =
        squeeze (String.intercalate ", " texts).toList :=
      rel_intercalate (squeeze · = squeeze ·) rfl happend rfl hparts
    simp only [onOneLine, String.toList_append, squeeze_append, hline]
  · have hlines : Forall₂ (fun p t => squeeze p.toList = squeeze t.toList)
        (parts.map (margin (indent + 1) ++ ·)) texts := by
      rw [List.forall₂_map_left_iff]
      refine hparts.imp fun p t hp => ?_
      rw [String.toList_append, squeeze_append, squeeze_margin, hp,
        List.nil_append]
    have hsep : squeeze ",\n".toList = squeeze ", ".toList := by decide
    have hbroken : squeeze (String.intercalate ",\n"
          (parts.map (margin (indent + 1) ++ ·))).toList =
        squeeze (String.intercalate ", " texts).toList :=
      rel_intercalate (squeeze · = squeeze ·) rfl happend hsep hlines
    have hbreak : squeeze "\n".toList = [] := by decide
    simp only [onOneLine, overLines, String.toList_append, squeeze_append,
      squeeze_margin, hbroken, hbreak, List.append_nil]

/-- **Layout adds blanks and line ends only**: without these, a value in which
nothing is left out is laid out as its text. -/
theorem squeeze_layout {style : Style} (hplain : style.IsPlain) {v : Value} :
    ∀ {depth indent : ℕ}, Shallow style depth v →
      squeeze (layout style depth indent v).toList = squeeze v.text.toList := by
  induction v using Value.induct with
  | array vs ih =>
    intro depth indent h
    rw [layout, h.omits_eq, if_neg Bool.false_ne_true, Value.text]
    refine squeeze_enclosed _ _ _ _ _ ?_
    rw [layouts_eq_map, Value.texts_eq_map, List.forall₂_map_left_iff,
      List.forall₂_map_right_iff, List.forall₂_same]
    exact fun v hv => ih v hv (h.element hv)
  | hash es ih =>
    intro depth indent h
    rw [layout, h.omits_eq, if_neg Bool.false_ne_true, Value.text]
    refine squeeze_enclosed _ _ _ _ _ ?_
    rw [entryLayouts_eq_map, Value.entryTexts_eq_map,
      List.forall₂_map_left_iff, List.forall₂_map_right_iff, List.forall₂_same]
    intro p hp
    simp only [Value.entryText, String.toList_append, squeeze_append,
      (ih p hp).1 (h.key hp), (ih p hp).2 (h.content hp)]
  | _ =>
    intro depth indent h
    simp only [layout, h.omits_eq, Bool.false_eq_true, if_false]
    rw [hplain.paint_eq]

end MonkeyLang.Display

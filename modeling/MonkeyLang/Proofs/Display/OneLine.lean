/-
Values that fit on one line are shown as their text.

* `Value.Nested`: a value lies in another one at a depth;
* `Limit.Exceeds`, `Limit.Admits`: a limit is above a depth, and a length
  stays within one;
* `Flat`: no value lies too deep, and the text is one line that fits;
* `Flat.element`, `Flat.key`, `Flat.content`: the parts of a flat value are
  flat where they stand, one step deeper and further in;
* `Flat.layout_eq`: what is laid out of a flat value is its text;
* `shown_eq_text`: without colors, such a value is shown as its text.
-/
import MonkeyLang.Display.Layout
import Mathlib.Data.List.Infix

namespace MonkeyLang

/-! ### Texts of parts -/

/-- A text between separators is a stretch of the whole. -/
lemma infix_intercalate (sep : String) {t : String} :
    ∀ {ts : List String}, t ∈ ts → t.toList <:+: (sep.intercalate ts).toList
  | [], h => by simp at h
  | [u], h => by
      rw [List.mem_singleton.mp h, String.intercalate_singleton]
  | u :: u' :: us, h => by
      rw [String.intercalate_cons_cons, String.toList_append, String.toList_append]
      rcases List.mem_cons.mp h with rfl | h
      · exact ((List.prefix_append _ _).trans (List.prefix_append _ _)).isInfix
      · exact (infix_intercalate sep h).trans (List.suffix_append _ _).isInfix

/-! ### Values in values -/

namespace Value

/-- A value lies in another one at a depth: each value in itself at depth 0,
what lies in a member of an array or in a key or a value of a hash one step
deeper. -/
inductive Nested : Value → ℕ → Value → Prop
  | self (v : Value) : Nested v 0 v
  | element {vs : List Value} {v w : Value} {depth : ℕ} (hv : v ∈ vs)
      (hw : Nested v depth w) : Nested (array vs) (depth + 1) w
  | key {es : List (HashKey × Value × Value)} {p : HashKey × Value × Value}
      {w : Value} {depth : ℕ} (hp : p ∈ es) (hw : Nested p.2.1 depth w) :
      Nested (hash es) (depth + 1) w
  | content {es : List (HashKey × Value × Value)}
      {p : HashKey × Value × Value} {w : Value} {depth : ℕ} (hp : p ∈ es)
      (hw : Nested p.2.2 depth w) : Nested (hash es) (depth + 1) w

lemma toList_text_array (vs : List Value) :
    (array vs).text.toList =
      '[' :: ((String.intercalate ", " (vs.map text)).toList ++ [']']) := by
  rw [text, texts_eq_map, String.toList_append, String.toList_append]
  rfl

lemma toList_text_hash (es : List (HashKey × Value × Value)) :
    (hash es).text.toList =
      '\x7b' :: ((String.intercalate ", " (es.map entryText)).toList ++ ['\x7d']) := by
  rw [text, entryTexts_eq_map, String.toList_append, String.toList_append]
  rfl

lemma toList_entryText (p : HashKey × Value × Value) :
    (entryText p).toList =
      p.2.1.text.toList ++ (": ".toList ++ p.2.2.text.toList) := by
  rw [entryText, String.toList_append, String.toList_append, List.append_assoc]

end Value

namespace Display

/-! ### Limits -/

namespace Limit

/-- A limit is above a depth. -/
def Exceeds : Limit → ℕ → Prop
  | number n, depth => (depth : ℤ) < n
  | unlimited, _ => True
  | invalid, _ => False

/-- A length stays within a limit. -/
def Admits : Limit → ℕ → Prop
  | number n, length => (length : ℤ) ≤ n
  | unlimited, _ => True
  | invalid, _ => False

instance : (l : Limit) → (depth : ℕ) → Decidable (l.Exceeds depth)
  | number n, depth => inferInstanceAs (Decidable ((depth : ℤ) < n))
  | unlimited, _ => instDecidableTrue
  | invalid, _ => instDecidableFalse

instance : (l : Limit) → (length : ℕ) → Decidable (l.Admits length)
  | number n, length => inferInstanceAs (Decidable ((length : ℤ) ≤ n))
  | unlimited, _ => instDecidableTrue
  | invalid, _ => instDecidableFalse

/-- Shorter lines stay within a limit, too. -/
lemma Admits.mono {l : Limit} {m n : ℕ} (hmn : m ≤ n) (h : l.Admits n) :
    l.Admits m := by
  cases l with
  | number k =>
    change (m : ℤ) ≤ k
    change (n : ℤ) ≤ k at h
    omega
  | unlimited => trivial
  | invalid => exact h

end Limit

/-- What lies above no limit is not left out. -/
lemma Style.omits_eq {style : Style} {depth : ℕ} (h : style.depth.Exceeds depth) :
    style.omits depth = false := by
  unfold Style.omits
  cases hl : style.depth with
  | number n =>
    rw [hl] at h
    change (depth : ℤ) < n at h
    simpa using h
  | unlimited => rfl
  | invalid => rfl

/-- A line within the limit fits. -/
lemma Style.fits_eq {style : Style} {length : ℕ}
    (h : style.lineLength.Admits length) : style.fits length = true := by
  unfold Style.fits
  cases hl : style.lineLength with
  | number n =>
    rw [hl] at h
    exact decide_eq_true h
  | unlimited => rfl
  | invalid => rfl

/-! ### Flat values -/

/-- At a depth and an indentation no value in a value lies too deep, and its
text is one line that fits. -/
structure Flat (style : Style) (depth indent : ℕ) (v : Value) : Prop where
  shallow : ∀ d w, v.Nested d w → style.depth.Exceeds (depth + d)
  oneLine : '\n' ∉ v.text.toList
  fits : style.lineLength.Admits (v.text.length + 2 * indent)

namespace Flat

variable {style : Style} {depth indent : ℕ}

/-- What stands between two signs in a flat value is flat one step deeper and
further in: the two blanks of the margin are no more than the two signs. -/
lemma part {v w : Value} {inner : List Char} {opening closing : Char}
    (h : Flat style depth indent v)
    (htext : v.text.toList = opening :: (inner ++ [closing]))
    (hinner : w.text.toList <:+: inner)
    (hnested : ∀ d x, w.Nested d x → v.Nested (d + 1) x) :
    Flat style (depth + 1) (indent + 1) w where
  shallow d x hx := by
    have := h.shallow (d + 1) x (hnested d x hx)
    rwa [show depth + 1 + d = depth + (d + 1) by omega]
  oneLine hmem := by
    refine h.oneLine ?_
    rw [htext]
    simp [hinner.subset hmem]
  fits := by
    have hv : v.text.length = inner.length + 2 := by
      rw [← String.length_toList, htext]
      simp
    have hw : w.text.length ≤ inner.length := by
      rw [← String.length_toList]
      exact hinner.length_le
    exact h.fits.mono (by omega)

/-- A member of a flat array. -/
lemma element {vs : List Value} {v : Value}
    (h : Flat style depth indent (.array vs)) (hv : v ∈ vs) :
    Flat style (depth + 1) (indent + 1) v :=
  h.part (Value.toList_text_array vs)
    (infix_intercalate _ (List.mem_map_of_mem hv)) fun _ _ => .element hv

/-- A key of a flat hash. -/
lemma key {es : List (HashKey × Value × Value)} {p : HashKey × Value × Value}
    (h : Flat style depth indent (.hash es)) (hp : p ∈ es) :
    Flat style (depth + 1) (indent + 1) p.2.1 := by
  refine h.part (Value.toList_text_hash es) ?_ fun _ _ => .key hp
  have hentry := infix_intercalate ", " (List.mem_map_of_mem (f := Value.entryText) hp)
  rw [Value.toList_entryText] at hentry
  exact (List.prefix_append _ _).isInfix.trans hentry

/-- A value of a flat hash. -/
lemma content {es : List (HashKey × Value × Value)} {p : HashKey × Value × Value}
    (h : Flat style depth indent (.hash es)) (hp : p ∈ es) :
    Flat style (depth + 1) (indent + 1) p.2.2 := by
  refine h.part (Value.toList_text_hash es) ?_ fun _ _ => .content hp
  have hentry := infix_intercalate ", " (List.mem_map_of_mem (f := Value.entryText) hp)
  rw [Value.toList_entryText] at hentry
  exact ((List.suffix_append _ _).trans (List.suffix_append _ _)).isInfix.trans hentry

lemma omits_eq {v : Value} (h : Flat style depth indent v) :
    style.omits depth = false :=
  Style.omits_eq (h.shallow 0 v (.self v))

end Flat

/-! ### The layout of flat values -/

/-- The members of an array are laid out one by one. -/
lemma layouts_eq_map (style : Style) (depth indent : ℕ) (vs : List Value) :
    layouts style depth indent vs = vs.map (layout style depth indent) := by
  induction vs with
  | nil => rfl
  | cons v vs ih => rw [layouts, ih, List.map_cons]

/-- The entries of a hash are laid out one by one. -/
lemma entryLayouts_eq_map (style : Style) (depth indent : ℕ)
    (es : List (HashKey × Value × Value)) :
    entryLayouts style depth indent es =
      es.map fun p =>
        layout style depth indent p.2.1 ++ ": " ++ layout style depth indent p.2.2 := by
  induction es with
  | nil => rfl
  | cons p es ih => rw [entryLayouts, ih, List.map_cons]

/-- Parts that give one line which fits are put on one line. -/
lemma enclosed_eq {style : Style} {indent : ℕ} {plain opening closing : String}
    {parts : List String}
    (hplain : opening ++ String.intercalate ", " parts ++ closing = plain)
    (hline : '\n' ∉ plain.toList)
    (hfits : style.lineLength.Admits (plain.length + 2 * indent)) :
    enclosed style indent plain opening closing parts = plain := by
  rw [enclosed, hplain, Style.fits_eq hfits]
  simp [hline]

/-- No color is put on a value of any type. -/
def Style.IsPlain (style : Style) : Prop :=
  style.colored = false ∨ ∀ p, style.isPainted p = false

lemma Style.IsPlain.paint_eq {style : Style} (h : style.IsPlain) (v : Value) :
    style.paint v = v.text := by
  unfold Style.paint
  rcases h with h | h
  · simp [h]
  · cases hp : Paint.ofKind? v.kind <;> simp [Option.filter, h]

/-- **A flat value has its text for a layout**: nothing in it is left out,
and no array or hash in it is broken over lines. -/
theorem Flat.layout_eq {style : Style} (hplain : style.IsPlain) {v : Value} :
    ∀ {depth indent : ℕ}, Flat style depth indent v →
      layout style depth indent v = v.text := by
  induction v using Value.induct with
  | array vs ih =>
    intro depth indent h
    have hparts : layouts style (depth + 1) (indent + 1) vs = Value.texts vs := by
      rw [layouts_eq_map, Value.texts_eq_map]
      exact List.map_congr_left fun v hv => ih v hv (h.element hv)
    rw [layout, h.omits_eq, if_neg Bool.false_ne_true, hparts]
    exact enclosed_eq rfl h.oneLine h.fits
  | hash es ih =>
    intro depth indent h
    have hparts : entryLayouts style (depth + 1) (indent + 1) es =
        Value.entryTexts es := by
      rw [entryLayouts_eq_map, Value.entryTexts_eq_map]
      refine List.map_congr_left fun p hp => ?_
      rw [(ih p hp).1 (h.key hp), (ih p hp).2 (h.content hp), Value.entryText]
    rw [layout, h.omits_eq, if_neg Bool.false_ne_true, hparts]
    exact enclosed_eq rfl h.oneLine h.fits
  | _ =>
    intro depth indent h
    simp only [layout, h.omits_eq, Bool.false_eq_true, if_false]
    exact hplain.paint_eq _

/-- A flat value can be shown: the limits that are asked for are numbers. -/
lemma Flat.canShow_eq {style : Style} {indent : ℕ} {v : Value}
    (h : Flat style 0 indent v) : canShow style indent v = true := by
  have hdepth : style.depth ≠ .invalid := fun hd => by
    have := h.shallow 0 v (.self v)
    rw [hd] at this
    exact this
  have hlength : style.lineLength ≠ .invalid := fun hl => by
    have := h.fits
    rw [hl] at this
    exact this
  simp [canShow, hdepth, hlength]

/-- **Short values are shown as their text.**  With the colors off, all at
once or one by one, a value is shown as its text if all that lies in it lies
at depths below the limit, its text has no line end, and its text and the
margin fit on a line. -/
theorem shown_eq_text {options : Options} {v : Value} {indent : ℕ}
    (hoff : options.isOn "enabled" = false ∨
      ∀ p : Paint, options.isOn p.switch = false)
    (hdepth : ∀ depth w, v.Nested depth w →
      (Style.ofOptions options).depth.Exceeds depth)
    (hline : '\n' ∉ v.text.toList)
    (hlength : (Style.ofOptions options).lineLength.Admits
      (v.text.length + 2 * indent)) :
    shown? (Style.ofOptions options) indent (some v) = some v.text := by
  have hflat : Flat (Style.ofOptions options) 0 indent v :=
    ⟨fun d w hw => by simpa using hdepth d w hw, hline, hlength⟩
  have hplain : (Style.ofOptions options).IsPlain := hoff
  rw [shown?, if_pos hflat.canShow_eq, hflat.layout_eq hplain]

/-- A hash in an array whose text and margin take all of a line, and whose
innermost number lies as deep as is allowed. -/
theorem shown_hash_in_array :
    shown?
        (Style.ofOptions [("enabled", .boolean false), ("max_depth", .integer 4),
          ("max_line_length", .integer 12)])
        1 (some (.array [.hash [(.integer 2, .integer 2, .array [.integer 3])]])) =
      some "[\x7b2: [3]\x7d]" := by
  refine shown_eq_text (.inl (by decide)) ?_ (by decide) (by decide)
  have hbound : ∀ depth w, Value.Nested (.array [.hash
      [(.integer 2, .integer 2, .array [.integer 3])]]) depth w → depth < 4 := by
    intro depth w h
    rcases h with _ | ⟨hv, h⟩
    · decide
    obtain rfl := List.mem_singleton.mp hv
    rcases h with _ | _ | ⟨hp, h⟩ | ⟨hp, h⟩
    · decide
    · obtain rfl := List.mem_singleton.mp hp
      cases h
      decide
    · obtain rfl := List.mem_singleton.mp hp
      rcases h with _ | ⟨hv, h⟩
      · decide
      obtain rfl := List.mem_singleton.mp hv
      cases h
      decide
  exact fun depth w h => Int.ofNat_lt.mpr (hbound depth w h)

end Display

end MonkeyLang

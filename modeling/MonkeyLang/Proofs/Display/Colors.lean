/-
Colors change no layout.

* `uncolored`: a text without the sequences that start and end a color;
* `Colored`: a text with some such sequences put in, and the text without them;
  `Colored.uncolored_eq` and `Colored.newline_iff`: they can be taken out again,
  and they end no line;
* `colored_layout`: the layout of a value is the one without colors with such
  sequences put in;
* `Options.plain`: the same options with all colors off;
* `shown_content`: without colors nothing is lost of what is shown, and with
  colors all lines are broken at the same places.
-/
import MonkeyLang.Proofs.Display.Breaking

namespace MonkeyLang

namespace Value

variable {v : Value} {vs : List Value} {p : HashKey × Value × Value}
  {es : List (HashKey × Value × Value)}

/-- The text of a member of an array is a stretch of the array's. -/
lemma infix_text_array (hv : v ∈ vs) :
    v.text.toList <:+: (array vs).text.toList := by
  rw [toList_text_array]
  have hinner := infix_intercalate ", " (List.mem_map_of_mem (f := text) hv)
  exact hinner.trans ⟨['['], [']'], rfl⟩

/-- So are the texts of the key and the value of an entry of a hash. -/
lemma infix_text_hash (hp : p ∈ es) :
    p.2.1.text.toList <:+: (hash es).text.toList ∧
      p.2.2.text.toList <:+: (hash es).text.toList := by
  rw [toList_text_hash]
  have hinner := infix_intercalate ", " (List.mem_map_of_mem (f := entryText) hp)
  have hentry : (entryText p).toList <:+: _ :=
    hinner.trans ⟨['\x7b'], ['\x7d'], rfl⟩
  rw [toList_entryText] at hentry
  exact ⟨(List.prefix_append _ _).isInfix.trans hentry,
    ((List.suffix_append _ _).trans (List.suffix_append _ _)).isInfix.trans
      hentry⟩

end Value

namespace Display

open List (Forall₂)

/-! ### Color sequences -/

/-- The character that starts a sequence. -/
def escape : Char := '\x1b'

/-- The sequences that start and end colors. -/
def sequences : List (List Char) :=
  reset.toList :: Paint.all.map (·.sequence.toList)

/-- Goes on to take out sequences behind the next `n` characters, which belong
to one. -/
def uncoloredFrom : ℕ → List Char → List Char
  | _, [] => []
  | n + 1, _ :: cs => uncoloredFrom n cs
  | 0, c :: cs =>
    match sequences.find? (·.isPrefixOf (c :: cs)) with
    | some s => uncoloredFrom (s.length - 1) cs
    | none => c :: uncoloredFrom 0 cs

/-- A text without the sequences that start and end colors, which are taken out
from left to right. -/
def uncolored (cs : List Char) : List Char := uncoloredFrom 0 cs

lemma uncoloredFrom_append (cs ds : List Char) :
    uncoloredFrom cs.length (cs ++ ds) = uncolored ds := by
  induction cs with
  | nil => rfl
  | cons c cs ih => exact ih

/-- Each of them starts with the same character, ends no line, and none starts
another one. -/
lemma sequences_spec : ∀ s ∈ sequences, s.head? = some escape ∧ '\n' ∉ s ∧
    ∀ t ∈ sequences, t <+: s → t = s := by
  decide

/-- A sequence is taken out as a whole. -/
lemma uncolored_sequence {s : List Char} (hs : s ∈ sequences) (cs : List Char) :
    uncolored (s ++ cs) = uncolored cs := by
  have hfind : sequences.find? (·.isPrefixOf (s ++ cs)) = some s := by
    obtain ⟨t, ht⟩ : ∃ t,
        sequences.find? (·.isPrefixOf (s ++ cs)) = some t := by
      rw [← Option.isSome_iff_exists, List.find?_isSome]
      exact ⟨s, hs, List.isPrefixOf_iff_prefix.mpr (List.prefix_append s cs)⟩
    have hmem := List.mem_of_find?_eq_some ht
    have hstarts : t <+: s ++ cs :=
      List.isPrefixOf_iff_prefix.mp (by simpa using List.find?_some ht)
    -- the sequence that is found and the one in front are both beginnings, and
    -- no sequence begins another one
    rcases List.prefix_or_prefix_of_prefix hstarts
      (List.prefix_append s cs) with h | h
    · rw [ht, (sequences_spec s hs).2.2 t hmem h]
    · rw [ht, (sequences_spec t hmem).2.2 s hs h]
  cases s with
  | nil => cases (sequences_spec _ hs).1
  | cons c s =>
      rw [List.cons_append] at hfind
      rw [uncolored, List.cons_append, uncoloredFrom, hfind]
      exact uncoloredFrom_append s cs

/-- Other characters stay. -/
lemma uncolored_char {c : Char} (hc : c ≠ escape) (cs : List Char) :
    uncolored (c :: cs) = c :: uncolored cs := by
  have hfind : sequences.find? (·.isPrefixOf (c :: cs)) = none := by
    rw [List.find?_eq_none]
    intro s hs hprefix
    have hhead := (sequences_spec s hs).1
    obtain _ | ⟨d, s⟩ := s
    · cases hhead
    · obtain ⟨rfl, -⟩ :=
        List.cons_prefix_cons.mp (List.isPrefixOf_iff_prefix.mp hprefix)
      exact hc (Option.some.inj hhead)
  rw [uncolored, uncoloredFrom, hfind]
  rfl

/-- The first text is the second one, which has no character that starts a
sequence, with some sequences put in. -/
inductive Colored : List Char → List Char → Prop
  | nil : Colored [] []
  | char {c : Char} {t u : List Char} (hc : c ≠ escape) (h : Colored t u) :
      Colored (c :: t) (c :: u)
  | sequence {s t u : List Char} (hs : s ∈ sequences) (h : Colored t u) :
      Colored (s ++ t) u

namespace Colored

variable {t u t' u' : List Char}

/-- They can be taken out again. -/
lemma uncolored_eq (h : Colored t u) : uncolored t = u := by
  induction h with
  | nil => rfl
  | char hc _ ih => rw [uncolored_char hc, ih]
  | sequence hs _ ih => rw [uncolored_sequence hs, ih]

/-- They end no line. -/
lemma newline_iff (h : Colored t u) : '\n' ∈ t ↔ '\n' ∈ u := by
  induction h with
  | nil => rfl
  | char _ _ ih => rw [List.mem_cons, List.mem_cons, ih]
  | sequence hs _ ih =>
      rw [List.mem_append, ih, or_iff_right (sequences_spec _ hs).2.1]

lemma append (h : Colored t u) (h' : Colored t' u') :
    Colored (t ++ t') (u ++ u') := by
  induction h with
  | nil => exact h'
  | char hc _ ih => exact .char hc ih
  | sequence hs _ ih =>
      rw [List.append_assoc]
      exact .sequence hs ih

lemma refl (h : escape ∉ t) : Colored t t := by
  induction t with
  | nil => exact .nil
  | cons c t ih =>
      rw [List.mem_cons, not_or] at h
      exact .char (Ne.symm h.1) (ih h.2)

end Colored

/-! ### Layout in colors -/

/-- The same style with the colors off. -/
def Style.plain (style : Style) : Style := { style with colored := false }

lemma Style.isPlain_plain (style : Style) : style.plain.IsPlain := .inl rfl

lemma colored_paint {style : Style} {v : Value} (h : escape ∉ v.text.toList) :
    Colored (style.paint v).toList (style.plain.paint v).toList := by
  rw [style.isPlain_plain.paint_eq, Style.paint]
  have hplain := Colored.refl h
  split
  · cases (Paint.ofKind? v.kind).filter style.isPainted with
    | none => exact hplain
    | some p =>
        have hstart : p.sequence.toList ∈ sequences := by cases p <;> decide
        have hstop : Colored (reset.toList ++ []) [] :=
          .sequence List.mem_cons_self .nil
        have hpainted := Colored.sequence hstart (hplain.append hstop)
        simpa only [String.toList_append, List.append_assoc, List.append_nil]
          using hpainted
  · exact hplain

section

variable {style : Style} {indent : ℕ} {plain opening closing : String}
  {parts parts' : List String} (hopening : escape ∉ opening.toList)
  (hclosing : escape ∉ closing.toList)
  (hparts : Forall₂ (fun p q => Colored p.toList q.toList) parts parts')

include hopening hclosing hparts

lemma colored_onOneLine :
    Colored (onOneLine opening closing parts).toList
      (onOneLine opening closing parts').toList := by
  have hinner : Colored (String.intercalate ", " parts).toList
      (String.intercalate ", " parts').toList :=
    rel_intercalate Colored .nil .append (.refl (by decide)) hparts
  simp only [onOneLine, String.toList_append]
  exact ((Colored.refl hopening).append hinner).append (.refl hclosing)

lemma colored_overLines :
    Colored (overLines indent opening closing parts).toList
      (overLines indent opening closing parts').toList := by
  have hmargin : ∀ n, Colored (margin n).toList (margin n).toList := by
    intro n
    refine .refl fun hmem => ?_
    rw [toList_margin] at hmem
    cases List.eq_of_mem_replicate hmem
  have hlines : Forall₂ (fun p q => Colored p.toList q.toList)
      (parts.map (margin (indent + 1) ++ ·))
      (parts'.map (margin (indent + 1) ++ ·)) := by
    rw [List.forall₂_map_left_iff, List.forall₂_map_right_iff]
    refine hparts.imp fun p q hp => ?_
    rw [String.toList_append, String.toList_append]
    exact (hmargin _).append hp
  have hinner : Colored
      (String.intercalate ",\n" (parts.map (margin (indent + 1) ++ ·))).toList
      (String.intercalate ",\n"
        (parts'.map (margin (indent + 1) ++ ·))).toList :=
    rel_intercalate Colored .nil .append (.refl (by decide)) hlines
  have hbreak : Colored "\n".toList "\n".toList := .refl (by decide)
  simp only [overLines, String.toList_append]
  exact (((((Colored.refl hopening).append hbreak).append hinner).append
    hbreak).append (hmargin _)).append (.refl hclosing)

/-- Parts between two signs are broken over lines where they are without
colors. -/
lemma colored_enclosed :
    Colored (enclosed style indent plain opening closing parts).toList
      (enclosed style.plain indent plain opening closing parts').toList := by
  have hline := colored_onOneLine hopening hclosing hparts
  rw [enclosed_eq_ite, enclosed_eq_ite]
  by_cases h : '\n' ∉ (onOneLine opening closing parts).toList ∧
      style.fits (plain.length + 2 * indent) = true
  · rw [if_pos h, if_pos (by rwa [hline.newline_iff] at h)]
    exact hline
  · rw [if_neg h, if_neg (by rwa [hline.newline_iff] at h)]
    exact colored_overLines hopening hclosing hparts

end

/-- **Colors change no layout**: a value in whose text no sequence could start
is laid out in colors as it is without, with sequences put in. -/
theorem colored_layout (style : Style) {v : Value} :
    ∀ {depth indent : ℕ}, escape ∉ v.text.toList →
      Colored (layout style depth indent v).toList
        (layout style.plain depth indent v).toList := by
  -- whether something is left out depends on limits only, which the style
  -- without colors shares
  have homits : ∀ depth, style.plain.omits depth = style.omits depth :=
    fun _ => rfl
  have homission : Colored omission.toList omission.toList :=
    .refl (by decide)
  induction v using Value.induct with
  | array vs ih =>
    intro depth indent h
    rw [layout, layout, homits]
    split
    · exact homission
    refine colored_enclosed (by decide) (by decide) ?_
    rw [layouts_eq_map, layouts_eq_map, List.forall₂_map_left_iff,
      List.forall₂_map_right_iff, List.forall₂_same]
    exact fun v hv => ih v hv fun hmem =>
      h ((Value.infix_text_array hv).subset hmem)
  | hash es ih =>
    intro depth indent h
    rw [layout, layout, homits]
    split
    · exact homission
    refine colored_enclosed (by decide) (by decide) ?_
    rw [entryLayouts_eq_map, entryLayouts_eq_map, List.forall₂_map_left_iff,
      List.forall₂_map_right_iff, List.forall₂_same]
    intro p hp
    -- the texts of key and value are parts of the text, so that no sequence
    -- starts in them either
    obtain ⟨hkey, hcontent⟩ := Value.infix_text_hash hp
    have hcolon : Colored ": ".toList ": ".toList := .refl (by decide)
    simp only [String.toList_append]
    exact (((ih p hp).1 fun hmem => h (hkey.subset hmem)).append hcolon).append
      ((ih p hp).2 fun hmem => h (hcontent.subset hmem))
  | _ =>
    intro depth indent h
    simp only [layout, homits]
    split
    · exact homission
    · exact colored_paint h

/-! ### Values as they are shown -/

/-- The same options with the colors off. -/
def Options.plain (os : Options) : Options := os.set "enabled" (.boolean false)

lemma ofOptions_plain (os : Options) :
    Style.ofOptions os.plain = (Style.ofOptions os).plain := by
  have hother : ∀ name, name ≠ "enabled" →
      os.plain.get? name = os.get? name := by
    intro name hname
    rw [Options.plain, Bindings.get?_set, if_neg (Ne.symm hname)]
  have henabled : os.plain.isOn "enabled" = false := by
    rw [Options.isOn, Options.plain, Bindings.get?_set, if_pos rfl]
    rfl
  have hswitch : ∀ p : Paint, os.plain.isOn p.switch = os.isOn p.switch := by
    intro p
    rw [Options.isOn, hother _ (by cases p <;> decide), Options.isOn]
  simp only [Style.ofOptions, Style.plain, henabled, hswitch,
    hother "max_line_length" (by decide), hother "max_depth" (by decide)]

/-- Limits for numbers are enough to show a value. -/
lemma shown_eq {style : Style} (hlength : style.lineLength ≠ .invalid)
    (hlimit : style.depth ≠ .invalid) (indent : ℕ) (v : Value) :
    shown? style indent (some v) = some (layout style 0 indent v) := by
  simp [shown?, canShow, hlength, hlimit]

/-- **What is shown keeps the text and the lines.**  For all options, a value can
be shown without colors if the limits are for numbers.  If all that lies in it
lies at depths below the limit, then it is shown as its text, blanks and line ends
aside.  If no sequence could start in its text, then it is shown in colors,
whatever groups are colored, as it is shown without, with sequences put in that
can be taken out again. -/
theorem shown_content (options : Options) (v : Value) (indent : ℕ)
    (hlength : (Style.ofOptions options).lineLength ≠ .invalid)
    (hlimit : (Style.ofOptions options).depth ≠ .invalid) :
    ∃ plain colored,
      shown? (Style.ofOptions options.plain) indent (some v) = some plain ∧
      shown? (Style.ofOptions options) indent (some v) = some colored ∧
      ((∀ depth w, v.Nested depth w →
          (Style.ofOptions options).depth.Exceeds depth) →
        squeeze plain.toList = squeeze v.text.toList) ∧
      (escape ∉ v.text.toList → uncolored colored.toList = plain.toList) := by
  have hplain := ofOptions_plain options
  have hlength' : (Style.ofOptions options.plain).lineLength ≠ .invalid := by
    rwa [hplain]
  have hlimit' : (Style.ofOptions options.plain).depth ≠ .invalid := by
    rwa [hplain]
  refine ⟨_, _, shown_eq hlength' hlimit' indent v,
    shown_eq hlength hlimit indent v, fun hdepth => ?_, fun hescape => ?_⟩
  · rw [hplain]
    refine squeeze_layout (Style.isPlain_plain _) fun d w hw => ?_
    rw [Nat.zero_add]
    exact hdepth d w hw
  · rw [hplain]
    exact (colored_layout _ hescape).uncolored_eq

/-- An array that is broken over lines and a hash in it that is not, with strings
in color and numbers without. -/
theorem shown_content_broken :
    ∃ plain colored,
      shown? (Style.ofOptions (Options.plain [("max_line_length", .integer 12),
          ("color_integer", .boolean false)])) 1 (some (.array [.integer 1,
            .hash [(.ofString "a", .string "a", .string "b c")]])) =
        some plain ∧
      shown? (Style.ofOptions [("max_line_length", .integer 12),
          ("color_integer", .boolean false)]) 1 (some (.array [.integer 1,
            .hash [(.ofString "a", .string "a", .string "b c")]])) =
        some colored ∧
      squeeze plain.toList = "[1,\x7ba:bc\x7d]".toList ∧
      uncolored colored.toList = plain.toList := by
  obtain ⟨plain, colored, hplain, hcolored, hsqueeze, huncolored⟩ :=
    shown_content [("max_line_length", .integer 12),
      ("color_integer", .boolean false)] (.array [.integer 1,
        .hash [(.ofString "a", .string "a", .string "b c")]])
      1 (by decide) (by decide)
  refine ⟨plain, colored, hplain, hcolored, ?_, huncolored (by decide)⟩
  rw [hsqueeze (Limit.Exceeds.nested (by decide))]
  decide

end Display

end MonkeyLang

/-
How long the lines of a layout are.

* `Value.Unbroken`: values without line ends in their strings;
* `Ink`: what a character of a layout belongs to; `inked`: the layout of a value
  with that said of each character; `map_inked`: it is the layout;
* `Bounded`: a line that holds an array or a hash on one line stays within a limit,
  keys in front of values and a comma at its end not counted;
* `Sits`: what is laid out of a value at an indentation, as one line or as several
  of which the first and the last one hold no array and no hash;
* `sits_inked`: so it is for values without line ends;
* `shown_inline_fits`: so all lines of what is shown of such values are bounded;
* `not_inline_fits`: with the keys counted they are not.
-/
import MonkeyLang.Proofs.Display.Breaking

namespace MonkeyLang

/-! ### Values without line ends -/

/-- Integers, truth values, strings without line ends, and arrays and hashes of
such values, where each key of a hash lies under its own hash key. -/
inductive Value.Unbroken : Value → Prop
  | integer (n : ℤ) : Unbroken (.integer n)
  | boolean (b : Bool) : Unbroken (.boolean b)
  | string {s : String} (hs : '\n' ∉ s.toList) : Unbroken (.string s)
  | array {vs : List Value} (hvs : ∀ v ∈ vs, Unbroken v) : Unbroken (.array vs)
  | hash {es : List (HashKey × Value × Value)}
      (hkeys : ∀ p ∈ es, p.2.1.hashKey? = some p.1)
      (hlabels : ∀ p ∈ es, Unbroken p.2.1) (hvalues : ∀ p ∈ es, Unbroken p.2.2) :
      Unbroken (.hash es)

namespace Display

/-! ### What characters belong to -/

/-- What a character of a layout belongs to: an array or a hash with members that
is written on one line, the key in front of a value in a hash that is broken over
lines, with the colon behind it, or anything else. -/
inductive Ink where
  | inline | label | other
deriving DecidableEq, Repr

/-- A text all of whose characters belong to the same. -/
def drawn (ink : Ink) (text : String) : List (Char × Ink) :=
  text.toList.map (·, ink)

/-- Parts between two signs, one a line. -/
def inkedOver (indent : ℕ) (opening closing : String)
    (parts : List (List (Char × Ink))) : List (Char × Ink) :=
  drawn .other (opening ++ "\n") ++
    (drawn .other ",\n").intercalate
      (parts.map (drawn .other (margin (indent + 1)) ++ ·)) ++
    drawn .other ("\n" ++ margin indent ++ closing)

/-- What is laid out of parts between two signs: one a line if it has several
lines. -/
def inkedEnclosed (indent : ℕ) (text opening closing : String)
    (parts : List (List (Char × Ink))) : List (Char × Ink) :=
  if '\n' ∈ text.toList then inkedOver indent opening closing parts
  else drawn (if parts.isEmpty then .other else .inline) text

mutual

/-- The layout of a value, with what each character belongs to. -/
def inked (style : Style) (depth indent : ℕ) : Value → List (Char × Ink)
  | .array vs =>
    inkedEnclosed indent (layout style depth indent (.array vs)) "[" "]"
      (inkedMembers style (depth + 1) (indent + 1) vs)
  | .hash es =>
    inkedEnclosed indent (layout style depth indent (.hash es)) "\x7b" "\x7d"
      (inkedEntries style (depth + 1) (indent + 1) es)
  | v => drawn .other (layout style depth indent v)

/-- The members of an array. -/
def inkedMembers (style : Style) (depth indent : ℕ) :
    List Value → List (List (Char × Ink))
  | [] => []
  | v :: vs => inked style depth indent v :: inkedMembers style depth indent vs

/-- The entries of a hash. -/
def inkedEntries (style : Style) (depth indent : ℕ) :
    List (HashKey × Value × Value) → List (List (Char × Ink))
  | [] => []
  | (_, k, v) :: es =>
    (drawn .label (layout style depth indent k ++ ": ") ++
        inked style depth indent v) :: inkedEntries style depth indent es

end

/-- The members of an array are taken one by one. -/
lemma inkedMembers_eq_map (style : Style) (depth indent : ℕ) (vs : List Value) :
    inkedMembers style depth indent vs = vs.map (inked style depth indent) := by
  induction vs with
  | nil => rfl
  | cons v vs ih => rw [inkedMembers, ih, List.map_cons]

/-- The entries of a hash are taken one by one. -/
lemma inkedEntries_eq_map (style : Style) (depth indent : ℕ)
    (es : List (HashKey × Value × Value)) :
    inkedEntries style depth indent es = es.map fun p =>
      drawn .label (layout style depth indent p.2.1 ++ ": ") ++
        inked style depth indent p.2.2 := by
  induction es with
  | nil => rfl
  | cons p es ih => rw [inkedEntries, ih, List.map_cons]

/-! ### The characters are those of the layout -/

@[simp]
lemma map_drawn (ink : Ink) (text : String) :
    (drawn ink text).map Prod.fst = text.toList := by
  rw [drawn, List.map_map]
  exact List.map_id _

lemma map_intercalate (sep : List (Char × Ink)) (parts : List (List (Char × Ink))) :
    (sep.intercalate parts).map Prod.fst =
      (sep.map Prod.fst).intercalate (parts.map (List.map Prod.fst)) := by
  induction parts with
  | nil => rfl
  | cons p parts ih =>
      cases parts with
      | nil => simp
      | cons q parts => simp_all [List.intercalate_cons_cons]

lemma map_inkedOver (indent : ℕ) (opening closing : String)
    {parts : List (List (Char × Ink))} {texts : List String}
    (h : parts.map (List.map Prod.fst) = texts.map String.toList) :
    (inkedOver indent opening closing parts).map Prod.fst =
      (overLines indent opening closing texts).toList := by
  have hlines : (parts.map (drawn .other (margin (indent + 1)) ++ ·)).map
        (List.map Prod.fst) =
      (texts.map (margin (indent + 1) ++ ·)).map String.toList := by
    have hparts := congrArg (List.map ((margin (indent + 1)).toList ++ ·)) h
    simpa [Function.comp_def] using hparts
  simp only [inkedOver, overLines, List.map_append, map_drawn, map_intercalate,
    hlines, String.toList_append, String.toList_intercalate, List.append_assoc]

/-- It is the text if the parts are those of the text. -/
lemma map_inkedEnclosed {style : Style} {depth indent : ℕ}
    {plain opening closing : String} {parts : List (List (Char × Ink))}
    {texts : List String}
    (h : parts.map (List.map Prod.fst) = texts.map String.toList) :
    let text := if style.omits depth then omission
      else enclosed style indent plain opening closing texts
    (inkedEnclosed indent text opening closing parts).map Prod.fst =
      text.toList := by
  intro text
  rw [inkedEnclosed]
  split
  · next hbroken =>
    have homits : style.omits depth ≠ true := by
      intro homits
      rw [show text = omission from if_pos homits] at hbroken
      exact absurd hbroken (by decide)
    have htext : text = enclosed style indent plain opening closing texts :=
      if_neg homits
    rw [htext] at hbroken ⊢
    rw [enclosed_of_overLines hbroken, map_inkedOver indent opening closing h]
  · exact map_drawn _ _

/-- What is inked of a value is its layout. -/
theorem map_inked (style : Style) {v : Value} : ∀ (depth indent : ℕ),
    (inked style depth indent v).map Prod.fst =
      (layout style depth indent v).toList := by
  induction v using Value.induct with
  | array vs ih =>
    intro depth indent
    rw [inked, layout]
    refine map_inkedEnclosed ?_
    rw [inkedMembers_eq_map, layouts_eq_map, List.map_map, List.map_map]
    exact List.map_congr_left fun v hv => ih v hv _ _
  | hash es ih =>
    intro depth indent
    rw [inked, layout]
    refine map_inkedEnclosed ?_
    rw [inkedEntries_eq_map, entryLayouts_eq_map, List.map_map, List.map_map]
    refine List.map_congr_left fun p hp => ?_
    simp [(ih p hp).2]
  | _ =>
    intro depth indent
    simp only [inked, map_drawn]

/-! ### Lines -/

/-- A character that ends a line. -/
def endsLine (c : Char × Ink) : Bool := c.1 = '\n'

/-- The lines of a layout. -/
def inkedLines (cs : List (Char × Ink)) : List (List (Char × Ink)) :=
  cs.splitOnP endsLine

/-- A line without a comma at its end. -/
def dropComma (line : List (Char × Ink)) : List (Char × Ink) :=
  if line.getLast?.any (·.1 = ',') then line.dropLast else line

/-- A line without the keys in front of values. -/
def dropLabels (line : List (Char × Ink)) : List (Char × Ink) :=
  line.filter (·.2 ≠ .label)

/-- A line that holds an array or a hash with members written on one line. -/
def Holds (line : List (Char × Ink)) : Prop := ∃ c ∈ line, c.2 = .inline

instance (line : List (Char × Ink)) : Decidable (Holds line) :=
  inferInstanceAs (Decidable (∃ c ∈ line, _))

/-- Such a line stays within a limit, keys in front of values and a comma at its
end not counted. -/
def Bounded (limit : Limit) (line : List (Char × Ink)) : Prop :=
  Holds line → limit.Admits (dropLabels (dropComma line)).length

/-- Part of a line that holds no array or hash on one line. -/
def Still (cs : List (Char × Ink)) : Prop :=
  ∀ c ∈ cs, endsLine c = false ∧ c.2 ≠ .inline

variable {limit : Limit} {indent : ℕ} {line cs ds : List (Char × Ink)}

lemma still_nil : Still [] := fun _ hc => absurd hc List.not_mem_nil

lemma bounded_of_still (h : Still line) : Bounded limit line := by
  rintro ⟨c, hc, hinline⟩
  exact absurd hinline (h c hc).2

lemma Still.append (h : Still cs) (h' : Still ds) : Still (cs ++ ds) := by
  intro c hc
  rcases List.mem_append.mp hc with hc | hc
  · exact h c hc
  · exact h' c hc

lemma still_drawn {ink : Ink} {text : String} (hink : ink ≠ .inline)
    (htext : '\n' ∉ text.toList) : Still (drawn ink text) := by
  intro c hc
  obtain ⟨d, hd, rfl⟩ := List.mem_map.mp hc
  refine ⟨?_, hink⟩
  rw [endsLine, decide_eq_false_iff_not]
  rintro rfl
  exact htext hd

/-- Lines before and behind a line end. -/
lemma inkedLines_append (cs ds : List (Char × Ink)) (ink : Ink) :
    inkedLines (cs ++ ('\n', ink) :: ds) = inkedLines cs ++ inkedLines ds :=
  List.splitOnP_append_cons cs ds rfl

/-- A single line. -/
lemma inkedLines_of_forall (h : ∀ c ∈ cs, endsLine c = false) :
    inkedLines cs = [cs] :=
  List.splitOnP_eq_singleton h

/-- Lines of parts with a comma and a line end in between are those of the parts,
with a comma behind all but the last. -/
lemma mem_inkedLines_intercalate {parts : List (List (Char × Ink))}
    (h : line ∈ inkedLines ((drawn .other ",\n").intercalate parts)) :
    line = [] ∨ ∃ part ∈ parts,
      line ∈ inkedLines part ∨ line ∈ inkedLines (part ++ drawn .other ",") := by
  induction parts with
  | nil =>
      left
      simpa [inkedLines] using h
  | cons p parts ih =>
      cases parts with
      | nil =>
          right
          exact ⟨p, List.mem_cons_self, .inl (by simpa using h)⟩
      | cons q parts =>
          rw [List.intercalate_cons_cons] at h
          have hcut : p ++ drawn .other ",\n" ++
                (drawn .other ",\n").intercalate (q :: parts) =
              (p ++ drawn .other ",") ++ ('\n', .other) ::
                (drawn .other ",\n").intercalate (q :: parts) := by
            simp [drawn]
          rw [hcut, inkedLines_append, List.mem_append] at h
          rcases h with h | h
          · exact .inr ⟨p, List.mem_cons_self, .inr h⟩
          · rcases ih h with h | ⟨part, hpart, h⟩
            · exact .inl h
            · exact .inr ⟨part, List.mem_cons_of_mem _ hpart, h⟩

/-! ### Where lines begin and end -/

/-- What is laid out at an indentation: one line that fits there if it holds an
array or a hash, or several lines of which the first and the last one, to which
something may be added, hold none. -/
inductive Sits (limit : Limit) (indent : ℕ) : List (Char × Ink) → Prop
  | line {cs : List (Char × Ink)} (hline : ∀ c ∈ cs, endsLine c = false)
      (hfits : Holds cs → limit.Admits (cs.length + 2 * indent)) :
      Sits limit indent cs
  | lines {first middle last : List (Char × Ink)} {ink ink' : Ink}
      (hfirst : Still first) (hlast : Still last)
      (hmiddle : ∀ line ∈ inkedLines middle, Bounded limit line) :
      Sits limit indent
        (first ++ ('\n', ink) :: (middle ++ ('\n', ink') :: last))

lemma dropLabels_append (cs ds : List (Char × Ink)) :
    dropLabels (cs ++ ds) = dropLabels cs ++ dropLabels ds :=
  List.filter_append cs ds

lemma dropLabels_label (text : String) : dropLabels (drawn .label text) = [] := by
  rw [dropLabels, List.filter_eq_nil_iff]
  intro c hc
  obtain ⟨d, -, rfl⟩ := List.mem_map.mp hc
  simp

lemma still_margin (indent : ℕ) : Still (drawn .other (margin indent)) := by
  refine still_drawn (by decide) fun hmem => ?_
  rw [toList_margin] at hmem
  cases List.eq_of_mem_replicate hmem

lemma length_dropLabels_margin (indent : ℕ) :
    (dropLabels (drawn .other (margin indent))).length = 2 * indent := by
  have hall : dropLabels (drawn .other (margin indent)) =
      drawn .other (margin indent) := by
    rw [dropLabels, List.filter_eq_self]
    intro c hc
    obtain ⟨d, -, rfl⟩ := List.mem_map.mp hc
    rfl
  rw [hall, drawn, List.length_map, toList_margin, List.length_replicate]

lemma length_dropLabels_dropComma_le (cs : List (Char × Ink)) :
    (dropLabels (dropComma cs)).length ≤ (dropLabels cs).length := by
  refine List.Sublist.length_le (List.Sublist.filter _ ?_)
  unfold dropComma
  split
  · exact List.dropLast_sublist cs
  · exact List.Sublist.refl cs

lemma dropComma_append (cs : List (Char × Ink)) :
    dropComma (cs ++ drawn .other ",") = cs := by
  simp [dropComma, drawn]

/-- What may stand behind a value in its line: nothing or a comma. -/
def Trailing (ds : List (Char × Ink)) : Prop := ds = [] ∨ ds = drawn .other ","

lemma Trailing.still (h : Trailing ds) : Still ds := by
  rcases h with rfl | rfl
  · exact still_nil
  · exact still_drawn (by decide) (by decide)

/-- It is not counted. -/
lemma length_dropComma_append_le (hds : Trailing ds) (cs : List (Char × Ink)) :
    (dropLabels (dropComma (cs ++ ds))).length ≤ (dropLabels cs).length := by
  rcases hds with rfl | rfl
  · rw [List.append_nil]
    exact length_dropLabels_dropComma_le cs
  · rw [dropComma_append]

lemma Sits.of_still (h : Still cs) : Sits limit indent cs :=
  .line (fun c hc => (h c hc).1) fun ⟨c, hc, hinline⟩ =>
    absurd hinline (h c hc).2

/-- Behind a margin and a key that take up no more than the indentation, and before
a comma, what fits there is bounded. -/
lemma bounded_line {before : List (Char × Ink)} (hbefore : Still before)
    (hlength : (dropLabels before).length ≤ 2 * indent) (hds : Trailing ds)
    (hfits : Holds cs → limit.Admits (cs.length + 2 * indent)) :
    Bounded limit (before ++ cs ++ ds) := by
  rintro ⟨c, hc, hinline⟩
  have hc : c ∈ cs := by
    simp only [List.mem_append] at hc
    rcases hc with (hc | hc) | hc
    · exact absurd hinline (hbefore c hc).2
    · exact hc
    · exact absurd hinline (hds.still c hc).2
  refine (hfits ⟨c, hc, hinline⟩).mono ?_
  calc (dropLabels (dropComma (before ++ cs ++ ds))).length
      ≤ (dropLabels (before ++ cs)).length := length_dropComma_append_le hds _
    _ = (dropLabels before).length + (dropLabels cs).length := by
        rw [dropLabels_append, List.length_append]
    _ ≤ 2 * indent + cs.length :=
        Nat.add_le_add hlength (List.length_filter_le _ cs)
    _ = cs.length + 2 * indent := Nat.add_comm _ _

/-- So are all lines of what sits there. -/
lemma Sits.bounded (h : Sits limit indent cs) {before : List (Char × Ink)}
    (hbefore : Still before)
    (hlength : (dropLabels before).length ≤ 2 * indent) (hds : Trailing ds) :
    ∀ line ∈ inkedLines (before ++ cs ++ ds), Bounded limit line := by
  intro line hmem
  cases h with
  | line hline hfits =>
      have hwhole : ∀ c ∈ before ++ cs ++ ds, endsLine c = false := by
        simp only [List.mem_append]
        rintro c ((hc | hc) | hc)
        · exact (hbefore c hc).1
        · exact hline c hc
        · exact (hds.still c hc).1
      rw [inkedLines_of_forall hwhole, List.mem_singleton] at hmem
      rw [hmem]
      exact bounded_line hbefore hlength hds hfits
  | @lines first middle last ink ink' hfirst hlast hmiddle =>
      -- what is added goes to the first line and to the last one
      have hcut : before ++ (first ++ ('\n', ink) ::
            (middle ++ ('\n', ink') :: last)) ++ ds =
          (before ++ first) ++ ('\n', ink) ::
            (middle ++ ('\n', ink') :: (last ++ ds)) := by
        simp
      have hfirst := hbefore.append hfirst
      have hlast := hlast.append hds.still
      rw [hcut, inkedLines_append, inkedLines_append,
        inkedLines_of_forall fun c hc => (hfirst c hc).1,
        inkedLines_of_forall fun c hc => (hlast c hc).1] at hmem
      simp only [List.mem_append, List.mem_singleton] at hmem
      rcases hmem with rfl | hmem | rfl
      · exact bounded_of_still hfirst
      · exact hmiddle line hmem
      · exact bounded_of_still hlast

/-! ### Every value sits where it is laid out -/

/-- A line that fits stays within the limit. -/
lemma Style.admits_of_fits {style : Style} {length : ℕ}
    (hlimit : style.lineLength ≠ .invalid) (h : style.fits length = true) :
    style.lineLength.Admits length := by
  unfold Style.fits at h
  cases hl : style.lineLength with
  | number n =>
      rw [hl] at h
      exact of_decide_eq_true h
  | unlimited => trivial
  | invalid => exact absurd hl hlimit

section

variable {opening closing text : String} {parts : List (List (Char × Ink))}
  (hopening : '\n' ∉ opening.toList) (hclosing : '\n' ∉ closing.toList)

include hopening hclosing

/-- Parts between two signs, where each part may stand in a line of its own. -/
lemma sits_inkedOver
    (hparts : ∀ part ∈ parts, ∀ after, Trailing after →
      ∀ line ∈ inkedLines (drawn .other (margin (indent + 1)) ++ part ++ after),
        Bounded limit line) :
    Sits limit indent (inkedOver indent opening closing parts) := by
  have hcut : inkedOver indent opening closing parts =
      drawn .other opening ++ ('\n', .other) ::
        ((drawn .other ",\n").intercalate
            (parts.map (drawn .other (margin (indent + 1)) ++ ·)) ++
          ('\n', .other) :: drawn .other (margin indent ++ closing)) := by
    simp [inkedOver, drawn]
  rw [hcut]
  refine .lines (still_drawn (by decide) hopening) (still_drawn nofun ?_) ?_
  · simp [toList_margin, hclosing]
  · intro line hline
    rcases mem_inkedLines_intercalate hline with rfl | ⟨_, hmem, h⟩
    · exact bounded_of_still still_nil
    obtain ⟨part, hpart, rfl⟩ := List.mem_map.mp hmem
    rcases h with h | h
    · exact hparts part hpart [] (.inl rfl) line (by simpa using h)
    · exact hparts part hpart _ (.inr rfl) line h

/-- So do they if they are on one line that fits. -/
lemma sits_inkedEnclosed
    (hfits : '\n' ∉ text.toList → limit.Admits (text.length + 2 * indent))
    (hparts : ∀ part ∈ parts, ∀ after, Trailing after →
      ∀ line ∈ inkedLines (drawn .other (margin (indent + 1)) ++ part ++ after),
        Bounded limit line) :
    Sits limit indent (inkedEnclosed indent text opening closing parts) := by
  rw [inkedEnclosed]
  split
  · exact sits_inkedOver hopening hclosing hparts
  · next hline =>
    refine .line (fun c hc => ?_) fun _ => ?_
    · obtain ⟨d, hd, rfl⟩ := List.mem_map.mp hc
      rw [endsLine, decide_eq_false_iff_not]
      rintro rfl
      exact hline hd
    · rw [drawn, List.length_map, String.length_toList]
      exact hfits hline

end

/-- What is laid out on one line of an array or a hash was found to fit. -/
lemma admits_layout {style : Style} {depth : ℕ} {v : Value}
    {plain opening closing : String} {texts : List String}
    (hlimit : style.lineLength ≠ .invalid)
    (hlayout : layout style depth indent v =
      enclosed style indent plain opening closing texts)
    (htext : '\n' ∉ (layout style depth indent v).toList →
      layout style depth indent v = plain)
    (hline : '\n' ∉ (layout style depth indent v).toList) :
    style.lineLength.Admits ((layout style depth indent v).length + 2 * indent) := by
  rw [htext hline]
  rw [hlayout] at hline
  exact Style.admits_of_fits hlimit (enclosed_of_oneLine hline).1

/-- Numbers are written on one line. -/
lemma newline_notMem_text_integer (n : ℤ) :
    '\n' ∉ (Value.integer n).text.toList := by
  have hdigits : ∀ k : ℕ, '\n' ∉ k.repr.toList := by
    intro k hmem
    rw [Nat.toList_repr] at hmem
    exact absurd (Nat.isDigit_of_mem_toDigits (by decide) (by decide) hmem)
      (by decide)
  rw [Value.text, Int.toString_eq_repr, Int.repr_eq_if]
  split
  · exact hdigits _
  · rw [String.toList_append, List.mem_append, not_or]
    exact ⟨by decide, hdigits _⟩

/-- So are all values that can be keys, if they are strings without line ends. -/
lemma newline_notMem_text_of_hashKey {v : Value} (h : v.Unbroken) {k : HashKey}
    (hkey : v.hashKey? = some k) : '\n' ∉ v.text.toList := by
  cases h with
  | integer n => exact newline_notMem_text_integer n
  | boolean b => cases b <;> decide
  | string hs => simpa [Value.text] using hs
  | array => cases hkey
  | hash => cases hkey

/-- A key is laid out as its text. -/
lemma newline_notMem_layout_of_hashKey {style : Style} (hplain : style.IsPlain)
    (depth indent : ℕ) {v : Value} (h : v.Unbroken) {k : HashKey}
    (hkey : v.hashKey? = some k) (hdepth : Shallow style depth v) :
    '\n' ∉ (layout style depth indent v).toList := by
  have htext := newline_notMem_text_of_hashKey h hkey
  cases h with
  | array => cases hkey
  | hash => cases hkey
  | _ =>
    simp only [layout, hdepth.omits_eq, Bool.false_eq_true, if_false]
    rwa [hplain.paint_eq]

/-- **Every value sits where it is laid out**, if no string in it ends a line and
nothing is left out. -/
theorem sits_inked {style : Style} (hplain : style.IsPlain)
    (hlimit : style.lineLength ≠ .invalid) {v : Value} :
    ∀ {depth indent : ℕ}, v.Unbroken → Shallow style depth v →
      Sits style.lineLength indent (inked style depth indent v) := by
  induction v using Value.induct with
  | array vs ih =>
    rintro depth indent (_ | _ | _ | hvs) h
    rw [inked]
    refine sits_inkedEnclosed (by decide) (by decide)
      (admits_layout hlimit (by rw [layout, h.omits_eq, if_neg Bool.false_ne_true])
        (layout_of_oneLine hplain h)) ?_
    intro part hpart after hafter
    rw [inkedMembers_eq_map] at hpart
    obtain ⟨w, hw, rfl⟩ := List.mem_map.mp hpart
    exact (ih w hw (hvs w hw) (h.element hw)).bounded (still_margin _)
      (length_dropLabels_margin _).le hafter
  | hash es ih =>
    rintro depth indent (_ | _ | _ | _ | ⟨hkeys, hlabels, hvalues⟩) h
    rw [inked]
    refine sits_inkedEnclosed (by decide) (by decide)
      (admits_layout hlimit (by rw [layout, h.omits_eq, if_neg Bool.false_ne_true])
        (layout_of_oneLine hplain h)) ?_
    intro part hpart after hafter
    rw [inkedEntries_eq_map] at hpart
    obtain ⟨p, hp, rfl⟩ := List.mem_map.mp hpart
    -- the key stands in front of the value, and is not counted
    have hkey : Still (drawn .label
        (layout style (depth + 1) (indent + 1) p.2.1 ++ ": ")) := by
      refine still_drawn (by decide) ?_
      rw [String.toList_append, List.mem_append, not_or]
      exact ⟨newline_notMem_layout_of_hashKey hplain _ _ (hlabels p hp)
        (hkeys p hp) (h.key hp), by decide⟩
    have hlength : (dropLabels (drawn .other (margin (indent + 1)) ++
          drawn .label (layout style (depth + 1) (indent + 1) p.2.1 ++ ": "))).length
        ≤ 2 * (indent + 1) := by
      rw [dropLabels_append, dropLabels_label, List.append_nil,
        length_dropLabels_margin]
    rw [← List.append_assoc]
    exact ((ih p hp).2 (hvalues p hp) (h.content hp)).bounded
      ((still_margin _).append hkey) hlength hafter
  | _ =>
    intro depth indent hv h
    have hleaf := fun k hkey => newline_notMem_layout_of_hashKey hplain
      depth indent (k := k) hv hkey h
    cases hv <;>
      exact .of_still (still_drawn (by decide) (hleaf _ rfl))

/-- **Arrays and hashes on one line fit.**  Without colors a value in which no
string ends a line and nothing lies too deep is shown as what is inked of it, and
each line of that which holds an array or a hash with members written on one line
stays within the limit, but for the key in front of a value and for a comma at the
end. -/
theorem shown_inline_fits (options : Options) (v : Value) (indent : ℕ)
    (hoff : options.isOn "enabled" = false ∨
      ∀ p : Paint, options.isOn p.switch = false)
    (hv : v.Unbroken)
    (hdepth : ∀ depth w, v.Nested depth w →
      (Style.ofOptions options).depth.Exceeds depth)
    (hlimit : (Style.ofOptions options).lineLength ≠ .invalid) :
    let cs := inked (Style.ofOptions options) 0 indent v
    shown? (Style.ofOptions options) indent (some v) =
        some (String.ofList (cs.map Prod.fst)) ∧
      ∀ line ∈ inkedLines cs,
        Bounded (Style.ofOptions options).lineLength line := by
  intro cs
  have hshallow : Shallow (Style.ofOptions options) 0 v :=
    fun d w hw => by simpa using hdepth d w hw
  have hlimit' : (Style.ofOptions options).depth ≠ .invalid := by
    intro hinvalid
    have hself := hdepth 0 v (.self v)
    rw [hinvalid] at hself
    exact hself
  constructor
  · rw [map_inked, String.ofList_toList]
    simp [shown?, canShow, hlimit, hlimit']
  · have hplain : (Style.ofOptions options).IsPlain := hoff
    have hsits : Sits (Style.ofOptions options).lineLength indent cs :=
      sits_inked hplain hlimit hv hshallow
    have hlines := hsits.bounded still_nil (Nat.zero_le _) (.inl rfl)
    simpa using hlines

/-- A hash with a value on one line that takes all of the limit, and with one that
is broken over lines. -/
theorem shown_inline_fits_entries :
    let cs := inked (Style.ofOptions [("enabled", .boolean false),
        ("max_line_length", .integer 12)]) 0 0
      (.hash [(.boolean true, .boolean true, .array [.integer 100, .integer 2]),
        (.integer 2, .integer 2, .array [.integer 1000, .integer 20])])
    (∀ line ∈ inkedLines cs, Bounded (.number 12) line) ∧
      ∃ line ∈ inkedLines cs,
        Holds line ∧ (dropLabels (dropComma line)).length = 12 := by
  intro cs
  have hpair : ∀ m n : ℤ, Value.Unbroken (.array [.integer m, .integer n]) := by
    intro m n
    refine .array fun v hv => ?_
    rcases List.mem_pair.mp hv with rfl | rfl <;> exact .integer _
  refine ⟨(shown_inline_fits [("enabled", .boolean false),
      ("max_line_length", .integer 12)] (.hash [(.boolean true, .boolean true,
        .array [.integer 100, .integer 2]), (.integer 2, .integer 2,
        .array [.integer 1000, .integer 20])]) 0 (.inl (by decide))
      (.hash (by decide) (fun p hp => ?_) fun p hp => ?_)
      (Limit.Exceeds.nested (by decide)) (by decide)).2, by decide +kernel⟩
  · rcases List.mem_pair.mp hp with rfl | rfl
    · exact .boolean true
    · exact .integer 2
  · rcases List.mem_pair.mp hp with rfl | rfl <;> exact hpair _ _

/-- With the key in front of it, a line that holds an array may be longer than the
limit: the value of this hash fits where it stands, and the key in front of it takes
twelve characters more. -/
theorem not_inline_fits :
    ¬ ∀ (options : Options) (v : Value), options.isOn "enabled" = false →
        v.Unbroken →
        (∀ depth w, v.Nested depth w →
          (Style.ofOptions options).depth.Exceeds depth) →
        (Style.ofOptions options).lineLength ≠ .invalid →
        ∀ line ∈ inkedLines (inked (Style.ofOptions options) 0 0 v), Holds line →
          (Style.ofOptions options).lineLength.Admits (dropComma line).length := by
  intro hall
  have hv : Value.Unbroken (.hash [(.ofString "abcdefghij", .string "abcdefghij",
      .array [.integer 1, .integer 2])]) := by
    refine .hash (by decide) (fun p hp => ?_) fun p hp => ?_
    · obtain rfl := List.mem_singleton.mp hp
      exact .string (by decide)
    · obtain rfl := List.mem_singleton.mp hp
      refine .array fun v hv => ?_
      rcases List.mem_pair.mp hv with rfl | rfl <;> exact .integer _
  have hlines := hall [("enabled", .boolean false),
    ("max_line_length", .integer 12)] _ (by decide) hv
    (Limit.Exceeds.nested (by decide)) (by decide)
  revert hlines
  decide +kernel

end Display

end MonkeyLang

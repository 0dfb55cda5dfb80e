/-
The text of a value, as it is printed.

* `Value.text`: the text;
* `Closure.text`: the text of a function or a macro;
* `Value.entryText`: the text of an entry of a hash.
-/
import MonkeyLang.Tree.Text
import MonkeyLang.Value

namespace MonkeyLang

/-- The text of a function or a macro under its keyword. -/
def Closure.text (keyword : String) (c : Closure) : String :=
  keyword ++ "(" ++ String.intercalate ", " (c.params.map Node.text) ++
    ") \x7b\n" ++ c.body.text ++ "\n\x7d"

namespace Value

mutual

/-- The text of a value. -/
def text : Value → String
  | integer n => toString n
  | boolean b => if b then "true" else "false"
  | null => "null"
  | string s => s
  | array vs => "[" ++ String.intercalate ", " (texts vs) ++ "]"
  | hash es => "\x7b" ++ String.intercalate ", " (entryTexts es) ++ "\x7d"
  | returned v => text v
  | error f => "ERROR: " ++ f.message
  | function c => c.text "fn"
  | builtin _ => "builtin function"
  | quote n => "QUOTE(" ++ n.text ++ ")"
  | macroFn c => c.text "macro"

/-- The texts of several values. -/
def texts : List Value → List String
  | [] => []
  | v :: vs => text v :: texts vs

/-- The texts of the entries of a hash. -/
def entryTexts : List (HashKey × Value × Value) → List String
  | [] => []
  | (_, k, v) :: es => (text k ++ ": " ++ text v) :: entryTexts es

end

/-- The texts of several values are taken one by one. -/
theorem texts_eq_map (vs : List Value) : texts vs = vs.map text := by
  induction vs with
  | nil => rfl
  | cons v vs ih => simp [texts, ih]

/-- The text of an entry. -/
def entryText (p : HashKey × Value × Value) : String :=
  p.2.1.text ++ ": " ++ p.2.2.text

/-- The texts of the entries of a hash are taken one by one. -/
theorem entryTexts_eq_map (es : List (HashKey × Value × Value)) :
    entryTexts es = es.map entryText := by
  induction es with
  | nil => rfl
  | cons p es ih =>
      rw [entryTexts, ih]
      rfl

end Value

end MonkeyLang

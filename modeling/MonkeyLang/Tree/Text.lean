/-
The text of a tree: its source form with every operator application and
every index in parentheses.

* `Node.text`: the text; an absent child of an expression is written
  `None`, an absent child of a statement not at all;
* `Node.texts`: the texts of several nodes.
-/
import MonkeyLang.Tree.Node

namespace MonkeyLang.Node

/-- How an absent child of an expression is written. -/
def missingText : String := "None"

mutual

/-- The text of a tree. -/
def text : Node → String
  | missing => missingText
  | program ss => String.join (texts ss)
  | letStmt t name v =>
    t.text ++ " " ++ name.text ++ " = " ++
      (if v.isMissing then "" else text v) ++ ";"
  | returnStmt t v =>
    t.text ++ " " ++ (if v.isMissing then "" else text v) ++ ";"
  | exprStmt _ v => if v.isMissing then "" else text v
  | block _ ss => String.join (texts ss)
  | ident t | intLit t _ | boolLit t _ | strLit t => t.text
  | prefixOp t r => "(" ++ t.text ++ text r ++ ")"
  | infixOp t l r => "(" ++ text l ++ " " ++ t.text ++ " " ++ text r ++ ")"
  | conditional _ c a b =>
    "if" ++ text c ++ " " ++ text a ++
      if b.isMissing then "" else "else " ++ text b
  | function t ps b | macroFn t ps b =>
    t.text ++ "(" ++ String.intercalate ", " (texts ps) ++ ") " ++ text b
  | call _ c as => text c ++ "(" ++ String.intercalate ", " (texts as) ++ ")"
  | array _ es => "[" ++ String.intercalate ", " (texts es) ++ "]"
  | index _ l i => "(" ++ text l ++ "[" ++ text i ++ "])"
  | hash _ ps => "\x7b" ++ String.intercalate ", " (pairTexts ps) ++ "\x7d"

/-- The texts of several nodes. -/
def texts : List Node → List String
  | [] => []
  | n :: ns => text n :: texts ns

/-- The texts of the entries of a hash literal. -/
def pairTexts : List (Node × Node) → List String
  | [] => []
  | (k, v) :: ps => (text k ++ ":" ++ text v) :: pairTexts ps

end

/-- The texts of several nodes are taken one by one. -/
theorem texts_eq_map (ns : List Node) : texts ns = ns.map text := by
  induction ns with
  | nil => rfl
  | cons n ns ih => simp [texts, ih]

end MonkeyLang.Node

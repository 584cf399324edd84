import NaturalLanguage.Tree.Drawing

/-!
# Drawings written in one pass

A drawing can be written from its first character to its last. On the way from the root to a node
the strokes that stand in front of its lower rows are collected, and every row of a child begins
with them. How words are quoted is left open.

* `draw`: the drawing of a tree whose lower rows are indented.
* `hangChild_eq_hang`: the strokes are those that a child hangs on.
-/

namespace NaturalLanguage.Tree

/-- The stroke in front of the first row of a child. -/
def branch (isLast : Bool) : Char := if isLast then '╰' else '├'

/-- The stroke in front of the other rows of a child. -/
def trunk (isLast : Bool) : Char := if isLast then ' ' else '│'

theorem hangChild_eq_hang (isLast : Bool) :
    hangChild isLast =
      hang (String.singleton (branch isLast)) (String.singleton (trunk isLast)) := by
  cases isLast <;> rfl

theorem branch_injective {b b' : Bool} (h : branch b = branch b') : b = b' := by
  revert b b'
  decide

section Draw

variable (quoted : Word → String)

mutual
/-- Write the drawing of a tree, with `indent` in front of all rows but the first. -/
def draw (indent : String) : Tree → String
  | .leaf category word => "─ " ++ category ++ " " ++ quoted word ++ "\n"
  | .node head children => "─ " ++ head ++ "\n" ++ drawAll indent children

/-- Write the drawings of the children of a node. -/
def drawAll (indent : String) : List Tree → String
  | [] => ""
  | t :: ts =>
    indent.push (branch ts.isEmpty) ++ draw (indent.push (trunk ts.isEmpty)) t ++
      drawAll indent ts
end

end Draw

end NaturalLanguage.Tree

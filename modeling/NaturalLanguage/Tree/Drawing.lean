import NaturalLanguage.Text.Quoted
import NaturalLanguage.Tree.Basic

/-!
# Drawn trees

A drawing has one row for every node, children below their parent. Strokes in front of a row lead
from a child up to its parent: the first row of a child carries a branch, its other rows a trunk
if a sibling follows and a blank if none does. Words are quoted.

* `rows_ne_nil`: every tree has a row.
* `hang_cons`: which rows get which stroke.
-/

namespace NaturalLanguage.Tree

/-- Put `branch` before the first row and `trunk` before every other. -/
def hang (branch trunk : String) : List String → List String
  | [] => []
  | row :: rows => (branch ++ row) :: rows.map (trunk ++ ·)

/-- The strokes of a child: with a sibling below, or as the last child. -/
def hangChild (isLast : Bool) : List String → List String :=
  if isLast then hang "╰" " " else hang "├" "│"

@[simp] theorem hang_cons (branch trunk row : String) (rows : List String) :
    hang branch trunk (row :: rows) = (branch ++ row) :: rows.map (trunk ++ ·) := rfl

@[simp] theorem length_hangChild (isLast : Bool) (rows : List String) :
    (hangChild isLast rows).length = rows.length := by
  cases isLast <;> cases rows <;> simp [hangChild, hang]

mutual
/-- The rows of the drawing of a tree. -/
def rows : Tree → List String
  | .leaf category word => ["─ " ++ category ++ " " ++ Text.quote word]
  | .node head children => ("─ " ++ head) :: rowsAll children

/-- The rows of the children of a node. -/
def rowsAll : List Tree → List String
  | [] => []
  | t :: ts => hangChild ts.isEmpty t.rows ++ rowsAll ts
end

@[simp] theorem rows_leaf (category : Symbol) (word : Word) :
    (leaf category word).rows = ["─ " ++ category ++ " " ++ Text.quote word] := rfl

@[simp] theorem rows_node (head : Symbol) (children : List Tree) :
    (node head children).rows = ("─ " ++ head) :: rowsAll children := rfl

theorem rows_ne_nil (t : Tree) : t.rows ≠ [] := by
  cases t <;> simp

/-- The drawing: its rows, each with a line end. -/
def drawing (t : Tree) : String := String.join (t.rows.map (· ++ "\n"))

end NaturalLanguage.Tree

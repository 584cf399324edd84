import NaturalLanguage.Tree.Basic

/-!
# Bracketed trees

The bracketed form of a tree lists labels and words between square brackets, as in
`[NP [Art the] [N man]]`. An empty constituent has its label alone.
-/

namespace NaturalLanguage.Tree

mutual
/-- The bracketed form. -/
def brackets : Tree → String
  | .leaf category word => "[" ++ category ++ " " ++ word ++ "]"
  | .node head children => "[" ++ head ++ bracketsAll children ++ "]"

/-- The bracketed forms of several trees, each after a blank. -/
def bracketsAll : List Tree → String
  | [] => ""
  | t :: ts => " " ++ t.brackets ++ bracketsAll ts
end

@[simp] theorem brackets_leaf (category : Symbol) (word : Word) :
    (leaf category word).brackets = "[" ++ category ++ " " ++ word ++ "]" := rfl

@[simp] theorem brackets_node (head : Symbol) (children : List Tree) :
    (node head children).brackets = "[" ++ head ++ bracketsAll children ++ "]" := rfl

end NaturalLanguage.Tree

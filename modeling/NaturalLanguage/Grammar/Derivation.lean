import NaturalLanguage.Grammar.Basic
import NaturalLanguage.Tree.Basic

/-!
# Derivation trees

A tree is a derivation tree of a grammar if every word is accepted under its part of speech or as a
literal, and every node has the labels of its children as one of its alternatives. Whether a tree
is one is decided node by node.

* `Grammar.derives_node`: the condition at a node, with a condition on every child.
-/

namespace NaturalLanguage.Grammar

mutual
/-- Whether a tree is a derivation tree. -/
def derives (g : Grammar) : Tree → Bool
  | .leaf category word => g.accepts category word
  | .node head children =>
    decide (children.map Tree.label ∈ g.alternativesOf head) && g.derivesAll children

/-- Whether all trees of a list are derivation trees. -/
def derivesAll (g : Grammar) : List Tree → Bool
  | [] => true
  | t :: ts => g.derives t && g.derivesAll ts
end

theorem derivesAll_iff {g : Grammar} {ts : List Tree} :
    g.derivesAll ts = true ↔ ∀ t ∈ ts, g.derives t = true := by
  induction ts with
  | nil => simp [derivesAll]
  | cons t ts ih => simp [derivesAll, ih]

@[simp] theorem derives_leaf {g : Grammar} {category : Symbol} {word : Word} :
    g.derives (.leaf category word) = g.accepts category word := rfl

theorem derives_node {g : Grammar} {head : Symbol} {children : List Tree} :
    g.derives (.node head children) = true ↔
      children.map Tree.label ∈ g.alternativesOf head ∧ ∀ t ∈ children, g.derives t = true := by
  rw [derives, Bool.and_eq_true, decide_eq_true_iff, derivesAll_iff]

end NaturalLanguage.Grammar

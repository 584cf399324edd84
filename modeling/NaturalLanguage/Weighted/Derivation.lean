import NaturalLanguage.Tree.Basic
import NaturalLanguage.Weighted.Grammar

/-!
# Weights of derivation trees

The weight of a word under a category is the greatest weight with which it is listed there, and the
weight of a node is the product of the weights of its two children and of the greatest weight of
its rule, multiplied in this order. A tree that the grammar does not derive has no weight.

* `greatest_eq_none_iff`: only the empty list has no greatest weight.
* `WeightedGrammar.treeWeight_node`: the weight of a node.
-/

namespace NaturalLanguage

variable {W : Type}

/-- The greatest of some weights, the first one if several are equal. -/
def greatest [LE W] [DecidableLE W] : List W → Option W
  | [] => none
  | w :: ws => some (ws.foldl (fun best w => if w ≤ best then best else w) w)

@[simp] theorem greatest_eq_none_iff [LE W] [DecidableLE W] {ws : List W} :
    greatest ws = none ↔ ws = [] := by
  cases ws <;> simp [greatest]

namespace WeightedGrammar

variable [Mul W] [LE W] [DecidableLE W]

/-- The weights with which `word` is listed under `category`. -/
def lexicalWeights (g : WeightedGrammar W) (category : Symbol) (word : Word) : List W :=
  ((g.categories word).filter (·.1 == category)).map Prod.snd

/-- The weights of the rules `head -> left right`. -/
def ruleWeights (g : WeightedGrammar W) (head left right : Symbol) : List W :=
  (g.rules.filter fun r => r.head == head && r.left == left && r.right == right).map (·.weight)

/-- The weight of a tree that the grammar derives. -/
def treeWeight (g : WeightedGrammar W) : Tree → Option W
  | .leaf category word => greatest (g.lexicalWeights category word)
  | .node head [first, second] => do
    let left ← g.treeWeight first
    let right ← g.treeWeight second
    let rule ← greatest (g.ruleWeights head first.label second.label)
    return left * right * rule
  | .node _ _ => none

@[simp] theorem treeWeight_leaf {g : WeightedGrammar W} {category : Symbol} {word : Word} :
    g.treeWeight (.leaf category word) = greatest (g.lexicalWeights category word) := rfl

theorem treeWeight_node {g : WeightedGrammar W} {head : Symbol} {first second : Tree} {w : W} :
    g.treeWeight (.node head [first, second]) = some w ↔
      ∃ left right rule, g.treeWeight first = some left ∧ g.treeWeight second = some right ∧
        greatest (g.ruleWeights head first.label second.label) = some rule ∧
        left * right * rule = w := by
  rw [treeWeight]
  constructor
  · intro h
    obtain ⟨left, hleft, h⟩ := Option.bind_eq_some_iff.1 h
    obtain ⟨right, hright, h⟩ := Option.bind_eq_some_iff.1 h
    obtain ⟨rule, hrule, h⟩ := Option.bind_eq_some_iff.1 h
    exact ⟨left, right, rule, hleft, hright, hrule, Option.some.inj h⟩
  · rintro ⟨left, right, rule, hleft, hright, hrule, rfl⟩
    simp [hleft, hright, hrule]

end WeightedGrammar

end NaturalLanguage

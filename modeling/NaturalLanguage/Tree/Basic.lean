import NaturalLanguage.Symbol

/-!
# Trees

A tree has words under their parts of speech at its leaves and constituents at its inner nodes. A
node may have no children: an empty constituent.

* `Tree.leaves`: the words of a tree, left to right (`leavesAll_eq_flatMap`).
* `Tree.labels`: the symbols of a tree (`mem_labels_node`).
* `Tree.induction`: induction with a hypothesis for every child.
-/

namespace NaturalLanguage

/-- A constituent tree. -/
inductive Tree where
  | leaf (category : Symbol) (word : Word)
  | node (head : Symbol) (children : List Tree)

namespace Tree

instance : Inhabited Tree := ⟨.node "" []⟩

mutual
/-- Decides whether two trees are equal. -/
def decEq : (s t : Tree) → Decidable (s = t)
  | .leaf c w, .leaf c' w' =>
    if h : c = c' ∧ w = w' then isTrue (by simp [h]) else isFalse (by simpa using h)
  | .leaf _ _, .node _ _ => isFalse (by simp)
  | .node _ _, .leaf _ _ => isFalse (by simp)
  | .node h ts, .node h' ts' =>
    if hh : h = h' then
      match decEqAll ts ts' with
      | isTrue ht => isTrue (by simp [hh, ht])
      | isFalse ht => isFalse (by simp [ht])
    else isFalse (by simp [hh])

/-- Decides whether two lists of trees are equal. -/
def decEqAll : (ss ts : List Tree) → Decidable (ss = ts)
  | [], [] => isTrue rfl
  | [], _ :: _ => isFalse (by simp)
  | _ :: _, [] => isFalse (by simp)
  | s :: ss, t :: ts =>
    match decEq s t with
    | isFalse h => isFalse (by simp [h])
    | isTrue h =>
      match decEqAll ss ts with
      | isTrue hs => isTrue (by simp [h, hs])
      | isFalse hs => isFalse (by simp [hs])
end

instance : DecidableEq Tree := decEq

/-- Induction on a tree with a hypothesis for every child of a node. -/
@[elab_as_elim]
theorem induction {motive : Tree → Prop}
    (leaf : ∀ category word, motive (.leaf category word))
    (node : ∀ head children, (∀ t ∈ children, motive t) → motive (.node head children)) :
    ∀ t, motive t
  | .leaf category word => leaf category word
  | .node head children => node head children fun t _ => induction leaf node t

/-- The symbol at the root. -/
def label : Tree → Symbol
  | .leaf category _ => category
  | .node head _ => head

mutual
/-- The words at the leaves, left to right. -/
def leaves : Tree → List Word
  | .leaf _ word => [word]
  | .node _ children => leavesAll children

/-- The words of several trees, one tree after the other. -/
def leavesAll : List Tree → List Word
  | [] => []
  | t :: ts => t.leaves ++ leavesAll ts
end

theorem leavesAll_eq_flatMap (ts : List Tree) : leavesAll ts = ts.flatMap leaves := by
  induction ts with
  | nil => rfl
  | cons t ts ih => simp [leavesAll, ih]

@[simp] theorem leaves_leaf (category : Symbol) (word : Word) :
    (leaf category word).leaves = [word] := rfl

@[simp] theorem leaves_node (head : Symbol) (children : List Tree) :
    (node head children).leaves = children.flatMap leaves := by
  rw [leaves, leavesAll_eq_flatMap]

mutual
/-- The symbols at all nodes and leaves, each node before its children. -/
def labels : Tree → List Symbol
  | .leaf category _ => [category]
  | .node head children => head :: labelsAll children

/-- The symbols of several trees, one tree after the other. -/
def labelsAll : List Tree → List Symbol
  | [] => []
  | t :: ts => t.labels ++ labelsAll ts
end

theorem labelsAll_eq_flatMap (ts : List Tree) : labelsAll ts = ts.flatMap labels := by
  induction ts with
  | nil => rfl
  | cons t ts ih => simp [labelsAll, ih]

theorem mem_labels_leaf {sym category : Symbol} {word : Word} :
    sym ∈ (leaf category word).labels ↔ sym = category := List.mem_singleton

theorem mem_labels_node {sym head : Symbol} {children : List Tree} :
    sym ∈ (node head children).labels ↔ sym = head ∨ ∃ t ∈ children, sym ∈ t.labels := by
  rw [labels, labelsAll_eq_flatMap, List.mem_cons, List.mem_flatMap]

end Tree

end NaturalLanguage

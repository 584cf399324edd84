import NaturalLanguage.Chart.Edge

/-!
# Edges that are built call by call

An edge begins with a prediction and then advances over words and over finished edges, which were
built in the same way. A construction says which calls these are, those for the parts included. The
words of the edge can be collected in one pass that goes into the parts as it meets them.

* `Construction.build`: the edge that the calls give, or the error of the first call that fails.
* `collectLeaves`: the words of an edge, pushed one after the other.
-/

namespace NaturalLanguage.Edge

/-- Calls that build an edge. -/
inductive Construction where
  | predict (position : Nat) (head : Symbol) (body : List Symbol)
  | scan (base : Construction) (category : Symbol) (word : Word)
  | extend (base part : Construction)

namespace Construction

/-- The prediction that comes before all advances. -/
def prediction : Construction → Edge
  | predict position head body => .predict position head body
  | scan base _ _ => base.prediction
  | extend base _ => base.prediction

/-- Make the calls, with positions up to `last`. -/
def build (last : Nat) : Construction → Except ChartError Edge
  | predict position head body => .ok (.predict position head body)
  | scan base category word => do
    let e ← base.build last
    e.scanWithin last category word
  | extend base part => do
    let e ← base.build last
    let part ← part.build last
    e.extend part

end Construction

mutual
/-- Push the words of an edge to the words that were collected before. -/
def collectLeaves : Edge → (collected : Array Word) → Array Word
  | ⟨_, _, _, found, _⟩, collected => collectLeavesAll found collected

/-- Push the words of a list of items. -/
def collectLeavesAll : List (Found Edge) → (collected : Array Word) → Array Word
  | [], collected => collected
  | item :: items, collected => collectLeavesAll items (collectLeavesFound item collected)

/-- Push the words of an item. -/
def collectLeavesFound : Found Edge → (collected : Array Word) → Array Word
  | .word _ word, collected => collected.push word
  | .part e, collected => e.collectLeaves collected
end

mutual
theorem toList_collectLeaves : ∀ (e : Edge) (collected : Array Word),
    (e.collectLeaves collected).toList = collected.toList ++ e.leaves
  | ⟨_, _, _, found, _⟩, collected => by
    rw [collectLeaves, leaves, toList_collectLeavesAll found]

theorem toList_collectLeavesAll : ∀ (items : List (Found Edge)) (collected : Array Word),
    (collectLeavesAll items collected).toList = collected.toList ++ leavesAll items
  | [], collected => by rw [collectLeavesAll, leavesAll, List.append_nil]
  | item :: items, collected => by
    rw [collectLeavesAll, toList_collectLeavesAll items, toList_collectLeavesFound item, leavesAll,
      List.append_assoc]

theorem toList_collectLeavesFound : ∀ (item : Found Edge) (collected : Array Word),
    (collectLeavesFound item collected).toList = collected.toList ++ leavesFound item
  | .word _ word, collected => by rw [collectLeavesFound, Array.toList_push, leavesFound]
  | .part e, collected => by rw [collectLeavesFound, toList_collectLeaves e, leavesFound]
end

end NaturalLanguage.Edge

import NaturalLanguage.Symbol

/-!
# Weighted grammars in binary form

Every rule of a weighted grammar rewrites its head into two symbols, and its lexicon lists words
under their categories. Rules and lexical entries have weights, which are probabilities in a
grammar that was read or built; the weights are a parameter, because finding the best derivation
needs no more of them than a product and an order.
-/

namespace NaturalLanguage

/-- The rule `head -> left right`. -/
structure BinaryRule (W : Type) where
  head : Symbol
  left : Symbol
  right : Symbol
  weight : W

/-- A word listed under a category. -/
structure LexicalEntry (W : Type) where
  category : Symbol
  word : Word
  weight : W

/-- A grammar of binary rules and lexical entries. Both may be repeated. -/
structure WeightedGrammar (W : Type) where
  start : Symbol
  rules : List (BinaryRule W)
  lexicon : List (LexicalEntry W)

namespace WeightedGrammar

variable {W : Type}

/-- The categories that list `word`, with their weights. -/
def categories (g : WeightedGrammar W) (word : Word) : List (Symbol × W) :=
  (g.lexicon.filter (·.word == word)).map fun entry => (entry.category, entry.weight)

theorem mem_categories {g : WeightedGrammar W} {word : Word} {category : Symbol} {weight : W} :
    (category, weight) ∈ g.categories word ↔ ⟨category, word, weight⟩ ∈ g.lexicon := by
  simp only [categories, List.mem_map, List.mem_filter, beq_iff_eq, Prod.mk.injEq]
  constructor
  · rintro ⟨entry, ⟨hmem, rfl⟩, rfl, rfl⟩; exact hmem
  · exact fun h => ⟨_, ⟨h, rfl⟩, rfl, rfl⟩

end WeightedGrammar

end NaturalLanguage

import Mathlib.Data.List.Basic
import NaturalLanguage.Weighted.Grammar

/-!
# The lexicon by words

The lexicon of a weighted grammar is a list of entries. When the grammar is complete, they are
grouped in a hash map that knows the categories of every word.

* `WeightedGrammar.wordIndex`: categories by word.
* `WeightedGrammar.getD_wordIndex`: the index finds what searching the lexicon finds.
-/

namespace NaturalLanguage.WeightedGrammar

variable {W : Type}

/-- Note the category of an entry for its word, after those that were noted before. -/
def noteEntry (index : Std.HashMap Word (List (Symbol × W))) (entry : LexicalEntry W) :
    Std.HashMap Word (List (Symbol × W)) :=
  index.insert entry.word (index.getD entry.word [] ++ [(entry.category, entry.weight)])

/-- The categories of every word with their weights, noted entry by entry. -/
def wordIndex (g : WeightedGrammar W) : Std.HashMap Word (List (Symbol × W)) :=
  g.lexicon.foldl noteEntry ∅

/-- The index knows the categories of every word, in the order of the lexicon. -/
theorem getD_wordIndex (g : WeightedGrammar W) (word : Word) :
    g.wordIndex.getD word [] = g.categories word := by
  have hentries : ∀ (entries : List (LexicalEntry W))
      (index : Std.HashMap Word (List (Symbol × W))),
      (entries.foldl noteEntry index).getD word [] = index.getD word [] ++
        (entries.filter (·.word == word)).map fun entry => (entry.category, entry.weight) := by
    -- by induction on the entries, for whatever was noted before them
    intro entries
    induction entries with
    | nil => simp
    | cons entry entries ih =>
      intro index
      rw [List.foldl_cons, ih, noteEntry, Std.HashMap.getD_insert, List.filter_cons]
      by_cases hword : entry.word = word
      · simp [hword]
      · simp [hword]
  rw [wordIndex, hentries, categories]
  simp

end NaturalLanguage.WeightedGrammar

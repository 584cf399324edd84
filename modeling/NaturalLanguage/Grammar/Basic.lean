import NaturalLanguage.Symbol
import NaturalLanguage.Table

/-!
# Grammars

A grammar has rules, which rewrite a head into one of its alternatives, and a lexicon, which lists
the words of every part of speech. A symbol that is neither a head nor a part of speech is a
literal: it stands for the word that is spelled like it.

* `mem_categories`: the categories of a word are those that list it.
* `isA_iff`: a word is of a category exactly when the category lists it.
-/

namespace NaturalLanguage

/-- A context-free grammar with a lexicon. -/
structure Grammar where
  name : String
  /-- The alternatives of every head. -/
  rules : Table (List Symbol)
  /-- The words of every part of speech. -/
  lexicon : Table Word

namespace Grammar

/-- The grammar without rules and words. -/
def empty (name : String) : Grammar := ⟨name, ∅, ∅⟩

/-- The title under which a grammar is shown. -/
def title (g : Grammar) : String := "<Grammar " ++ g.name ++ ">"

/-- The bodies that `head` can be rewritten into. -/
def alternativesOf (g : Grammar) (head : Symbol) : List (List Symbol) := (g.rules.get head).toList

/-- The words listed under `category`. -/
def wordsOf (g : Grammar) (category : Symbol) : List Word := (g.lexicon.get category).toList

/-- The symbols that have rules. -/
def nonterminals (g : Grammar) : List Symbol := g.rules.keys.toList

/-- The parts of speech that list `word`, in the order of the lexicon. -/
def categories (g : Grammar) (word : Word) : List Symbol :=
  (g.lexicon.rows.filter (word ∈ ·.2)).map Prod.fst

/-- Whether `sym` has rules. -/
def isNonterminal (g : Grammar) (sym : Symbol) : Bool := g.rules.contains sym

/-- Whether `sym` is a part of speech of the lexicon. -/
def isCategory (g : Grammar) (sym : Symbol) : Bool := g.lexicon.contains sym

/-- Whether `sym` stands for the word that is spelled like it. -/
def isLiteral (g : Grammar) (sym : Symbol) : Bool := !g.isNonterminal sym && !g.isCategory sym

/-- Whether `word` is listed under `category`. -/
def isA (g : Grammar) (word : Word) (category : Symbol) : Bool := category ∈ g.categories word

/-- Whether `word` can be consumed where `sym` is expected. -/
def accepts (g : Grammar) (sym : Symbol) (word : Word) : Bool :=
  g.isA word sym || (g.isLiteral sym && sym == word)

theorem mem_categories {g : Grammar} {word : Word} {category : Symbol} :
    category ∈ g.categories word ↔
      ∃ words, (category, words) ∈ g.lexicon.rows ∧ word ∈ words := by
  simp [categories]

theorem isA_iff {g : Grammar} {word : Word} {category : Symbol} :
    g.isA word category = true ↔ word ∈ g.wordsOf category := by
  rw [isA, decide_eq_true_iff, mem_categories, wordsOf, ← OrderedSet.mem_def, Table.mem_get]

end Grammar

end NaturalLanguage

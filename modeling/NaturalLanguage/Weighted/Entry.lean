import NaturalLanguage.Decimal.Shortest
import NaturalLanguage.Grammar.Error
import NaturalLanguage.Text.Blank
import NaturalLanguage.Weighted.Grammar

/-!
# Probabilistic grammars from entries

A probabilistic grammar is built from a list of entries, each a rule or one word of a category.
Blanks around names do not count. An entry is refused for a blank name, then for a weight that is
no number between 0 and 1, then for a body that is not binary; the first refused entry decides the
error. Entries that are given again are kept again.

* `WeightedGrammar.ofEntries`: the grammar of a list of entries, or the error of the first bad one.
-/

namespace NaturalLanguage.WeightedGrammar

open Text

/-- One step in building a probabilistic grammar. -/
inductive Entry where
  | rule (head : Symbol) (body : List Symbol) (probability : Float)
  | word (category : Symbol) (word : Word) (probability : Float)

/-- Whether a number lies between 0 and 1. The negative zero does, what is not a number does not. -/
def isProbability (p : Float) : Bool := 0 ≤ p && p ≤ 1

/-- Refuses a number that is no probability. -/
def checkProbability (head : Symbol) (p : Float) : Except GrammarError Float :=
  if isProbability p then .ok p else .error (.badProbability head (Decimal.plain p))

/-- Either kind of item of a probabilistic grammar. -/
abbrev Item := BinaryRule Float ⊕ LexicalEntry Float

/-- The rule of a head and a body. -/
def checkRule (head : Symbol) (body : List Symbol) (p : Float) :
    Except GrammarError (BinaryRule Float) :=
  if head = "" ∨ "" ∈ body then .error (.emptySymbol (GrammarError.ruleText head body))
  else do
    let p ← checkProbability head p
    match body with
    | [left, right] => .ok ⟨head, left, right, p⟩
    | _ => .error (.notBinary head body)

/-- The lexical entry of a category and a word. -/
def checkWord (category : Symbol) (word : Word) (p : Float) :
    Except GrammarError (LexicalEntry Float) :=
  if category = "" then .error (.emptySymbol "lexicon")
  else if word = "" then .error (.emptyWord category)
  else do
    let p ← checkProbability category p
    return ⟨category, word, p⟩

/-- The item of an entry without blanks around its names, or the reason to refuse the entry. -/
def Entry.checked : Entry → Except GrammarError Item
  | .rule head body p => (checkRule (trim head) (body.map trim) p).map .inl
  | .word category spelled p => (checkWord (trim category) (trim spelled) p).map .inr

/-- The grammar that holds the given items in their order. -/
def ofItems (start : Symbol) (items : List Item) : WeightedGrammar Float where
  start := start
  rules := items.filterMap Sum.getLeft?
  lexicon := items.filterMap Sum.getRight?

/-- The grammar of a list of entries, or the error of the first entry that is refused. -/
def ofEntries (start : Symbol) (entries : List Entry) :
    Except GrammarError (WeightedGrammar Float) :=
  (entries.mapM Entry.checked).map (ofItems start)

end NaturalLanguage.WeightedGrammar

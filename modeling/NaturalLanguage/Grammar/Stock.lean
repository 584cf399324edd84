import NaturalLanguage.Grammar.Rows

/-!
# Stock grammars

Grammars that are known by name.
-/

namespace NaturalLanguage.Grammar

/-- The start symbol of the stock grammars. -/
def defaultStart : Symbol := "S"

/-- A fragment of English about a cave with a wumpus. -/
def wumpusWorld : Except GrammarError Grammar :=
  ofRows "E0"
    [("S", "NP VP | S Conjunction S"),
      ("NP", "Pronoun | Name | Noun | Article Noun | Digit Digit | NP PP | NP RelClause"),
      ("VP", "Verb | VP NP | VP Adjective | VP PP | VP Adverb"),
      ("PP", "Preposition NP"),
      ("RelClause", "That VP")]
    [("Noun", "stench | breeze | glitter | nothing | wumpus | pit | pits | gold | east"),
      ("Verb", "is | see | smell | shoot | fell | stinks | go | grab | carry | kill | turn | feel"),
      ("Adjective", "right | left | east | south | back | smelly"),
      ("Adverb", "here | there | nearby | ahead | right | left | east | south | back"),
      ("Pronoun", "me | you | I | it"),
      ("Name", "John | Mary | Boston | Aristotle"),
      ("Article", "the | a | an"),
      ("Preposition", "to | in | on | near"),
      ("Conjunction", "and | or | but"),
      ("Digit", "0 | 1 | 2 | 3 | 4 | 5 | 6 | 7 | 8 | 9"),
      ("That", "that")]

/-- Short sentences in which `saw` is both a noun and a verb. -/
def sawSentences : Except GrammarError Grammar :=
  ofRows "E_"
    [("S", "NP VP"), ("NP", "Art N | Pronoun"), ("VP", "V NP")]
    [("Art", "the | a"),
      ("N", "man | woman | table | shoelace | saw"),
      ("Pronoun", "I | you | it"),
      ("V", "saw | liked | feel")]

/-- Noun phrases that recur on the right. -/
def nounPhrases : Except GrammarError Grammar :=
  ofRows "E_NP_" [("NP", "Adj NP | N")] [("Adj", "happy | handsome | hairy"), ("N", "man")]

/-- The stock grammar of a name. -/
def stock? (name : String) : Option Grammar :=
  if name = "E0" then wumpusWorld.toOption
  else if name = "E_" then sawSentences.toOption
  else if name = "E_NP_" then nounPhrases.toOption
  else none

end NaturalLanguage.Grammar

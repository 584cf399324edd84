import NaturalLanguage.Weighted.Rows

/-!
# Stock probabilistic grammars

Probabilistic grammars that are known by name. In each, the weights of the alternatives of a head
and those of the words of a category add up to one.
-/

namespace NaturalLanguage.WeightedGrammar

/-- Sentences about robots, sheep and fences. -/
def robotSentences : Except GrammarError (WeightedGrammar Float) :=
  ofRows "S"
    [("S", "NP VP [1.0]"),
      ("NP", "Article Noun [0.6] | Adjective Noun [0.4]"),
      ("VP", "Verb NP [0.5] | Verb Adjective [0.5]")]
    [("Article", "the [0.5] | a [0.25] | an [0.25]"),
      ("Noun", "robot [0.4] | sheep [0.4] | fence [0.2]"),
      ("Adjective", "good [0.5] | new [0.2] | sad [0.3]"),
      ("Verb", "is [0.5] | say [0.3] | are [0.2]")]

/-- The stock grammar of a name. -/
def stock? (name : String) : Option (WeightedGrammar Float) :=
  if name = "E_Prob_Chomsky" then robotSentences.toOption else none

end NaturalLanguage.WeightedGrammar

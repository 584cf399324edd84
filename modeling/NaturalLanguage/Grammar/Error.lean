import NaturalLanguage.Symbol
import NaturalLanguage.Text.Quoted

/-!
# Causes for refusing a grammar
-/

namespace NaturalLanguage

/-- Why an entry of a grammar is refused. -/
inductive GrammarError where
  /-- A symbol is blank; `context` is the rule it stands in, or says that it is a category. -/
  | emptySymbol (context : String)
  /-- A word listed under `category` is blank. -/
  | emptyWord (category : Symbol)
  /-- A written alternative of `head` does not end with a number in square brackets. -/
  | missingProbability (head : Symbol) (alternative : String)
  /-- The weight given for `head` is no number between 0 and 1. -/
  | badProbability (head : Symbol) (value : String)
  /-- The body of a rule in binary form does not have two symbols. -/
  | notBinary (head : Symbol) (body : List Symbol)
deriving DecidableEq

namespace GrammarError

/-- A rule as it is shown in messages. -/
def ruleText (head : Symbol) (body : List Symbol) : String :=
  head ++ " -> " ++ " ".intercalate body

/-- The text that tells the cause. -/
def message : GrammarError → String
  | emptySymbol context => "empty symbol name in " ++ Text.quote context
  | emptyWord category => "empty word in lexicon entry for " ++ category
  | missingProbability head alternative =>
    "missing probability for " ++ head ++ " -> " ++ alternative
  | badProbability head value => "bad probability " ++ Text.quote value ++ " for " ++ head
  | notBinary head body => "rule is not binary: " ++ ruleText head body

end GrammarError

end NaturalLanguage

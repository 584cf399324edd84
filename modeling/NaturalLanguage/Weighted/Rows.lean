import NaturalLanguage.Decimal.Read
import NaturalLanguage.Grammar.Rows
import NaturalLanguage.Weighted.Entry

/-!
# Written probabilistic grammars

Probabilistic grammars are written in the rows of `Grammar.Rows` with a probability in square
brackets after every alternative and after every word. The text before the last opening bracket is
the alternative or the word, so that both may hold brackets themselves. All rows are read before
the first entry is checked: an alternative that cannot be read is reported before any other
mistake.

* `WeightedGrammar.ofRows`: the grammar written in rows.
* `WeightedGrammar.ruleRow`, `WeightedGrammar.lexiconRow`: rows written from alternatives.
-/

namespace NaturalLanguage.WeightedGrammar

open Text

/-- The texts before and in the brackets at the end of an alternative. -/
def splitBrackets? (cs : List Char) : Option (List Char × List Char) :=
  match cs.reverse with
  | ']' :: rest =>
    match rest.dropWhile (· ≠ '[') with
    | '[' :: before => some (before.reverse, (rest.takeWhile (· ≠ '[')).reverse)
    | _ => none
  | _ => none

/-- The text of an alternative and its probability; `head` is reported in errors. -/
def readWeighted (head : Symbol) (alternative : String) : Except GrammarError (String × Float) :=
  let text := trim alternative
  match splitBrackets? text.toList with
  | none => .error (.missingProbability head text)
  | some (before, value) =>
    let value := trim (String.ofList value)
    match Decimal.read? value with
    | none => .error (.badProbability head value)
    | some p => .ok (trim (String.ofList before), p)

/-- The alternatives of a row, each beside the head of the row. -/
def rowAlternatives (row : Grammar.Row) : List (Symbol × String) :=
  (splitBars row.2).map fun alternative => (row.1, alternative)

/-- The entry of an alternative in a rule row. -/
def readRule (alternative : Symbol × String) : Except GrammarError Entry :=
  (readWeighted alternative.1 alternative.2).map fun (body, p) =>
    .rule alternative.1 (fields body) p

/-- The entry of an alternative in a lexicon row. -/
def readWord (alternative : Symbol × String) : Except GrammarError Entry :=
  (readWeighted alternative.1 alternative.2).map fun (word, p) => .word alternative.1 word p

/-- The grammar written in rows. -/
def ofRows (start : Symbol) (rules lexicon : List Grammar.Row) :
    Except GrammarError (WeightedGrammar Float) := do
  -- all rows are read here, before `ofEntries` checks an entry
  let ruleEntries ← (rules.flatMap rowAlternatives).mapM readRule
  let wordEntries ← (lexicon.flatMap rowAlternatives).mapM readWord
  ofEntries start (ruleEntries ++ wordEntries)

/-- An alternative with its probability, as it is written in a row. -/
def writeWeighted (text value : String) : String := text ++ " [" ++ value ++ "]"

/-- A rule row from pairs of symbols and the texts of their probabilities. -/
def ruleRow (head : Symbol) (alternatives : List (Symbol × Symbol × String)) : Grammar.Row :=
  (head, " | ".intercalate (alternatives.map fun (left, right, value) =>
    writeWeighted (left ++ " " ++ right) value))

/-- A lexicon row from words and the texts of their probabilities. -/
def lexiconRow (category : Symbol) (words : List (Word × String)) : Grammar.Row :=
  (category, " | ".intercalate (words.map fun (word, value) => writeWeighted word value))

end NaturalLanguage.WeightedGrammar

import NaturalLanguage.Grammar.Entry

/-!
# Written grammars

A grammar is written in rows. A rule row gives a head and its alternatives, separated by vertical
bars, with blanks between the symbols of an alternative; an empty alternative is an empty body. A
lexicon row gives a part of speech and its words, separated by vertical bars.

* `Grammar.ofRows`: the grammar written in rows.
* `Grammar.ruleRows`, `Grammar.lexiconRows`: a grammar written in rows again.
-/

namespace NaturalLanguage.Grammar

open Text

/-- A head or a part of speech with the text written beside it. -/
abbrev Row := Symbol × String

/-- The alternatives of a rule row. -/
def readAlternatives (text : String) : List (List Symbol) := (splitBars text).map fields

/-- The words of a lexicon row. -/
def readWords (text : String) : List Word := (splitBars text).map trim

/-- The entries of a rule row: one for every alternative. -/
def ruleEntries (row : Row) : List Entry := (readAlternatives row.2).map (.rule row.1)

/-- The entry of a lexicon row. -/
def lexiconEntry (row : Row) : Entry := .words row.1 (readWords row.2)

/-- The grammar written in rows, rule rows first. -/
def ofRows (name : String) (rules lexicon : List Row) : Except GrammarError Grammar :=
  ofEntries name (rules.flatMap ruleEntries ++ lexicon.map lexiconEntry)

/-- Alternatives as they are written in a rule row. -/
def writeAlternatives (bodies : List (List Symbol)) : String :=
  " | ".intercalate (bodies.map (" ".intercalate ·))

/-- Words as they are written in a lexicon row. -/
def writeWords (words : List Word) : String := " | ".intercalate words

/-- The rules of a grammar, written in rows. -/
def ruleRows (g : Grammar) : List Row :=
  g.rules.rows.map fun row => (row.1, writeAlternatives row.2.toList)

/-- The lexicon of a grammar, written in rows. -/
def lexiconRows (g : Grammar) : List Row :=
  g.lexicon.rows.map fun row => (row.1, writeWords row.2.toList)

end NaturalLanguage.Grammar

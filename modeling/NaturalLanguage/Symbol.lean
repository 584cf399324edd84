/-!
# Symbols and words

Grammar symbols and surface words are plain text. The two abbreviations keep signatures readable:
a `Symbol` is a name that a grammar talks about, a `Word` is a token of a sentence.
-/

namespace NaturalLanguage

/-- The name of a constituent, of a part of speech or of a literal token. -/
abbrev Symbol := String

/-- A token of a sentence, as it is spelled. -/
abbrev Word := String

end NaturalLanguage

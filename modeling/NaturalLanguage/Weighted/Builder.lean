import NaturalLanguage.Weighted.Rows

/-!
# Building a probabilistic grammar while its rows are read

A probabilistic grammar can also be built alternative by alternative. Every alternative is read and
the builder takes its entry at once. The builder remembers the cause of the first refusal and goes
on, but an alternative that cannot be read ends everything, whatever is remembered.

* `Builder.take`: one more entry; `Builder.finish`: the grammar, or the remembered cause.
* `Alternative`, `alternatives`: the alternatives of all rows, in the order in which they are read.
* `readRows`: reading and taking by turns.
-/

namespace NaturalLanguage.WeightedGrammar

open Text

/-- A probabilistic grammar under construction. -/
structure Builder where
  rules : List (BinaryRule Float)
  lexicon : List (LexicalEntry Float)
  /-- Why the first refused entry was refused. -/
  error? : Option GrammarError

namespace Builder

/-- The builder before the first entry. -/
def empty : Builder := ⟨[], [], none⟩

/-- Remember a cause, unless there is an earlier one. -/
def refuse (b : Builder) (cause : GrammarError) : Builder :=
  { b with error? := b.error?.or (some cause) }

/-- Take a rule with good names and a good weight, which still has to be binary. -/
def takeBinary (b : Builder) (head : Symbol) (p : Float) : List Symbol → Builder
  | [left, right] => { b with rules := b.rules ++ [⟨head, left, right, p⟩] }
  | body => b.refuse (.notBinary head body)

/-- Take one more rule. -/
def takeRule (b : Builder) (head : Symbol) (body : List Symbol) (p : Float) : Builder :=
  if head = "" ∨ "" ∈ body then b.refuse (.emptySymbol (GrammarError.ruleText head body))
  else if isProbability p then b.takeBinary head p body
  else b.refuse (.badProbability head (Decimal.plain p))

/-- Take one more word of a category. -/
def takeWord (b : Builder) (category : Symbol) (word : Word) (p : Float) : Builder :=
  if category = "" then b.refuse (.emptySymbol "lexicon")
  else if word = "" then b.refuse (.emptyWord category)
  else if isProbability p then { b with lexicon := b.lexicon ++ [⟨category, word, p⟩] }
  else b.refuse (.badProbability category (Decimal.plain p))

/-- Take one more entry, without the blanks around its names. -/
def take (b : Builder) : Entry → Builder
  | .rule head body p => b.takeRule (trim head) (body.map trim) p
  | .word category spelled p => b.takeWord (trim category) (trim spelled) p

/-- The grammar of what was taken so far. -/
def toGrammar (b : Builder) (start : Symbol) : WeightedGrammar Float := ⟨start, b.rules, b.lexicon⟩

/-- The grammar of the entries that were taken, or the cause of the first refusal. -/
def finish (b : Builder) (start : Symbol) : Except GrammarError (WeightedGrammar Float) :=
  match b.error? with
  | some cause => .error cause
  | none => .ok (b.toGrammar start)

end Builder

/-- A written alternative beside the head or the category of its row. -/
inductive Alternative where
  | rule (head : Symbol) (text : String)
  | word (category : Symbol) (text : String)
deriving DecidableEq

namespace Alternative

/-- The head or the category. -/
def name : Alternative → Symbol
  | rule head _ => head
  | word category _ => category

/-- The text as it stands between the bars of its row. -/
def text : Alternative → String
  | rule _ text => text
  | word _ text => text

/-- The entry of an alternative. -/
def read : Alternative → Except GrammarError Entry
  | rule head text => readRule (head, text)
  | word category text => readWord (category, text)

end Alternative

/-- The alternatives of the rule rows and then those of the lexicon rows. -/
def alternatives (rules lexicon : List Grammar.Row) : List Alternative :=
  (rules.flatMap rowAlternatives).map (fun alternative => .rule alternative.1 alternative.2) ++
    (lexicon.flatMap rowAlternatives).map fun alternative => .word alternative.1 alternative.2

/-- Read one more alternative and take its entry. -/
def Builder.readNext (b : Builder) (alternative : Alternative) : Except GrammarError Builder :=
  alternative.read.map b.take

/-- The grammar written in rows, with every entry taken as soon as it is read. -/
def readRows (start : Symbol) (rules lexicon : List Grammar.Row) :
    Except GrammarError (WeightedGrammar Float) := do
  let b ← (alternatives rules lexicon).foldlM Builder.readNext Builder.empty
  b.finish start

end NaturalLanguage.WeightedGrammar

import NaturalLanguage.Grammar.Entry

/-!
# Building a grammar entry by entry

A builder takes one entry after the other. It keeps what was given so far and the cause of the first
refusal. An entry after a refused one is still taken, but the grammar is refused in the end. Words
are listed one by one, so the words before a blank one are already in the lexicon when the entry is
refused.

* `Builder.take`: one more entry.
* `Builder.finish`: the grammar, or the first cause.
-/

namespace NaturalLanguage.Grammar

open Text

/-- A grammar under construction. -/
structure Builder where
  rules : Table (List Symbol)
  lexicon : Table Word
  /-- Why the first refused entry was refused. -/
  error? : Option GrammarError

namespace Builder

/-- The builder before the first entry. -/
def empty : Builder := ⟨∅, ∅, none⟩

/-- Remember a cause, unless there is an earlier one. -/
def refuse (b : Builder) (cause : GrammarError) : Builder :=
  { b with error? := b.error?.or (some cause) }

/-- Take one more alternative of a head. -/
def takeRule (b : Builder) (head : Symbol) (body : List Symbol) : Builder :=
  let symbols := body.map trim
  if trim head = "" ∨ "" ∈ symbols then b.refuse (.emptySymbol (GrammarError.ruleText head symbols))
  else { b with rules := b.rules.add (trim head) symbols }

/-- List words under a part of speech, up to the first blank one. -/
def listWords (b : Builder) (category : Symbol) : List Word → Builder
  | [] => b
  | word :: rest =>
    if trim word = "" then b.refuse (.emptyWord category)
    else listWords { b with lexicon := b.lexicon.add category (trim word) } category rest

/-- Take words of a part of speech. -/
def takeWords (b : Builder) (category : Symbol) (listed : List Word) : Builder :=
  if trim category = "" then b.refuse (.emptySymbol "lexicon")
  else listWords { b with lexicon := b.lexicon.ensure (trim category) } (trim category) listed

/-- Take one more entry. -/
def take (b : Builder) : Entry → Builder
  | .rule head body => b.takeRule head body
  | .words category listed => b.takeWords category listed

/-- The grammar of what was given so far. -/
def toGrammar (b : Builder) (name : String) : Grammar := ⟨name, b.rules, b.lexicon⟩

/-- The grammar of the entries that were taken, or the cause of the first refusal. -/
def finish (b : Builder) (name : String) : Except GrammarError Grammar :=
  match b.error? with
  | some cause => .error cause
  | none => .ok (b.toGrammar name)

end Builder

end NaturalLanguage.Grammar

import NaturalLanguage.Grammar.Basic
import NaturalLanguage.Grammar.Error
import NaturalLanguage.Text.Blank

/-!
# Grammars from entries

A grammar is built from a list of entries, each a rule or some words of one part of speech. Blanks
around names do not count. Blank names are refused, and the first entry that has one decides the
error; rules and words that are given again are kept once.

* `Grammar.ofEntries`: the grammar of a list of entries, or the error of the first bad one.
* `Grammar.Entry.checked_rule`, `Grammar.Entry.checked_words`: what a good entry becomes.
-/

namespace NaturalLanguage.Grammar

open Text

/-- One step in building a grammar. -/
inductive Entry where
  /-- One more alternative of `head`. -/
  | rule (head : Symbol) (body : List Symbol)
  /-- Words of `category`; without words it only names the category. -/
  | words (category : Symbol) (listed : List Word)
deriving DecidableEq

namespace Entry

/-- The entry without blanks around its names, or the reason to refuse it. The head of a refused
rule is reported as it was given, the symbols of its body without the blanks around them. -/
def checked : Entry → Except GrammarError Entry
  | .rule head body =>
    let symbols := body.map trim
    if trim head = "" ∨ "" ∈ symbols then
      .error (.emptySymbol (GrammarError.ruleText head symbols))
    else .ok (.rule (trim head) symbols)
  | .words category listed =>
    let words := listed.map trim
    if trim category = "" then .error (.emptySymbol "lexicon")
    else if "" ∈ words then .error (.emptyWord (trim category))
    else .ok (.words (trim category) words)

theorem checked_rule {head : Symbol} {body : List Symbol} (hhead : trim head ≠ "")
    (hbody : "" ∉ body.map trim) :
    (rule head body).checked = .ok (.rule (trim head) (body.map trim)) := by
  simp only [checked, hhead, hbody, or_self, if_false]

theorem checked_words {category : Symbol} {listed : List Word} (hcategory : trim category ≠ "")
    (hlisted : "" ∉ listed.map trim) :
    (words category listed).checked = .ok (.words (trim category) (listed.map trim)) := by
  simp only [checked, hcategory, hlisted, if_false]

end Entry

/-- Add the rule or the words of an entry. -/
def insert (g : Grammar) : Entry → Grammar
  | .rule head body => { g with rules := g.rules.add head body }
  | .words category listed =>
    { g with lexicon := listed.foldl (·.add category ·) (g.lexicon.ensure category) }

/-- The grammar of a list of entries, or the error of the first entry that is refused. -/
def ofEntries (name : String) (entries : List Entry) : Except GrammarError Grammar := do
  let entries ← entries.mapM Entry.checked
  return entries.foldl insert (empty name)

@[simp] theorem name_insert (g : Grammar) (entry : Entry) : (g.insert entry).name = g.name := by
  cases entry <;> rfl

end NaturalLanguage.Grammar

import NaturalLanguage.Sampling.Draw
import NaturalLanguage.Sampling.Height
import NaturalLanguage.Tree.Basic

/-!
# Random sentences

A random sentence of a grammar is read off a random tree, which is drawn from the root down and
from left to right. A nonterminal is rewritten into any of its alternatives as long as rewrites are
free, and into one of its shallowest alternatives after that, so that every tree is finite. A part
of speech becomes one of its words and a literal stands for itself. What cannot be rewritten, a
nonterminal without a finite derivation or a part of speech without words, is left without
children and adds no word to the sentence.

* `Grammar.randomTree`: a tree with the given number of free rewrites.
* `Grammar.randomSentence`: the words of such a tree.
-/

namespace NaturalLanguage.Grammar

variable {σ : Type} [DrawSource σ]

/-- The alternatives among which a nonterminal is rewritten with `free` free rewrites left. -/
def options (g : Grammar) (heights : Heights) (free : Nat) (sym : Symbol) : List (List Symbol) :=
  if free = 0 then g.shallowest heights sym else g.alternativesOf sym

/-- A random tree of a part of speech or of a literal. -/
def randomLeaf (g : Grammar) (sym : Symbol) : StateM σ Tree := do
  if g.isCategory sym then
    match ← DrawSource.choose (g.wordsOf sym) with
    | none => return .node sym []
    | some ⟨word, _⟩ => return .leaf sym word
  else return .leaf sym sym

/-- A random tree with root `sym`, of which the first `free` rewrites on every path are free. -/
def randomTree (g : Grammar) (heights : Heights) (free : Nat) (sym : Symbol) : StateM σ Tree := do
  if _hsym : g.isNonterminal sym = true then
    match ← DrawSource.choose (g.options heights free sym) with
    | none => return .node sym []
    | some ⟨body, _hbody⟩ =>
      let children ← body.attach.mapM fun ⟨child, _hchild⟩ =>
        g.randomTree heights (free - 1) child
      return .node sym children
  else g.randomLeaf sym
termination_by (free, g.rank heights sym)
decreasing_by
  -- without free rewrites the children are of less rank, and otherwise a free rewrite is used up
  by_cases hfree : free = 0
  · subst hfree
    exact Prod.Lex.right _ (rank_lt_of_mem_shallowest _hsym (by simpa [options] using _hbody) _hchild)
  · exact Prod.Lex.left _ _ (by omega)

/-- The number of free rewrites in a sentence, unless another is given. -/
def defaultDepth : Nat := 8

/-- A random sentence of `start`. -/
def randomSentence (g : Grammar) (start : Symbol) (free : Nat) : StateM σ (List Word) := do
  return (← g.randomTree g.heights free start).leaves

end NaturalLanguage.Grammar

import NaturalLanguage.Sampling.Sentence

/-!
# Drafts of random sentences

A random sentence can also be drawn without its tree. A draft holds the words so far and the symbols
that are still to be rewritten, each with the number of rewrites above it. In every step the next
symbol is taken off: it is replaced by the symbols of an alternative, one rewrite deeper, or by a
word, or it is dropped.

* `Draft.step`: one step; a draft without pending symbols stays as it is.
* `Draft.steps`: some steps.
-/

namespace NaturalLanguage

/-- A sentence in the making. -/
structure Draft where
  /-- The symbols that are still to be rewritten, the next one first, each with its depth. -/
  pending : List (Symbol × Nat)
  /-- The words so far. -/
  words : List Word

namespace Draft

/-- The draft that begins with a symbol. -/
def first (start : Symbol) : Draft := ⟨[(start, 0)], []⟩

variable {σ : Type} [DrawSource σ]

/-- Take the next symbol off. Below `maxDepth` rewrites it may become any of its alternatives, and
from there on one of its shallowest. -/
def step (g : Grammar) (heights : Heights) (maxDepth : Nat) (draft : Draft) : StateM σ Draft :=
  match draft.pending with
  | [] => return draft
  | (sym, depth) :: rest => do
    if g.isNonterminal sym then
      match ← DrawSource.choose
          (if depth < maxDepth then g.alternativesOf sym else g.shallowest heights sym) with
      | none => return ⟨rest, draft.words⟩
      | some ⟨body, _⟩ => return ⟨body.map (·, depth + 1) ++ rest, draft.words⟩
    else if g.isCategory sym then
      match ← DrawSource.choose (g.wordsOf sym) with
      | none => return ⟨rest, draft.words⟩
      | some ⟨word, _⟩ => return ⟨rest, draft.words ++ [word]⟩
    else return ⟨rest, draft.words ++ [sym]⟩

/-- Take some symbols off, one after the other. -/
def steps (g : Grammar) (heights : Heights) (maxDepth : Nat) :
    (count : Nat) → Draft → StateM σ Draft
  | 0, draft => return draft
  | count + 1, draft => do steps g heights maxDepth count (← step g heights maxDepth draft)

end Draft

end NaturalLanguage

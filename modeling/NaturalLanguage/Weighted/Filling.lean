import Mathlib.Data.List.Basic
import NaturalLanguage.Weighted.Best

/-!
# Filling the table in place

The table of best derivations can also be filled in place. One map holds a cell for every span that
has a derivation so far, and a cell is improved offer by offer. First the lexicon makes its offers
to the words from left to right. Then the rules make theirs to the longer spans: shorter spans come
first, then those further to the left, then shorter first parts, then earlier rules. An offer reads
the map as it is at that moment.

* `Filling.offer`: one offer to one span.
* `Filling.ofWords`: the map of a sentence after all offers.
-/

namespace NaturalLanguage

/-- Cells by the beginning and the length of their spans. -/
abbrev Filling (W : Type) := Std.HashMap (Nat × Nat) (Cell W)

namespace Filling

variable {W : Type}

/-- The cell of the span of `length` words from `start`. -/
def cell (f : Filling W) (start length : Nat) : Cell W := f.getD (start, length) []

section Offers

variable [OfNat W 0]

/-- The weight of the best derivation of `sym` over a span so far, zero without a derivation. -/
def weight (f : Filling W) (sym : Symbol) (start length : Nat) : W :=
  (f.cell start length).weight sym

variable [LE W] [DecidableLE W]

/-- Take an offer to a span if it is better than what is held for its symbol. -/
def offer (f : Filling W) (start length : Nat) (made : Symbol × Best W) : Filling W :=
  if made.2.weight ≤ f.weight made.1 start length then f
  else f.insert (start, length) (made :: (f.cell start length).filter (·.1 ≠ made.1))

/-- Take the offers of the lexicon to a word at its place in the sentence. -/
def offerWord (g : WeightedGrammar W) (f : Filling W) (placed : Word × Nat) : Filling W :=
  (BestTable.lexicalOffers g placed.1).foldl (·.offer placed.2 1 ·) f

variable [Mul W]

/-- The offer of a rule to a span whose first part covers `size` words. -/
def ruleOffer (f : Filling W) (start length size : Nat) (rule : BinaryRule W) : Symbol × Best W :=
  let left := f.weight rule.left start size
  let right := f.weight rule.right (start + size) (length - size)
  (rule.head, ⟨left * right * rule.weight, .split size rule.left rule.right⟩)

/-- Take the offers of all rules to a span whose first part covers `size` words. -/
def offerRules (g : WeightedGrammar W) (start length : Nat) (f : Filling W) (size : Nat) :
    Filling W :=
  g.rules.foldl (fun f rule => f.offer start length (f.ruleOffer start length size rule)) f

/-- Take the offers of all rules to the span of `length` words from `start`. -/
def offerSplits (g : WeightedGrammar W) (length : Nat) (f : Filling W) (start : Nat) : Filling W :=
  (List.range' 1 (length - 1)).foldl (offerRules g start length) f

/-- Take the offers of all rules to the spans of `length` words in a sentence of `size` words. -/
def offerSpans (g : WeightedGrammar W) (size : Nat) (f : Filling W) (length : Nat) : Filling W :=
  (List.range (size + 1 - length)).foldl (offerSplits g length) f

/-- The map of a sentence after all offers. -/
def ofWords (g : WeightedGrammar W) (words : List Word) : Filling W :=
  (List.range' 2 (words.length - 1)).foldl (offerSpans g words.length)
    (words.zipIdx.foldl (offerWord g) ∅)

end Offers

end Filling

end NaturalLanguage

import NaturalLanguage.Tree.Basic
import NaturalLanguage.Weighted.Grammar

/-!
# Best derivations

The table of best derivations has a cell for every span of a sentence, and a cell holds for every
symbol that derives the words of its span the greatest weight of such a derivation. The weight of
a word is that of its lexical entry; the weight of a constituent is the product of the weights of
its first part, its second part and its rule, in this order. A cell is computed from the cells of
shorter spans alone: it takes the best of all offers made to it, and of equal offers the first.

* `Cell.offer`: an offer that is not better than what a cell holds changes nothing.
* `BestTable.ofWords`: the table of a sentence; `BestTable.weight` and `BestTable.tree?` read it.
-/

namespace NaturalLanguage

/-- How a best derivation begins. -/
inductive Step where
  /-- With a word of the lexicon. -/
  | word (word : Word)
  /-- With a rule, whose first part covers `size` words. -/
  | split (size : Nat) (left right : Symbol)
deriving DecidableEq

/-- The weight of the best derivation of a symbol over a span, and how the derivation begins. -/
structure Best (W : Type) where
  weight : W
  step : Step

/-- The best derivations over one span, by symbol. -/
abbrev Cell (W : Type) := List (Symbol × Best W)

namespace Cell

variable {W : Type}

/-- The weight of the best derivation of `sym`, zero without a derivation. -/
def weight [OfNat W 0] (cell : Cell W) (sym : Symbol) : W :=
  match cell.lookup sym with
  | some best => best.weight
  | none => 0

/-- Take a derivation of a symbol if it is better than the one in the cell. -/
def offer [OfNat W 0] [LE W] [DecidableLE W] (cell : Cell W) (made : Symbol × Best W) : Cell W :=
  if made.2.weight ≤ cell.weight made.1 then cell
  else made :: cell.filter (·.1 ≠ made.1)

end Cell

/-- The cells of all spans of a sentence: those of one length in a row, by their beginning, and the
rows by length, from one word on. -/
structure BestTable (W : Type) where
  size : Nat
  rows : Array (Array (Cell W))

namespace BestTable

variable {W : Type}

/-- The cell of the span of `length` words from `start`, empty outside the sentence. -/
def cellOf (rows : Array (Array (Cell W))) (start length : Nat) : Cell W :=
  match length with
  | 0 => []
  | length + 1 => ((rows[length]?).bind (·[start]?)).getD []

section Fill

variable [OfNat W 0] [Mul W] [LE W] [DecidableLE W]

/-- The offers of the lexicon to a span of one word. -/
def lexicalOffers (g : WeightedGrammar W) (word : Word) : List (Symbol × Best W) :=
  (g.categories word).map fun (category, weight) => (category, ⟨weight, .word word⟩)

/-- The offer of a rule to a span whose first part covers `size` words. -/
def ruleOffer (shorter : Array (Array (Cell W))) (start length size : Nat) (rule : BinaryRule W) :
    Symbol × Best W :=
  let left := (cellOf shorter start size).weight rule.left
  let right := (cellOf shorter (start + size) (length - size)).weight rule.right
  (rule.head, ⟨left * right * rule.weight, .split size rule.left rule.right⟩)

/-- The offers to the span of `length` words from `start`, in the order in which they are made:
those of the lexicon, then those of the rules, for shorter first parts first. -/
def offers (g : WeightedGrammar W) (words : List Word) (shorter : Array (Array (Cell W)))
    (start length : Nat) : List (Symbol × Best W) :=
  let lexical := if length = 1 then words[start]?.toList.flatMap (lexicalOffers g) else []
  lexical ++ (List.range' 1 (length - 1)).flatMap fun size =>
    g.rules.map (ruleOffer shorter start length size)

/-- The row of all spans of `length` words. -/
def rowOf (g : WeightedGrammar W) (words : List Word) (shorter : Array (Array (Cell W)))
    (length : Nat) : Array (Cell W) :=
  (Array.range (words.length + 1 - length)).map fun start =>
    (offers g words shorter start length).foldl Cell.offer []

/-- The rows of the spans of at most the given length. -/
def rowsUpTo (g : WeightedGrammar W) (words : List Word) : Nat → Array (Array (Cell W))
  | 0 => #[]
  | length + 1 =>
    let shorter := rowsUpTo g words length
    shorter.push (rowOf g words shorter (length + 1))

/-- The table of best derivations over the spans of a sentence. -/
def ofWords (g : WeightedGrammar W) (words : List Word) : BestTable W :=
  ⟨words.length, rowsUpTo g words words.length⟩

theorem size_rowsUpTo (g : WeightedGrammar W) (words : List Word) (n : Nat) :
    (rowsUpTo g words n).size = n := by
  induction n with
  | zero => rfl
  | succ n ih => simp [rowsUpTo, ih]

end Fill

/-- The cell of the span of `length` words from `start`. -/
def cell (t : BestTable W) (start length : Nat) : Cell W := cellOf t.rows start length

/-- The weight of the best derivation of `sym` over a span, zero without a derivation. -/
def weight [OfNat W 0] (t : BestTable W) (sym : Symbol) (start length : Nat) : W :=
  (t.cell start length).weight sym

/-- The weight of the best derivation of `sym` over the sentence. -/
def best [OfNat W 0] (t : BestTable W) (sym : Symbol) : W := t.weight sym 0 t.size

/-- The best derivation of `sym` over a span. -/
def tree? (t : BestTable W) (sym : Symbol) (start length : Nat) : Option Tree :=
  match (t.cell start length).lookup sym with
  | none => none
  | some ⟨_, .word word⟩ => some (.leaf sym word)
  | some ⟨_, .split size left right⟩ =>
    if _h : 0 < size ∧ size < length then do
      let first ← t.tree? left start size
      let second ← t.tree? right (start + size) (length - size)
      return .node sym [first, second]
    else none
termination_by length
decreasing_by all_goals omega

/-- The best derivation of `sym` over the sentence. -/
def bestTree? (t : BestTable W) (sym : Symbol) : Option Tree := t.tree? sym 0 t.size

/-- A symbol with the span that it derives and the weight of its best derivation. -/
structure Derived (W : Type) where
  sym : Symbol
  start : Nat
  length : Nat
  weight : W

/-- What is derived in the cell of a span, by symbol. -/
def derivedIn (t : BestTable W) (start length : Nat) : List (Derived W) :=
  ((t.cell start length).map fun (sym, best) => ⟨sym, start, length, best.weight⟩).mergeSort
    fun a b => a.sym ≤ b.sym

/-- All that is derived, by beginning, length and symbol. -/
def derived (t : BestTable W) : List (Derived W) :=
  (List.range t.size).flatMap fun start =>
    (List.range' 1 (t.size - start)).flatMap (t.derivedIn start)

/-- The number of pairs of a span and a symbol that derives it. -/
def count (t : BestTable W) : Nat := t.derived.length

end BestTable

end NaturalLanguage

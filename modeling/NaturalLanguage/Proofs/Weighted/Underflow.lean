import NaturalLanguage.Proofs.Weighted.Optimal

/-!
# Derivations whose probability vanishes

The table takes a weight of zero for a missing derivation. A product of probabilities above zero can
be rounded to zero, however, and then a derivation is lost. This needs products below the least
positive number: it does not happen as long as there are few enough words.

* `BestTable.no_derivation_iff`: when the table of a sentence has no derivation of a symbol.
* `BestTable.exists_lost_derivation`: a derivation of two words that is lost.
-/

namespace NaturalLanguage

open Decimal

namespace WeightedGrammar

/-- All weights of a grammar are at least `2 ^ -k`. -/
structure AtLeast (g : WeightedGrammar Float) (k : Nat) : Prop where
  rules : ∀ rule ∈ g.rules, Decimal.AtLeast k rule.weight
  lexicon : ∀ entry ∈ g.lexicon, Decimal.AtLeast k entry.weight

/-- The weight of a derivation tree is at least the product of the least weights of its words and
rules, as long as this is not below the least positive number. -/
theorem AtLeast.treeWeight {g : WeightedGrammar Float} {k : Nat} (hk : g.AtLeast k)
    (hg : g.Bounded) {t : Tree} {w : Float} (hw : g.treeWeight t = some w)
    (hle : k * (2 * t.leaves.length - 1) ≤ 1074) :
    Decimal.AtLeast (k * (2 * t.leaves.length - 1)) w := by
  have ht : g.Derives t := exists_treeWeight_iff.1 ⟨w, hw⟩
  induction ht generalizing w with
  | leaf =>
    have hone : k * (2 * 1 - 1) = k := Nat.mul_one k
    rw [Tree.leaves_leaf, List.length_singleton, hone]
    exact hk.lexicon _ (hg.greatest_lexicalWeights hw).1
  | @node head first second _ _ hfirst hsecond ihfirst ihsecond =>
    obtain ⟨left, right, rule, hleft, hright, hgreatest, rfl⟩ := treeWeight_node.1 hw
    have hrule := hk.rules _ (hg.greatest_ruleWeights hgreatest).1
    have hpos := hfirst.leaves_length_pos
    have hpos' := hsecond.leaves_length_pos
    -- a node has one rule more than its two parts together
    have hsum : k * (2 * (Tree.node head [first, second]).leaves.length - 1) =
        k * (2 * first.leaves.length - 1) + k * (2 * second.leaves.length - 1) + k := by
      rw [Tree.leaves_node, ← Nat.mul_add, ← Nat.mul_succ]
      congr 1
      simp only [List.flatMap_cons, List.flatMap_nil, List.append_nil, List.length_append]
      omega
    rw [hsum] at hle ⊢
    exact ((ihfirst hleft (by omega)).mul (ihsecond hright (by omega)) (by omega)).mul hrule hle

end WeightedGrammar

namespace BestTable

section Laws

variable {W : Type} [OfNat W 0] [OfNat W 1] [Mul W] [LE W] [DecidableLE W] [UnitProduct W]
  {g : WeightedGrammar W} {words : List Word} {sym : Symbol} {start length : Nat}

/-- A symbol is not above zero in the table if no derivation tree is. -/
theorem weight_le_zero_iff (hg : g.Bounded) :
    (ofWords g words).weight sym start length ≤ 0 ↔
      ∀ t w, g.DerivesSpan words sym start length t → g.treeWeight t = some w → w ≤ 0 := by
  constructor
  · intro hzero t w ht hw
    exact UnitProduct.le_trans (hg.inUnit_treeWeight hw) (inUnit_weight hg _ _ _)
      UnitProduct.zero_inUnit (treeWeight_le_weight hg ht hw) hzero
  · intro hall
    by_contra hpos
    obtain ⟨t, ht, hw⟩ := exists_treeWeight_eq hg hpos
    exact hpos (hall t _ ht hw)

end Laws

/-- The table of a sentence has no derivation of a symbol exactly if all derivation trees over the
sentence weigh zero. If all weights are at least `2 ^ -k`, then up to `(1074 / k + 1) / 2` words
this means that there are no derivation trees. -/
theorem no_derivation_iff {top : Symbol} {entries : List WeightedGrammar.Entry}
    {g : WeightedGrammar Float} (h : WeightedGrammar.ofEntries top entries = .ok g)
    (words : List Word) (sym : Symbol) :
    let t := ofWords g words
    ((t.best sym == 0) = true ∧ t.bestTree? sym = none ↔
      ∀ tree, g.DerivesSpan words sym 0 words.length tree →
        ∃ w, g.treeWeight tree = some w ∧ (w == 0) = true) ∧
    ∀ k, g.AtLeast k → k * (2 * words.length - 1) ≤ 1074 →
      ((t.best sym == 0) = true ∧ t.bestTree? sym = none ↔
        ∀ tree, ¬ g.DerivesSpan words sym 0 words.length tree) := by
  have hg := WeightedGrammar.bounded_of_ofEntries h
  have hzero : InUnit (0 : Float) := UnitProduct.zero_inUnit
  have hbest : InUnit ((ofWords g words).best sym) := inUnit_weight hg _ _ _
  -- a symbol that is not above zero has no tree
  have hnone : ((ofWords g words).best sym == 0) = true ∧ (ofWords g words).bestTree? sym = none ↔
      (ofWords g words).best sym ≤ 0 := by
    rw [hbest.beq_iff hzero, Option.eq_none_iff_forall_ne_some, ← not_exists]
    have htree : (∃ tree, (ofWords g words).bestTree? sym = some tree) ↔ _ := exists_tree?_iff hg
    rw [htree, Decidable.not_not]
    exact ⟨fun h => h.2, fun h => ⟨⟨h, hbest.nonneg⟩, h⟩⟩
  have hall : (ofWords g words).best sym ≤ 0 ↔
      ∀ tree, g.DerivesSpan words sym 0 words.length tree →
        ∃ w, g.treeWeight tree = some w ∧ (w == 0) = true := by
    refine (weight_le_zero_iff hg).trans ⟨fun hall tree htree => ?_, fun hall tree w htree hw => ?_⟩
    · obtain ⟨w, hw⟩ := WeightedGrammar.exists_treeWeight_iff.2 htree.derives
      have hin : InUnit w := hg.inUnit_treeWeight hw
      exact ⟨w, hw, (hin.beq_iff hzero).2 ⟨hall tree w htree hw, hin.nonneg⟩⟩
    · obtain ⟨w', hw', hbeq⟩ := hall tree htree
      obtain rfl : w = w' := Option.some.inj (hw.symm.trans hw')
      exact (((hg.inUnit_treeWeight hw).beq_iff hzero).1 hbeq).1
  refine ⟨hnone.trans hall, fun k hk hle => (hnone.trans hall).trans ⟨?_, ?_⟩⟩
  · intro hall tree htree
    obtain ⟨w, hw, hbeq⟩ := hall tree htree
    -- within the bound the weight of the tree is not zero
    rw [← htree.leaves_length] at hle
    exact (hk.treeWeight hg hw hle).ne_zero hbeq
  · intro hno tree htree
    exact absurd htree (hno tree)

/-- Items whose probabilities are one half. -/
def halvedItems : List WeightedGrammar.Item := [.inl ⟨"S", "S", "S", 0.5⟩, .inr ⟨"S", "a", 0.5⟩]

/-- One half is at least `2 ^ -1`. -/
theorem atLeast_half : Decimal.AtLeast 1 0.5 := by
  have hbits : (0.5 : Float).toModel.toBits.toBitVec =
      Float.Model.UnpackedFloat.packComponents .binary64 .positive 1022#11 0#52 := by
    decide +kernel
  exact ⟨_, IsAmount.of_bits hbits (by decide) (by decide) (by decide +kernel), by decide +kernel⟩

/-- In a grammar of halves, sentences of up to 537 words do not lose their derivations. -/
theorem no_derivation_iff_halved :
    WeightedGrammar.ofEntries "S" (halvedItems.map WeightedGrammar.Item.entry) =
        .ok (WeightedGrammar.ofItems "S" halvedItems) ∧
      ∀ n ≤ 537, let t := ofWords (WeightedGrammar.ofItems "S" halvedItems) (List.replicate n "a")
        ((t.best "S" == 0) = true ∧ t.bestTree? "S" = none ↔
          ∀ tree, ¬ (WeightedGrammar.ofItems "S" halvedItems).DerivesSpan (List.replicate n "a")
            "S" 0 n tree) := by
  have hbuilt : WeightedGrammar.ofEntries "S" (halvedItems.map WeightedGrammar.Item.entry) =
      .ok (WeightedGrammar.ofItems "S" halvedItems) :=
    WeightedGrammar.ofEntries_map_entry "S" (by decide +kernel)
  have hhalf : (WeightedGrammar.ofItems "S" halvedItems).AtLeast 1 := by
    refine ⟨fun rule hrule => ?_, fun entry hentry => ?_⟩
    · obtain rfl : rule = ⟨"S", "S", "S", 0.5⟩ := List.mem_singleton.1 hrule
      exact atLeast_half
    · obtain rfl : entry = ⟨"S", "a", 0.5⟩ := List.mem_singleton.1 hentry
      exact atLeast_half
  refine ⟨hbuilt, fun n hn => ?_⟩
  have hiff := (no_derivation_iff hbuilt (List.replicate n "a") "S").2 1 hhalf
  rw [List.length_replicate] at hiff
  exact hiff (by omega)

/-- Items with two probabilities `2 ^ -600`. -/
def vanishingItems : List WeightedGrammar.Item :=
  [.inl ⟨"S", "A", "B", 1⟩, .inr ⟨"A", "a", Float.ofBits 0x1a70000000000000⟩,
    .inr ⟨"B", "b", Float.ofBits 0x1a70000000000000⟩]

/-- The product of two probabilities above zero is rounded to zero, and the only derivation of a
sentence is lost. -/
theorem exists_lost_derivation :
    ∃ g, WeightedGrammar.ofEntries "S" (vanishingItems.map WeightedGrammar.Item.entry) = .ok g ∧
      (∀ rule ∈ g.rules, 0 < rule.weight) ∧ (∀ entry ∈ g.lexicon, 0 < entry.weight) ∧
      ((ofWords g ["a", "b"]).best "S" == 0) = true ∧
      (ofWords g ["a", "b"]).bestTree? "S" = none ∧
      ∃ tree, g.DerivesSpan ["a", "b"] "S" 0 2 tree := by
  refine ⟨WeightedGrammar.ofItems "S" vanishingItems,
    WeightedGrammar.ofEntries_map_entry "S" (by decide +kernel), by decide +kernel,
    by decide +kernel, by decide +kernel, by decide +kernel, ?_⟩
  exact ⟨.node "S" [.leaf "A" "a", .leaf "B" "b"], .node List.mem_cons_self
    (.leaf List.mem_cons_self) (.leaf (List.mem_cons_of_mem _ List.mem_cons_self)),
    rfl, by decide, rfl⟩

end BestTable

end NaturalLanguage

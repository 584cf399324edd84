import NaturalLanguage.Proofs.Weighted.Optimal

/-!
# Grammars with more rules and words

A grammar that has all rules and lexical entries of another one has all its derivation trees, and
none of them weighs less. The table holds the greatest weights, so that none of its weights is less
either. The cells of the two tables may hold other steps, and may have been filled in another order:
only the greatest weights of whole spans are compared. The order and the number of the entries of a
grammar do not matter for them.

* `WeightedGrammar.Included`: all rules and lexical entries of a grammar are in another one.
* `WeightedGrammar.Included.exists_treeWeight`: no derivation tree weighs less.
* `BestTable.weight_mono`, `BestTable.weight_congr`: weights in the tables of the two grammars.
* `BestTable.weight_of_included`: both, for built grammars, and what is rebuilt.
-/

namespace NaturalLanguage

namespace WeightedGrammar

section Trees

variable {W : Type} {g g' : WeightedGrammar W} {words : List Word} {sym : Symbol}
  {start length : Nat} {t : Tree}

/-- Every rule and every lexical entry of `g` is one of `g'`, with the same weight. -/
structure Included (g g' : WeightedGrammar W) : Prop where
  rules : ∀ rule ∈ g.rules, rule ∈ g'.rules
  lexicon : ∀ entry ∈ g.lexicon, entry ∈ g'.lexicon

namespace Included

variable (h : g.Included g')

include h

theorem derives (ht : g.Derives t) : g'.Derives t := by
  induction ht with
  | leaf hentry => exact .leaf (h.lexicon _ hentry)
  | node hrule _ _ ihfirst ihsecond => exact .node (h.rules _ hrule) ihfirst ihsecond

theorem derivesSpan (ht : g.DerivesSpan words sym start length t) :
    g'.DerivesSpan words sym start length t :=
  { ht with derives := h.derives ht.derives }

variable [OfNat W 0] [OfNat W 1] [Mul W] [LE W] [DecidableLE W] [UnitProduct W]

/-- A derivation tree does not weigh less in a grammar with more rules and lexical entries. -/
theorem exists_treeWeight (hg : g.Bounded) (hg' : g'.Bounded) {w : W}
    (hw : g.treeWeight t = some w) : ∃ w', g'.treeWeight t = some w' ∧ w ≤ w' := by
  have ht : g.Derives t := exists_treeWeight_iff.1 ⟨w, hw⟩
  induction ht generalizing w with
  | leaf =>
    have hentry := h.lexicon _ (hg.greatest_lexicalWeights hw).1
    obtain ⟨w', hw'⟩ := exists_greatest_iff.2 ⟨w, mem_lexicalWeights.2 hentry⟩
    exact ⟨w', hw', (hg'.greatest_lexicalWeights hw').2 w hentry⟩
  | node _ _ _ ihfirst ihsecond =>
    obtain ⟨left, right, rule, hleft, hright, hgreatest, rfl⟩ := treeWeight_node.1 hw
    obtain ⟨left', hleft', hleleft⟩ := ihfirst hleft
    obtain ⟨right', hright', hleright⟩ := ihsecond hright
    have hrule := (hg.greatest_ruleWeights hgreatest).1
    obtain ⟨rule', hrule'⟩ := exists_greatest_iff.2 ⟨rule, mem_ruleWeights.2 (h.rules _ hrule)⟩
    obtain ⟨hmem', hgreatest'⟩ := hg'.greatest_ruleWeights hrule'
    refine ⟨left' * right' * rule',
      treeWeight_node.2 ⟨left', right', rule', hleft', hright', hrule', rfl⟩, ?_⟩
    -- the product grows with each factor
    have hinleft : InUnit left := hg.inUnit_treeWeight hleft
    have hinright : InUnit right := hg.inUnit_treeWeight hright
    have hinleft' : InUnit left' := hg'.inUnit_treeWeight hleft'
    have hinright' : InUnit right' := hg'.inUnit_treeWeight hright'
    have hparts : left * right ≤ left' * right' :=
      UnitProduct.mul_le_mul hinleft hinleft' hinright hinright' hleleft hleright
    exact UnitProduct.mul_le_mul (UnitProduct.mul_inUnit hinleft hinright)
      (UnitProduct.mul_inUnit hinleft' hinright') (hg.rules _ hrule) (hg'.rules _ hmem') hparts
      (hgreatest' rule (h.rules _ hrule))

end Included

end Trees

/-- Grammars of items are included in each other as the items are. -/
theorem included_ofItems (start start' : Symbol) {items items' : List Item}
    (h : items ⊆ items') : (ofItems start items).Included (ofItems start' items') where
  rules _ hrule := mem_rules_ofItems.2 (h (mem_rules_ofItems.1 hrule))
  lexicon _ hentry := mem_lexicon_ofItems.2 (h (mem_lexicon_ofItems.1 hentry))

end WeightedGrammar

namespace BestTable

section Laws

variable {W : Type} [OfNat W 0] [OfNat W 1] [Mul W] [LE W] [DecidableLE W] [UnitProduct W]
  {g g' : WeightedGrammar W} {words : List Word} {sym : Symbol} {start length : Nat}

/-- No weight of the table is less if there are more rules and lexical entries. -/
theorem weight_mono (hg : g.Bounded) (hg' : g'.Bounded) (h : g.Included g') :
    (ofWords g words).weight sym start length ≤ (ofWords g' words).weight sym start length := by
  have hbest' : InUnit ((ofWords g' words).weight sym start length) := inUnit_weight hg' _ _ _
  by_cases hzero : (ofWords g words).weight sym start length ≤ 0
  · rw [weight_eq_zero hg hzero]
    exact hbest'.nonneg
  · -- a best derivation tree is one of the larger grammar, too
    obtain ⟨t, ht, hw⟩ := exists_treeWeight_eq hg hzero
    obtain ⟨w', hw', hle⟩ := h.exists_treeWeight hg hg' hw
    exact UnitProduct.le_trans (inUnit_weight hg _ _ _) (hg'.inUnit_treeWeight hw') hbest' hle
      (treeWeight_le_weight hg' (h.derivesSpan ht) hw')

/-- Grammars with the same rules and lexical entries have the same weights. -/
theorem weight_congr (hg : g.Bounded) (hg' : g'.Bounded) (h : g.Included g')
    (h' : g'.Included g) :
    (ofWords g words).weight sym start length = (ofWords g' words).weight sym start length := by
  have hle : (ofWords g words).weight sym start length ≤
      (ofWords g' words).weight sym start length := weight_mono hg hg' h
  have hge : (ofWords g' words).weight sym start length ≤
      (ofWords g words).weight sym start length := weight_mono hg' hg h'
  have hbest : InUnit ((ofWords g words).weight sym start length) := inUnit_weight hg _ _ _
  have hbest' : InUnit ((ofWords g' words).weight sym start length) := inUnit_weight hg' _ _ _
  by_cases hzero : (ofWords g words).weight sym start length ≤ 0
  · -- neither table has a derivation, so both weights are the same zero
    have hzero' : (ofWords g' words).weight sym start length ≤ 0 :=
      UnitProduct.le_trans hbest' hbest UnitProduct.zero_inUnit hge hzero
    rw [weight_eq_zero hg hzero, weight_eq_zero hg' hzero']
  · exact UnitProduct.eq_of_le_of_le hbest hbest' hzero hle hge

/-- What is rebuilt with one of two grammars with the same rules and lexical entries is as good a
derivation tree of the other one. -/
theorem derivesSpan_of_tree?_included (hg : g.Bounded) (hg' : g'.Bounded) (h : g.Included g')
    (h' : g'.Included g) {tree : Tree}
    (htree : (ofWords g' words).tree? sym start length = some tree) :
    g.DerivesSpan words sym start length tree ∧
      g.treeWeight tree = some ((ofWords g words).weight sym start length) := by
  obtain ⟨hderives', hw', hpos⟩ := derivesSpan_of_tree? hg' htree
  obtain ⟨w, hw, hle⟩ := h'.exists_treeWeight hg' hg hw'
  have hderives := h'.derivesSpan hderives'
  refine ⟨hderives, ?_⟩
  -- the tree does not weigh less in `g`, and nothing is above the table
  have hge : w ≤ (ofWords g words).weight sym start length := treeWeight_le_weight hg hderives hw
  rw [weight_congr hg hg' h h'] at hge ⊢
  rw [hw, UnitProduct.eq_of_le_of_le (inUnit_weight hg' _ _ _) (hg.inUnit_treeWeight hw) hpos hle
    hge]

end Laws

/-- If all rules and lexical entries of one built grammar are also in another one, in any order and
with any others or repetitions beside them, then no weight of its table is above that of the other
table. If the two grammars have the same rules and entries up to order and repetitions, all weights
are the same, and only the choice among equally good derivation trees may differ. -/
theorem weight_of_included {top top' : Symbol} {entries entries' : List WeightedGrammar.Entry}
    {g g' : WeightedGrammar Float} (hg : WeightedGrammar.ofEntries top entries = .ok g)
    (hg' : WeightedGrammar.ofEntries top' entries' = .ok g') (h : g.Included g')
    (words : List Word) (sym : Symbol) (start length : Nat) :
    let t := ofWords g words
    let t' := ofWords g' words
    t.weight sym start length ≤ t'.weight sym start length ∧
    (g'.Included g → t.weight sym start length = t'.weight sym start length ∧
      ∀ tree, t'.tree? sym start length = some tree →
        g.DerivesSpan words sym start length tree ∧
          g.treeWeight tree = some (t.weight sym start length)) := by
  have hbounded := WeightedGrammar.bounded_of_ofEntries hg
  have hbounded' := WeightedGrammar.bounded_of_ofEntries hg'
  refine ⟨weight_mono hbounded hbounded' h, fun h' => ⟨?_, ?_⟩⟩
  · exact weight_congr hbounded hbounded' h h'
  · exact fun tree htree => derivesSpan_of_tree?_included hbounded hbounded' h h' htree

/-- The items in reverse order. Another one of several equally good trees is rebuilt then. -/
theorem weight_of_included_tied :
    let reversed := WeightedGrammar.ofItems "S" tiedItems.reverse
    WeightedGrammar.ofEntries "S" (tiedItems.map WeightedGrammar.Item.entry) = .ok tied ∧
      WeightedGrammar.ofEntries "S" (tiedItems.reverse.map WeightedGrammar.Item.entry) =
        .ok reversed ∧
      tied.Included reversed ∧ reversed.Included tied ∧
      let t := ofWords tied ["a", "a", "a"]
      let t' := ofWords reversed ["a", "a", "a"]
      0 < t.weight "S" 0 3 ∧ t.weight "S" 0 3 = t'.weight "S" 0 3 ∧
        t.tree? "S" 0 3 ≠ t'.tree? "S" 0 3 ∧
        ∃ tree, t'.tree? "S" 0 3 = some tree ∧ tied.treeWeight tree = some (t.weight "S" 0 3) := by
  have hbuilt : WeightedGrammar.ofEntries "S"
      (tiedItems.reverse.map WeightedGrammar.Item.entry) =
        .ok (WeightedGrammar.ofItems "S" tiedItems.reverse) :=
    WeightedGrammar.ofEntries_map_entry "S" (by decide +kernel)
  have hsub : tied.Included (WeightedGrammar.ofItems "S" tiedItems.reverse) :=
    WeightedGrammar.included_ofItems "S" "S" fun item hitem => List.mem_reverse.2 hitem
  have hsup : (WeightedGrammar.ofItems "S" tiedItems.reverse).Included tied :=
    WeightedGrammar.included_ofItems "S" "S" fun item hitem => List.mem_reverse.1 hitem
  obtain ⟨-, hsame⟩ := weight_of_included ofEntries_tied hbuilt hsub ["a", "a", "a"] "S" 0 3
  obtain ⟨hweight, hrebuilt⟩ := hsame hsup
  have htree : (ofWords (WeightedGrammar.ofItems "S" tiedItems.reverse) ["a", "a", "a"]).tree?
      "S" 0 3 = some (.node "S" [.leaf "S" "a", .node "S" [.leaf "S" "a", .leaf "N" "a"]]) := by
    decide +kernel
  exact ⟨ofEntries_tied, hbuilt, hsub, hsup, by decide +kernel, hweight, by decide +kernel, _,
    htree, (hrebuilt _ htree).2⟩

end BestTable

end NaturalLanguage

import NaturalLanguage.Proofs.Weighted.Backpointers

/-!
# Best derivations are best

The table keeps one derivation for every symbol and span. No other derivation has a greater weight:
products grow with each factor, also after rounding, so that a part with a smaller weight cannot be
a part of a better whole.

* `BestTable.treeWeight_le_weight`: no derivation tree is above the table.
* `BestTable.exists_treeWeight_eq`: a weight above zero is that of a derivation tree.
* `BestTable.exists_treeWeight_beq`: so is zero, unless there are no derivation trees.
* `BestTable.weight_optimal`: the table of a built grammar holds the greatest weights.
-/

namespace NaturalLanguage.BestTable

section Laws

variable {W : Type} [OfNat W 0] [OfNat W 1] [Mul W] [LE W] [DecidableLE W] [UnitProduct W]
  {g : WeightedGrammar W} {words : List Word} {sym : Symbol} {start length : Nat} {t : Tree}

/-- The table does not fall below the weight of a derivation tree. -/
theorem treeWeight_le_weight (hg : g.Bounded) (h : g.DerivesSpan words sym start length t) {w : W}
    (hw : g.treeWeight t = some w) : w ≤ (ofWords g words).weight sym start length := by
  have hspan : 1 ≤ length ∧ start + length ≤ words.length := ⟨h.length_pos, h.fits⟩
  -- by induction the table does not fall below the weights of the children
  induction length using Nat.strongRecOn generalizing sym start t w with
  | ind length ih =>
    rcases h.cases with ⟨rfl, word, -, hword, -, rfl⟩ |
      ⟨size, left, right, weight, first, second, hpos, hlt, -, hfirst, hsecond, rfl⟩
    · obtain ⟨hentry, -⟩ := hg.greatest_lexicalWeights hw
      -- the word was offered with its greatest weight
      have hoffer : (sym, ⟨w, .word word⟩) ∈ finalOffers g words start 1 :=
        mem_finalOffers.2 (.inl ⟨rfl, word, hword, hentry, rfl⟩)
      exact le_weight_of_mem hg hspan hoffer
    · obtain ⟨leftWeight, rightWeight, ruleWeight, hleft, hright, hgreatest, rfl⟩ :=
        WeightedGrammar.treeWeight_node.1 hw
      rw [hfirst.label, hsecond.label] at hgreatest
      obtain ⟨hrule, -⟩ := hg.greatest_ruleWeights hgreatest
      have hinleft := hg.inUnit_treeWeight hleft
      have hinright := hg.inUnit_treeWeight hright
      have hinrule : InUnit ruleWeight := hg.rules _ hrule
      -- so was the rule, with the weights of the table for its parts
      have hoffer : (sym, ⟨(ofWords g words).splitWeight start length size
          ⟨sym, left, right, ruleWeight⟩, .split size left right⟩) ∈
            finalOffers g words start length :=
        mem_finalOffers.2 (.inr ⟨size, _, hpos, hlt, hrule, rfl, rfl⟩)
      have hleleft : leftWeight ≤ (ofWords g words).weight left start size :=
        ih size hlt hfirst hleft ⟨hpos, hfirst.fits⟩
      have hleright : rightWeight ≤ (ofWords g words).weight right (start + size) (length - size) :=
        ih (length - size) (by omega) hsecond hright ⟨hsecond.length_pos, hsecond.fits⟩
      have htableleft : InUnit ((ofWords g words).weight left start size) := inUnit_weight hg _ _ _
      have htableright : InUnit ((ofWords g words).weight right (start + size) (length - size)) :=
        inUnit_weight hg _ _ _
      -- factor by factor, the weight of the tree is not above that offer
      refine UnitProduct.le_trans (UnitProduct.mul_inUnit (UnitProduct.mul_inUnit hinleft hinright)
        hinrule) (inUnit_finalOffers words start length hg _ hoffer) (inUnit_weight hg _ _ _) ?_
        (le_weight_of_mem hg hspan hoffer)
      exact UnitProduct.mul_le_mul (UnitProduct.mul_inUnit hinleft hinright)
        (UnitProduct.mul_inUnit htableleft htableright) hinrule hinrule
        (UnitProduct.mul_le_mul hinleft htableleft hinright htableright hleleft hleright)
        hinrule.refl

/-- Every derivation tree has a weight, which is not above the table. -/
theorem exists_treeWeight_le (hg : g.Bounded) (h : g.DerivesSpan words sym start length t) :
    ∃ w, g.treeWeight t = some w ∧ w ≤ (ofWords g words).weight sym start length := by
  obtain ⟨w, hw⟩ := WeightedGrammar.exists_treeWeight_iff.2 h.derives
  exact ⟨w, hw, treeWeight_le_weight hg h hw⟩

/-- A weight above zero is that of a derivation tree. -/
theorem exists_treeWeight_eq (hg : g.Bounded)
    (h : ¬ (ofWords g words).weight sym start length ≤ 0) :
    ∃ t, g.DerivesSpan words sym start length t ∧
      g.treeWeight t = some ((ofWords g words).weight sym start length) := by
  obtain ⟨best, hbest, hweight⟩ := exists_lookup_of_not_le_zero h
  obtain ⟨t, -, hderives, htree⟩ := exists_tree? hg hbest
  rw [hweight] at htree
  exact ⟨t, hderives, htree⟩

/-- A weight that is not above zero is the zero of a cell without the symbol. -/
theorem weight_eq_zero (hg : g.Bounded)
    (h : (ofWords g words).weight sym start length ≤ 0) :
    (ofWords g words).weight sym start length = 0 := by
  cases hlookup : ((ofWords g words).cell start length).lookup sym with
  | none => exact Cell.weight_of_lookup_eq_none hlookup
  | some best =>
    rw [weight, Cell.weight_of_lookup hlookup] at h
    exact absurd h (firstBest_of_lookup hg hlookup).2.2.not_le_zero

end Laws

/-- The table holds the weight of a derivation tree, up to the sign of zero, or zero if there is
none. -/
theorem exists_treeWeight_beq {g : WeightedGrammar Float} (hg : g.Bounded) (words : List Word)
    (sym : Symbol) (start length : Nat) :
    (∃ t w, g.DerivesSpan words sym start length t ∧ g.treeWeight t = some w ∧
        (w == (ofWords g words).weight sym start length) = true) ∨
      (∀ t, ¬ g.DerivesSpan words sym start length t) ∧
        (ofWords g words).weight sym start length = 0 := by
  have hbest : InUnit ((ofWords g words).weight sym start length) := inUnit_weight hg _ _ _
  by_cases hzero : (ofWords g words).weight sym start length ≤ 0
  · by_cases hderives : ∃ t, g.DerivesSpan words sym start length t
    · -- all derivation trees weigh zero
      obtain ⟨t, ht⟩ := hderives
      obtain ⟨w, hw, hle⟩ := exists_treeWeight_le hg ht
      have hin : InUnit w := hg.inUnit_treeWeight hw
      refine .inl ⟨t, w, ht, hw, (hin.beq_iff hbest).2 ⟨hle, ?_⟩⟩
      exact UnitProduct.le_trans hbest UnitProduct.zero_inUnit hin hzero hin.nonneg
    · exact .inr ⟨not_exists.1 hderives, weight_eq_zero hg hzero⟩
  · obtain ⟨t, ht, hw⟩ := exists_treeWeight_eq hg hzero
    exact .inl ⟨t, _, ht, hw, (hbest.beq_iff hbest).2 ⟨hbest.refl, hbest.refl⟩⟩

/-- The table of a built grammar holds for every symbol and span the greatest weight of a derivation
tree, and zero if there is none, in particular if the span is empty or ends after the sentence. Two
zeros may differ in their signs. -/
theorem weight_optimal {top : Symbol} {entries : List WeightedGrammar.Entry}
    {g : WeightedGrammar Float} (h : WeightedGrammar.ofEntries top entries = .ok g)
    (words : List Word) (sym : Symbol) (start length : Nat) :
    let best := (ofWords g words).weight sym start length
    (∀ t, g.DerivesSpan words sym start length t → ∃ w, g.treeWeight t = some w ∧ w ≤ best) ∧
    ((∃ t w, g.DerivesSpan words sym start length t ∧ g.treeWeight t = some w ∧
        (w == best) = true) ∨
      (∀ t, ¬ g.DerivesSpan words sym start length t) ∧ best = 0) ∧
    (length = 0 ∨ words.length < start + length → best = 0) := by
  have hg := WeightedGrammar.bounded_of_ofEntries h
  refine ⟨fun t ht => exists_treeWeight_le hg ht, exists_treeWeight_beq hg words sym start length,
    fun hspan => weight_eq_zero hg (Decidable.by_contra fun hpos => ?_)⟩
  obtain ⟨t, ht, -⟩ := exists_treeWeight_eq hg hpos
  have hlength := ht.length_pos
  have hfits := ht.fits
  omega

theorem weight_optimal_tied :
    WeightedGrammar.ofEntries "S" (tiedItems.map WeightedGrammar.Item.entry) = .ok tied ∧
      let best := (ofWords tied ["a", "a", "a"]).weight "S" 0 3
      0 < best ∧
        (∀ t, tied.DerivesSpan ["a", "a", "a"] "S" 0 3 t →
          ∃ w, tied.treeWeight t = some w ∧ w ≤ best) ∧
        ∃ t w, tied.DerivesSpan ["a", "a", "a"] "S" 0 3 t ∧ tied.treeWeight t = some w ∧
          (w == best) = true := by
  have hpos : 0 < (ofWords tied ["a", "a", "a"]).weight "S" 0 3 := by decide +kernel
  obtain ⟨hle, hattained, -⟩ := weight_optimal ofEntries_tied ["a", "a", "a"] "S" 0 3
  refine ⟨ofEntries_tied, hpos, hle, hattained.resolve_right ?_⟩
  rintro ⟨-, hzero⟩
  rw [hzero] at hpos
  exact absurd hpos (by decide +kernel)

end NaturalLanguage.BestTable

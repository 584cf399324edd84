import NaturalLanguage.Proofs.Weighted.Derivation
import NaturalLanguage.Proofs.Weighted.Entries

/-!
# Back pointers

A cell remembers how the best derivation of a symbol begins, and the derivation is rebuilt from the
cells of its parts. These are not changed any more when a longer span reads them, so that what is
rebuilt is a derivation with exactly the weight that the cell holds.

* `BestTable.exists_tree?`: the derivation of a symbol that a cell holds can be rebuilt.
* `BestTable.FirstSplit`, `BestTable.firstSplit_of_lookup`: of equally good splits a cell holds the
  first.
* `BestTable.rebuild_exact`: both, and which cells there are, for a built grammar.
-/

namespace NaturalLanguage

namespace Cell

variable {W : Type} {cell : Cell W} {sym : Symbol} {best : Best W}

/-- A cell that lists every symbol once holds what it lists. -/
theorem lookup_of_mem (h : (cell.map Prod.fst).Nodup) (hmem : (sym, best) ∈ cell) :
    cell.lookup sym = some best := by
  obtain ⟨before, after, rfl⟩ := List.mem_iff_append.1 hmem
  refine List.lookup_eq_some_iff.2 ⟨before, after, rfl, fun held hheld => ?_⟩
  rw [List.map_append, List.map_cons, List.nodup_append] at h
  rw [bne_iff_ne]
  exact (h.2.2 held.1 (List.mem_map_of_mem hheld) sym List.mem_cons_self).symm

variable [OfNat W 0] [LE W] [DecidableLE W]

/-- Offers keep every symbol listed once. -/
theorem nodup_offer (h : (cell.map Prod.fst).Nodup) (made : Symbol × Best W) :
    ((cell.offer made).map Prod.fst).Nodup := by
  rw [offer]
  split
  · exact h
  · rw [List.map_cons, List.nodup_cons]
    refine ⟨?_, h.sublist (List.filter_sublist.map Prod.fst)⟩
    simp

theorem nodup_foldl_offer (offers : List (Symbol × Best W)) :
    ((offers.foldl Cell.offer []).map Prod.fst).Nodup := by
  induction offers using List.reverseRecOn with
  | nil => exact .nil
  | append_singleton offers made ih =>
    rw [List.foldl_append, List.foldl_cons, List.foldl_nil]
    exact nodup_offer ih made

end Cell

namespace BestTable

variable {W : Type}

/-- The cells of a table list every symbol once. -/
theorem nodup_cell [OfNat W 0] [Mul W] [LE W] [DecidableLE W] (g : WeightedGrammar W)
    (words : List Word) (start length : Nat) :
    (((ofWords g words).cell start length).map Prod.fst).Nodup := by
  rw [cell_ofWords]
  split
  · exact Cell.nodup_foldl_offer _
  · exact .nil

/-! ### Rebuilding derivations -/

section Rebuild

variable {t : BestTable W} {sym : Symbol} {start length : Nat}

theorem tree?_of_lookup_eq_none (h : (t.cell start length).lookup sym = none) :
    t.tree? sym start length = none := by
  rw [tree?, h]

theorem tree?_of_word {weight : W} {word : Word}
    (h : (t.cell start length).lookup sym = some ⟨weight, .word word⟩) :
    t.tree? sym start length = some (.leaf sym word) := by
  rw [tree?, h]

theorem tree?_eq_some_iff_of_split {weight : W} {size : Nat} {left right : Symbol} {tree : Tree}
    (h : (t.cell start length).lookup sym = some ⟨weight, .split size left right⟩)
    (hsize : 0 < size ∧ size < length) :
    t.tree? sym start length = some tree ↔
      ∃ first second, t.tree? left start size = some first ∧
        t.tree? right (start + size) (length - size) = some second ∧
        tree = .node sym [first, second] := by
  rw [tree?, h]
  simp [hsize, Option.bind_eq_some_iff, @eq_comm _ tree]

/-- A symbol whose weight is above zero is held. -/
theorem exists_lookup_of_not_le_zero [OfNat W 0] [OfNat W 1] [Mul W] [LE W] [UnitProduct W]
    (h : ¬ t.weight sym start length ≤ 0) :
    ∃ best, (t.cell start length).lookup sym = some best ∧
      best.weight = t.weight sym start length := by
  cases hlookup : (t.cell start length).lookup sym with
  | none =>
    rw [weight, Cell.weight_of_lookup_eq_none hlookup] at h
    exact absurd UnitProduct.zero_inUnit.refl h
  | some best => exact ⟨best, rfl, (Cell.weight_of_lookup hlookup).symm⟩

end Rebuild

section Laws

variable [OfNat W 0] [OfNat W 1] [Mul W] [LE W] [DecidableLE W] [UnitProduct W]
  {g : WeightedGrammar W} {words : List Word} {sym : Symbol} {start length : Nat} {best : Best W}

/-- A word that a cell holds is derived with the weight that the cell holds. -/
theorem treeWeight_of_word (hg : g.Bounded) {weight : W} {word : Word}
    (hspan : words[start]? = some word)
    (h : Cell.FirstBest (finalOffers g words start 1) sym ⟨weight, .word word⟩)
    (hentry : ⟨sym, word, weight⟩ ∈ g.lexicon) :
    g.treeWeight (.leaf sym word) = some weight := by
  obtain ⟨listed, hlisted⟩ := WeightedGrammar.exists_greatest_iff.2
    ⟨weight, WeightedGrammar.mem_lexicalWeights.2 hentry⟩
  obtain ⟨hmem, hle⟩ := hg.greatest_lexicalWeights hlisted
  -- the greatest weight of the word was offered, too
  have hoffer : (sym, ⟨listed, .word word⟩) ∈ finalOffers g words start 1 :=
    mem_finalOffers.2 (.inl ⟨rfl, word, hspan, hmem, rfl⟩)
  have heq : weight = listed :=
    h.weight_eq (inUnit_finalOffers words start 1 hg) hoffer (hle weight hentry)
  rw [WeightedGrammar.treeWeight_leaf, hlisted, heq]

/-- If the parts of a split have the weights of their cells, the whole has the weight that its cell
holds. -/
theorem treeWeight_of_split (hg : g.Bounded) {size : Nat} {rule : BinaryRule W}
    {first second : Tree} (hsize : 1 ≤ size ∧ size < length) (hrule : rule ∈ g.rules)
    (h : Cell.FirstBest (finalOffers g words start length) rule.head
      ⟨(ofWords g words).splitWeight start length size rule, .split size rule.left rule.right⟩)
    (hfirst : g.DerivesSpan words rule.left start size first)
    (hsecond : g.DerivesSpan words rule.right (start + size) (length - size) second)
    (hleft : g.treeWeight first = some ((ofWords g words).weight rule.left start size))
    (hright : g.treeWeight second =
      some ((ofWords g words).weight rule.right (start + size) (length - size))) :
    g.treeWeight (.node rule.head [first, second]) =
      some ((ofWords g words).splitWeight start length size rule) := by
  obtain ⟨listed, hlisted⟩ := WeightedGrammar.exists_greatest_iff.2
    ⟨rule.weight, WeightedGrammar.mem_ruleWeights.2 hrule⟩
  obtain ⟨hmem, hle⟩ := hg.greatest_ruleWeights hlisted
  -- the rule was offered with its greatest weight, too
  have hoffer : (rule.head, ⟨(ofWords g words).splitWeight start length size
      ⟨rule.head, rule.left, rule.right, listed⟩, .split size rule.left rule.right⟩) ∈
        finalOffers g words start length :=
    mem_finalOffers.2 (.inr ⟨size, _, hsize.1, hsize.2, hmem, rfl, rfl⟩)
  have hparts : InUnit ((ofWords g words).weight rule.left start size *
      (ofWords g words).weight rule.right (start + size) (length - size)) :=
    UnitProduct.mul_inUnit (inUnit_weight hg _ _ _) (inUnit_weight hg _ _ _)
  have heq : (ofWords g words).splitWeight start length size rule =
      (ofWords g words).splitWeight start length size ⟨rule.head, rule.left, rule.right, listed⟩ :=
    h.weight_eq (inUnit_finalOffers words start length hg) hoffer
      (UnitProduct.mul_le_mul hparts hparts (hg.rules _ hrule) (hg.rules _ hmem) hparts.refl
        (hle _ hrule))
  rw [WeightedGrammar.treeWeight_node]
  refine ⟨_, _, listed, hleft, hright, ?_, heq.symm⟩
  rw [hfirst.label, hsecond.label, hlisted]

/-- The derivation of a symbol that a cell holds can be rebuilt. It derives the words of the span
with exactly the weight that the cell holds. -/
theorem exists_tree? (hg : g.Bounded)
    (h : ((ofWords g words).cell start length).lookup sym = some best) :
    ∃ t, (ofWords g words).tree? sym start length = some t ∧
      g.DerivesSpan words sym start length t ∧ g.treeWeight t = some best.weight := by
  -- the parts of a split are shorter, and they are held because the product is above zero
  induction length using Nat.strongRecOn generalizing sym start best with
  | ind length ih =>
    obtain ⟨-, -, hfirst⟩ := firstBest_of_lookup hg h
    obtain ⟨weight, step⟩ := best
    rcases mem_finalOffers.1 hfirst.mem with
      ⟨rfl, word, hword, hentry, hstep⟩ | ⟨size, rule, hpos, hlt, hrule, rfl, hbest⟩
    · obtain rfl : step = .word word := hstep
      exact ⟨_, tree?_of_word h, .of_entry hword hentry,
        treeWeight_of_word hg hword hfirst hentry⟩
    · obtain ⟨rfl, rfl⟩ := Best.mk.inj hbest
      have hleft : InUnit ((ofWords g words).weight rule.left start size) := inUnit_weight hg _ _ _
      have hright : InUnit ((ofWords g words).weight rule.right (start + size) (length - size)) :=
        inUnit_weight hg _ _ _
      obtain ⟨hparts, -⟩ := InUnit.not_le_zero_of_mul (UnitProduct.mul_inUnit hleft hright)
        (hg.rules _ hrule) hfirst.not_le_zero
      obtain ⟨hleftpos, hrightpos⟩ := InUnit.not_le_zero_of_mul hleft hright hparts
      obtain ⟨left, hlookupleft, hleftweight⟩ := exists_lookup_of_not_le_zero hleftpos
      obtain ⟨right, hlookupright, hrightweight⟩ := exists_lookup_of_not_le_zero hrightpos
      obtain ⟨first, htreefirst, hderivesfirst, hweightfirst⟩ := ih size hlt hlookupleft
      obtain ⟨second, htreesecond, hderivessecond, hweightsecond⟩ :=
        ih (length - size) (by omega) hlookupright
      rw [hleftweight] at hweightfirst
      rw [hrightweight] at hweightsecond
      exact ⟨_, (tree?_eq_some_iff_of_split h ⟨hpos, hlt⟩).2
          ⟨first, second, htreefirst, htreesecond, rfl⟩,
        .of_rule (Nat.le_of_lt hlt) hrule hderivesfirst hderivessecond,
        treeWeight_of_split hg ⟨hpos, hlt⟩ hrule hfirst hderivesfirst hderivessecond hweightfirst
          hweightsecond⟩

/-- What is rebuilt derives the words of the span with exactly the weight of the table, which is
above zero. -/
theorem derivesSpan_of_tree? (hg : g.Bounded) {tree : Tree}
    (h : (ofWords g words).tree? sym start length = some tree) :
    g.DerivesSpan words sym start length tree ∧
      g.treeWeight tree = some ((ofWords g words).weight sym start length) ∧
      ¬ (ofWords g words).weight sym start length ≤ 0 := by
  cases hlookup : ((ofWords g words).cell start length).lookup sym with
  | none => rw [tree?_of_lookup_eq_none hlookup] at h; cases h
  | some best =>
    obtain ⟨rebuilt, hrebuilt, hderives, hweight⟩ := exists_tree? hg hlookup
    obtain rfl : tree = rebuilt := Option.some.inj (h.symm.trans hrebuilt)
    rw [weight, Cell.weight_of_lookup hlookup]
    exact ⟨hderives, hweight, (firstBest_of_lookup hg hlookup).2.2.not_le_zero⟩

/-- A derivation is rebuilt for the symbols whose weight is above zero. -/
theorem exists_tree?_iff (hg : g.Bounded) :
    (∃ tree, (ofWords g words).tree? sym start length = some tree) ↔
      ¬ (ofWords g words).weight sym start length ≤ 0 := by
  constructor
  · rintro ⟨tree, htree⟩
    exact (derivesSpan_of_tree? hg htree).2.2
  · intro hpos
    obtain ⟨best, hbest, -⟩ := exists_lookup_of_not_le_zero hpos
    obtain ⟨tree, htree, -⟩ := exists_tree? hg hbest
    exact ⟨tree, htree⟩

end Laws

/-! ### The first of equally good splits -/

/-- What stands before a member of a concatenation: all earlier lists, and what stands before it in
its own. -/
theorem exists_of_flatMap_eq {α β : Type} {f : α → List β} {xs : List α} {before after : List β}
    {b : β} (h : xs.flatMap f = before ++ b :: after) :
    ∃ earlier x later front rest, xs = earlier ++ x :: later ∧ f x = front ++ b :: rest ∧
      before = earlier.flatMap f ++ front := by
  induction xs generalizing before with
  | nil => cases before <;> cases h
  | cons y ys ih =>
    rw [List.flatMap_cons, List.append_eq_append_iff] at h
    rcases h with ⟨front, rfl, htail⟩ | ⟨rest, hy, htail⟩
    · obtain ⟨earlier, x, later, front, rest, rfl, hx, rfl⟩ := ih htail
      exact ⟨y :: earlier, x, later, front, rest, rfl, hx, by simp⟩
    · cases rest with
      | nil =>
        -- the member is the first one of the tail
        have hstart : ys.flatMap f = [] ++ b :: after := htail.symm
        obtain ⟨earlier, x, later, front, rest, rfl, hx, hfront⟩ := ih hstart
        refine ⟨y :: earlier, x, later, front, rest, rfl, hx, ?_⟩
        rw [List.flatMap_cons, List.append_assoc, ← hfront, hy, List.append_nil, List.append_nil]
      | cons c rest =>
        obtain ⟨rfl, -⟩ := List.cons.inj htail
        exact ⟨[], y, ys, before, rest, rfl, hy, rfl⟩

/-- The splits of a span are compared by the length of their first parts, and for each length by the
place of their rules in the grammar. The split into `left` and `right` after `size` words has the
given weight, no split has a greater one, and no earlier split has the same. -/
structure FirstSplit [Mul W] [OfNat W 0] [LE W] (g : WeightedGrammar W) (t : BestTable W)
    (sym : Symbol) (start length size : Nat) (left right : Symbol) (weight : W) : Prop where
  one_le : 1 ≤ size
  lt_length : size < length
  le_weight : ∀ other rule, 1 ≤ other → other < length → rule ∈ g.rules → rule.head = sym →
    t.splitWeight start length other rule ≤ weight
  not_le_shorter : ∀ other rule, 1 ≤ other → other < size → rule ∈ g.rules → rule.head = sym →
    ¬ weight ≤ t.splitWeight start length other rule
  exists_rule : ∃ before rule after, g.rules = before ++ rule :: after ∧ rule.head = sym ∧
    rule.left = left ∧ rule.right = right ∧ t.splitWeight start length size rule = weight ∧
    ∀ earlier ∈ before, earlier.head = sym →
      ¬ weight ≤ t.splitWeight start length size earlier

variable [OfNat W 0] [OfNat W 1] [Mul W] [LE W] [DecidableLE W] [UnitProduct W]
  {g : WeightedGrammar W} {words : List Word} {sym : Symbol} {start length : Nat}

/-- If a cell holds a split, it is the first of the best. -/
theorem firstSplit_of_lookup (hg : g.Bounded) {weight : W} {size : Nat} {left right : Symbol}
    (h : ((ofWords g words).cell start length).lookup sym = some ⟨weight, .split size left right⟩) :
    FirstSplit g (ofWords g words) sym start length size left right weight := by
  obtain ⟨-, -, hfirst⟩ := firstBest_of_lookup hg h
  obtain ⟨before, after, hoffers, hbefore, -⟩ := hfirst.exists_split
  have hsize : 1 ≤ size ∧ size < length := by
    rcases mem_finalOffers.1 hfirst.mem with
      ⟨-, _, -, -, hstep⟩ | ⟨other, rule, hpos, hlt, -, -, heq⟩
    · cases hstep
    · cases heq
      exact ⟨hpos, hlt⟩
  -- a span with a split is longer than one word, and only rules make offers to it
  have hrules : finalOffers g words start length = (List.range' 1 (length - 1)).flatMap fun size =>
      g.rules.map (ruleOffer (ofWords g words).rows start length size) := by
    rw [finalOffers, offers, if_neg (by omega), List.nil_append]
  obtain ⟨shorter, held, longer, front, rest, hsizes, hheld, rfl⟩ :=
    exists_of_flatMap_eq (hrules.symm.trans hoffers)
  obtain ⟨earlier, later, hsplit, rfl, hlater⟩ := List.map_eq_append_iff.1 hheld
  obtain ⟨rule, later, rfl, hrule, -⟩ := List.map_eq_cons_iff.1 hlater
  obtain ⟨rfl, hbest⟩ := Prod.mk.inj hrule
  obtain ⟨rfl, hstep⟩ := Best.mk.inj hbest
  cases hstep
  refine ⟨hsize.1, hsize.2, ?_, ?_, earlier, rule, later, hsplit, rfl, rfl, rfl, rfl, ?_⟩
  · intro other offered hpos hlt hmem hhead
    exact hfirst.weight_le (inUnit_finalOffers words start length hg)
      (mem_finalOffers.2 (.inr ⟨other, offered, hpos, hlt, hmem, hhead, rfl⟩))
  · intro other offered hpos hlt hmem hhead
    -- the lengths are listed in order, so those below `size` stand before it
    have hother : other ∈ shorter := by
      obtain ⟨count, -, rfl, hlonger⟩ := List.range'_eq_append_iff.1 hsizes
      obtain ⟨hnext, -⟩ := List.range'_eq_cons_iff.1 hlonger.symm
      exact List.mem_range'_1.2 (by omega)
    refine hbefore ⟨_, .split other offered.left offered.right⟩ ?_
    refine List.mem_append_left _ (List.mem_flatMap.2 ⟨other, hother, ?_⟩)
    exact List.mem_map.2 ⟨offered, hmem, hhead ▸ rfl⟩
  · intro offered hmem hhead
    refine hbefore ⟨_, .split size offered.left offered.right⟩ ?_
    exact List.mem_append_right _ (List.mem_map.2 ⟨offered, hmem, hhead ▸ rfl⟩)

/-! ### Built grammars -/

/-- In the table of a built grammar, exactly the symbols above zero can be rebuilt. Only spans of
the sentence that are not empty have cells, and what they hold is above zero and at most one. What
is rebuilt is a derivation tree over the words of the span with exactly the weight of the table. It
begins with the split that the cell holds, which is the first of the best ones. -/
theorem rebuild_exact {top : Symbol} {entries : List WeightedGrammar.Entry}
    {g : WeightedGrammar Float} (h : WeightedGrammar.ofEntries top entries = .ok g)
    (words : List Word) (sym : Symbol) (start length : Nat) :
    let t := ofWords g words
    ((∃ tree, t.tree? sym start length = some tree) ↔ 0 < t.weight sym start length) ∧
    (∀ best, (sym, best) ∈ t.cell start length →
      1 ≤ length ∧ start + length ≤ words.length ∧ 0 < best.weight ∧ best.weight ≤ 1 ∧
        t.weight sym start length = best.weight) ∧
    (∀ tree, t.tree? sym start length = some tree →
      g.DerivesSpan words sym start length tree ∧
        g.treeWeight tree = some (t.weight sym start length)) ∧
    ∀ weight size left right,
      (t.cell start length).lookup sym = some ⟨weight, .split size left right⟩ →
        FirstSplit g t sym start length size left right weight ∧
        ∃ first second, t.tree? left start size = some first ∧
          t.tree? right (start + size) (length - size) = some second ∧
          t.tree? sym start length = some (.node sym [first, second]) := by
  have hg := WeightedGrammar.bounded_of_ofEntries h
  have hzero : InUnit (0 : Float) := UnitProduct.zero_inUnit
  refine ⟨?_, ?_, ?_, ?_⟩
  · rw [exists_tree?_iff hg, hzero.lt_iff_not_le (inUnit_weight hg sym start length)]
  · -- a cell lists every symbol once, so that it holds what it lists
    intro best hbest
    have hlookup := Cell.lookup_of_mem (nodup_cell g words start length) hbest
    obtain ⟨hpos, hfits, hfirst⟩ := firstBest_of_lookup hg hlookup
    have hin : InUnit best.weight := inUnit_finalOffers words start length hg _ hfirst.mem
    exact ⟨hpos, hfits, (hzero.lt_iff_not_le hin).2 hfirst.not_le_zero, hin.le_one,
      Cell.weight_of_lookup hlookup⟩
  · intro tree htree
    obtain ⟨hderives, hweight, -⟩ := derivesSpan_of_tree? hg htree
    exact ⟨hderives, hweight⟩
  · intro weight size left right hlookup
    have hfirst := firstSplit_of_lookup hg hlookup
    obtain ⟨tree, htree, -⟩ := exists_tree? hg hlookup
    obtain ⟨first, second, hleft, hright, rfl⟩ :=
      (tree?_eq_some_iff_of_split hlookup ⟨hfirst.one_le, hfirst.lt_length⟩).1 htree
    exact ⟨hfirst, first, second, hleft, hright, htree⟩

/-- Items with repetitions, equally good splits, a symbol that is never derived, and a word whose
probability is the negative zero. -/
def tiedItems : List WeightedGrammar.Item :=
  [.inl ⟨"S", "S", "S", 0.25⟩, .inl ⟨"S", "S", "S", 0.5⟩, .inl ⟨"S", "S", "N", 0.5⟩,
    .inl ⟨"S", "X", "N", 1⟩, .inr ⟨"S", "a", 0.5⟩, .inr ⟨"S", "a", 1⟩, .inr ⟨"N", "a", 1⟩,
    .inr ⟨"Z", "a", -0.0⟩]

/-- The grammar of these items. -/
def tied : WeightedGrammar Float := WeightedGrammar.ofItems "S" tiedItems

theorem ofEntries_tied :
    WeightedGrammar.ofEntries "S" (tiedItems.map WeightedGrammar.Item.entry) = .ok tied :=
  WeightedGrammar.ofEntries_map_entry "S" (by decide +kernel)

theorem rebuild_exact_tied :
    WeightedGrammar.ofEntries "S" (tiedItems.map WeightedGrammar.Item.entry) = .ok tied ∧
      let t := ofWords tied ["a", "a", "a"]
      0 < t.weight "S" 0 3 ∧
        (∃ tree, t.tree? "S" 0 3 = some tree ∧
          tied.DerivesSpan ["a", "a", "a"] "S" 0 3 tree ∧
          tied.treeWeight tree = some (t.weight "S" 0 3)) ∧
        ∃ weight, FirstSplit tied t "S" 0 3 1 "S" "S" weight := by
  have hstep : (((ofWords tied ["a", "a", "a"]).cell 0 3).lookup "S").map (·.step) =
      some (.split 1 "S" "S") := by decide +kernel
  have hpos : 0 < (ofWords tied ["a", "a", "a"]).weight "S" 0 3 := by decide +kernel
  obtain ⟨hiff, -, hrebuilt, hsplit⟩ := rebuild_exact ofEntries_tied ["a", "a", "a"] "S" 0 3
  obtain ⟨tree, htree⟩ := hiff.2 hpos
  obtain ⟨⟨weight, step⟩, hlookup, rfl⟩ := Option.map_eq_some_iff.1 hstep
  exact ⟨ofEntries_tied, hpos, ⟨tree, htree, hrebuilt tree htree⟩, weight,
    (hsplit weight 1 "S" "S" hlookup).1⟩

end BestTable

end NaturalLanguage

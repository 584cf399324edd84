import NaturalLanguage.Proofs.Weighted.Backpointers
import NaturalLanguage.Proofs.Weighted.Filling

/-!
# A part of a sentence as a sentence

The cell of a span depends on the words of the span only. It is the same in the table of any other
sentence that contains these words in this order, and in particular in the table of the span taken
as a sentence of its own: the offers to the cell are the same ones, in the same order.

* `BestTable.cell_span`: cells inside a span are those of the span as a sentence.
* `BestTable.tree?_span`: so are the derivations that are rebuilt there.
* `BestTable.span_eq_sentence`: weights and derivations over a span.
-/

namespace NaturalLanguage.BestTable

section Cells

variable {W : Type} [OfNat W 0] [Mul W] [LE W] [DecidableLE W] (g : WeightedGrammar W)
  {words : List Word} {start length offset size : Nat}

/-- A span of a span is offered the same in both sentences if the cells of shorter spans are the
same. -/
theorem finalOffers_span (hin : offset + size ≤ length)
    (hshorter : ∀ shorter < size, ∀ offset, offset + shorter ≤ length →
      (ofWords g words).cell (start + offset) shorter =
        (ofWords g ((words.drop start).take length)).cell offset shorter) :
    finalOffers g words (start + offset) size =
      finalOffers g ((words.drop start).take length) offset size := by
  have hlexical : (if size = 1 then words[start + offset]?.toList.flatMap (lexicalOffers g) else [])
      = if size = 1 then
          ((words.drop start).take length)[offset]?.toList.flatMap (lexicalOffers g) else [] := by
    split
    · rw [List.getElem?_take_of_lt (by omega), List.getElem?_drop]
    · rfl
  have hrules : ∀ first ∈ List.range' 1 (size - 1),
      g.rules.map (ruleOffer (ofWords g words).rows (start + offset) size first) =
        g.rules.map
          (ruleOffer (ofWords g ((words.drop start).take length)).rows offset size first) := by
    intro first hfirst
    rw [List.mem_range'_1] at hfirst
    -- both parts lie inside the span again
    have hleft := hshorter first (by omega) offset (by omega)
    have hright := hshorter (size - first) (by omega) (offset + first) (by omega)
    rw [← Nat.add_assoc] at hright
    simp only [cell] at hleft hright
    apply List.map_congr_left
    intro rule _
    rw [ruleOffer, ruleOffer, hleft, hright]
  rw [finalOffers, finalOffers, offers, offers, hlexical, List.flatMap_congr hrules]

/-- The cells inside a span are those of the span as a sentence. -/
theorem cell_span (hspan : start + length ≤ words.length) (hin : offset + size ≤ length) :
    (ofWords g words).cell (start + offset) size =
      (ofWords g ((words.drop start).take length)).cell offset size := by
  -- what is offered to a cell comes from the cells of shorter spans
  induction size using Nat.strongRecOn generalizing offset with
  | ind size ih =>
    have hlength : ((words.drop start).take length).length = length := by
      rw [List.length_take, List.length_drop]
      omega
    have hoffers := finalOffers_span g hin fun shorter hlt offset => ih shorter hlt
    rw [cell_ofWords, cell_ofWords, hoffers, hlength]
    exact if_congr (by omega) rfl rfl

/-- The derivations inside a span are those of the span as a sentence. -/
theorem tree?_span (hspan : start + length ≤ words.length) (hin : offset + size ≤ length)
    (sym : Symbol) :
    (ofWords g words).tree? sym (start + offset) size =
      (ofWords g ((words.drop start).take length)).tree? sym offset size := by
  induction size using Nat.strongRecOn generalizing sym offset with
  | ind size ih =>
    have hcell := cell_span g hspan hin
    rw [tree?, tree?, hcell]
    split
    · rfl
    · rfl
    · next weight first left right hlookup =>
      split
      · next hsize =>
        have hfirst : offset + first ≤ length := by omega
        have hsecond : offset + first + (size - first) ≤ length := by omega
        have hleft := ih first hsize.2 hfirst left
        have hright := ih (size - first) (by omega) hsecond right
        rw [← Nat.add_assoc] at hright
        rw [hleft, hright]
      · rfl

end Cells

/-- The table has the same cells whether it is filled in rows or in place. The weight of a symbol
over a span, and the derivation that is rebuilt there, are those of the span taken as a sentence of
its own. -/
theorem span_eq_sentence {W : Type} [OfNat W 0] [Mul W] [LE W] [DecidableLE W]
    (g : WeightedGrammar W) (words : List Word) {start length : Nat}
    (h : start + length ≤ words.length) (sym : Symbol) :
    let span := (words.drop start).take length
    (∀ sentence start length, (Filling.ofWords g sentence).cell start length =
      (ofWords g sentence).cell start length) ∧
    (Filling.ofWords g words).cell start length = (Filling.ofWords g span).cell 0 length ∧
    (ofWords g words).weight sym start length = (ofWords g span).weight sym 0 length ∧
    (ofWords g words).tree? sym start length = (ofWords g span).tree? sym 0 length := by
  have hin : 0 + length ≤ length := Nat.le_of_eq (Nat.zero_add length)
  have hcell := cell_span g h hin
  have htree := tree?_span g h hin sym
  rw [Nat.add_zero] at hcell htree
  refine ⟨Filling.cell_ofWords g, ?_, ?_, htree⟩
  · rw [Filling.cell_ofWords, Filling.cell_ofWords, hcell]
  · rw [weight, weight, hcell]

/-- Inside a longer sentence, three words have the derivation that they have alone, although there
are several ones with the same weight. -/
theorem span_eq_sentence_tied :
    1 + 3 ≤ ["b", "a", "a", "a", "c"].length ∧
      let t := ofWords tied ["b", "a", "a", "a", "c"]
      0 < t.weight "S" 1 3 ∧
        t.weight "S" 1 3 = (ofWords tied ["a", "a", "a"]).weight "S" 0 3 ∧
        t.tree? "S" 1 3 = (ofWords tied ["a", "a", "a"]).tree? "S" 0 3 ∧
        (ofWords tied ["a", "a", "a"]).tree? "S" 0 3 = some (.node "S"
          [.leaf "S" "a", .node "S" [.leaf "S" "a", .leaf "S" "a"]]) := by
  have hfits : 1 + 3 ≤ ["b", "a", "a", "a", "c"].length := by decide
  obtain ⟨-, -, hweight, htree⟩ := span_eq_sentence tied ["b", "a", "a", "a", "c"] hfits "S"
  exact ⟨hfits, by decide +kernel, hweight, htree, by decide +kernel⟩

end NaturalLanguage.BestTable

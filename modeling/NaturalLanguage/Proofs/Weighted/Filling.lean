import NaturalLanguage.Proofs.Weighted.Table
import NaturalLanguage.Weighted.Filling

/-!
# The table filled in place

Filling one map offer by offer comes to the same as filling the rows of the table one after the
other. An offer changes one cell, and it reads cells of shorter spans. These are final by then, so
that it does not matter how much of the map has been filled otherwise.

* `Filling.cell_foldl_offer`: what several offers to one span change.
* `Filling.FinalBelow`: the cells of all spans shorter than a given length are final.
* `Filling.cell_ofWords`: the filled map has the cells of the table.
-/

namespace NaturalLanguage.Filling

variable {W : Type}

@[simp] theorem cell_empty (start length : Nat) : (∅ : Filling W).cell start length = [] :=
  Std.HashMap.getD_empty

/-! ### Offers to one span -/

section Offers

variable [OfNat W 0] [LE W] [DecidableLE W]

/-- An offer to a span leaves the cells of all other spans as they are. -/
theorem cell_offer (f : Filling W) (start length : Nat) (made : Symbol × Best W)
    (start' length' : Nat) :
    (f.offer start length made).cell start' length' =
      if start' = start ∧ length' = length then (f.cell start length).offer made
      else f.cell start' length' := by
  by_cases hworse : made.2.weight ≤ f.weight made.1 start length
  · have hkept : (f.cell start length).offer made = f.cell start length := if_pos hworse
    rw [offer, if_pos hworse, hkept]
    split
    · next hspan => rw [hspan.1, hspan.2]
    · rfl
  · have hbetter : (f.cell start length).offer made =
        made :: (f.cell start length).filter (·.1 ≠ made.1) := if_neg hworse
    have hspan : ((start, length) == (start', length')) = true ↔
        start' = start ∧ length' = length := by
      rw [beq_iff_eq, Prod.mk.injEq, eq_comm, @eq_comm _ length]
    rw [offer, if_neg hworse, hbetter, cell, Std.HashMap.getD_insert]
    simp only [hspan]
    rfl

/-- Offers to a span are taken by its cell in order, and by no other cell. -/
theorem cell_foldl_offer (offers : List (Symbol × Best W)) (f : Filling W) (start length : Nat)
    (start' length' : Nat) :
    (offers.foldl (·.offer start length ·) f).cell start' length' =
      if start' = start ∧ length' = length then offers.foldl Cell.offer (f.cell start length)
      else f.cell start' length' := by
  induction offers generalizing f with
  | nil =>
    split
    · next hspan => rw [hspan.1, hspan.2]; rfl
    · rfl
  | cons made offers ih =>
    have htaken : (f.offer start length made).cell start length =
        (f.cell start length).offer made := by
      rw [cell_offer, if_pos ⟨rfl, rfl⟩]
    rw [List.foldl_cons, ih, List.foldl_cons, htaken]
    split
    · rfl
    · next hspan => rw [cell_offer, if_neg hspan]

end Offers

/-! ### Offers of words -/

section Words

variable [OfNat W 0] [LE W] [DecidableLE W] (g : WeightedGrammar W)

/-- Words that are placed one after the other make offers to one cell each. -/
theorem cell_foldl_offerWord (words : List Word) (place : Nat) (f : Filling W)
    (start length : Nat) :
    ((words.zipIdx place).foldl (offerWord g) f).cell start length =
      if length = 1 ∧ place ≤ start then
        (words[start - place]?.toList.flatMap (BestTable.lexicalOffers g)).foldl Cell.offer
          (f.cell start 1)
      else f.cell start length := by
  induction words generalizing place f with
  | nil =>
    split
    · next hspan => rw [hspan.1]; rfl
    · rfl
  | cons word words ih =>
    rw [List.zipIdx_cons, List.foldl_cons, ih]
    simp only [offerWord, cell_foldl_offer]
    by_cases hlength : length = 1
    · subst hlength
      -- the word is at this place, the place is among the later ones, or it comes before all
      rcases Nat.lt_trichotomy place start with hlater | rfl | hearlier
      · obtain ⟨more, rfl⟩ : ∃ more, start = place + 1 + more := ⟨start - place - 1, by omega⟩
        have hindex : place + 1 + more - place = more + 1 := by omega
        have hplace : place ≤ place + 1 + more := by omega
        have hother : place + 1 + more ≠ place := by omega
        simp [hindex, hplace, hother]
      · simp
      · have hlater : ¬ place + 1 ≤ start := by omega
        have hplace : ¬ place ≤ start := by omega
        simp [hlater, hplace, Nat.ne_of_lt hearlier]
    · simp [hlength]

end Words

/-! ### Offers of rules -/

section Rules

variable [OfNat W 0] [Mul W] [LE W] [DecidableLE W]

/-- The map holds the final cells of all spans of fewer than `length` words. -/
def FinalBelow (g : WeightedGrammar W) (words : List Word) (length : Nat) (f : Filling W) : Prop :=
  ∀ start shorter, shorter < length →
    f.cell start shorter = (BestTable.ofWords g words).cell start shorter

variable {g : WeightedGrammar W} {words : List Word} {f : Filling W} {start length size : Nat}

/-- Offers to longer spans do not change the cells of shorter ones. -/
theorem FinalBelow.foldl_offer (h : FinalBelow g words length f)
    (offers : List (Symbol × Best W)) (start : Nat) :
    FinalBelow g words length (offers.foldl (·.offer start length ·) f) := by
  intro start' shorter hshorter
  rw [cell_foldl_offer, if_neg fun hspan => Nat.ne_of_lt hshorter hspan.2]
  exact h start' shorter hshorter

/-- A rule makes its final offer if the cells of shorter spans are final. -/
theorem FinalBelow.ruleOffer_eq (h : FinalBelow g words length f) (hpos : 1 ≤ size)
    (hlt : size < length) (rule : BinaryRule W) :
    f.ruleOffer start length size rule =
      BestTable.ruleOffer (BestTable.ofWords g words).rows start length size rule := by
  have hfirst := h start size hlt
  have hsecond := h (start + size) (length - size) (by omega)
  rw [ruleOffer, weight, weight, hfirst, hsecond]
  rfl

/-- All rules make their final offers, one after the other. -/
theorem FinalBelow.offerRules_eq (h : FinalBelow g words length f) (hpos : 1 ≤ size)
    (hlt : size < length) :
    offerRules g start length f size =
      (g.rules.map (BestTable.ruleOffer (BestTable.ofWords g words).rows start length size)).foldl
        (·.offer start length ·) f := by
  rw [offerRules]
  induction g.rules generalizing f with
  | nil => rfl
  | cons rule rules ih =>
    rw [List.map_cons, List.foldl_cons, List.foldl_cons, h.ruleOffer_eq hpos hlt]
    exact ih (h.foldl_offer [_] start)

/-- The rules make all final offers to a span, one after the other. -/
theorem FinalBelow.offerSplits_eq (h : FinalBelow g words length f) (hlength : 2 ≤ length) :
    offerSplits g length f start =
      (BestTable.finalOffers g words start length).foldl (·.offer start length ·) f := by
  have hoffers : BestTable.finalOffers g words start length =
      (List.range' 1 (length - 1)).flatMap fun size =>
        g.rules.map (BestTable.ruleOffer (BestTable.ofWords g words).rows start length size) := by
    rw [BestTable.finalOffers, BestTable.offers, if_neg (by omega), List.nil_append]
  have hsizes : ∀ size ∈ List.range' 1 (length - 1), 1 ≤ size ∧ size < length := by
    intro size hsize
    rw [List.mem_range'_1] at hsize
    omega
  rw [offerSplits, hoffers]
  generalize List.range' 1 (length - 1) = sizes at hsizes ⊢
  induction sizes generalizing f with
  | nil => rfl
  | cons size sizes ih =>
    obtain ⟨⟨hpos, hlt⟩, hsizes⟩ := List.forall_mem_cons.1 hsizes
    rw [List.foldl_cons, List.flatMap_cons, List.foldl_append, h.offerRules_eq hpos hlt]
    exact ih (h.foldl_offer _ start) hsizes

/-- The spans of one length are filled from left to right. -/
theorem FinalBelow.cell_foldl_offerSplits (h : FinalBelow g words length f) (hlength : 2 ≤ length)
    (hempty : ∀ start, f.cell start length = []) {count : Nat}
    (hcount : count ≤ words.length + 1 - length) (start length' : Nat) :
    ((List.range count).foldl (offerSplits g length) f).cell start length' =
      if start < count ∧ length' = length then (BestTable.ofWords g words).cell start length
      else f.cell start length' := by
  induction count generalizing start length' with
  | zero => rw [if_neg (by omega)]; rfl
  | succ count ih =>
    have hcells := ih (Nat.le_of_succ_le hcount)
    have hbelow :
        FinalBelow g words length ((List.range count).foldl (offerSplits g length) f) := by
      intro start' shorter hshorter
      rw [hcells, if_neg (by omega)]
      exact h start' shorter hshorter
    rw [List.range_succ, List.foldl_append, List.foldl_cons, List.foldl_nil,
      hbelow.offerSplits_eq hlength, cell_foldl_offer]
    split
    · next hspan =>
      -- this cell was empty, so its offers are all that it holds
      rw [hspan.1, hcells, if_neg (by omega), hempty, if_pos ⟨by omega, hspan.2⟩,
        BestTable.cell_ofWords, if_pos (by omega)]
    · next hspan =>
      rw [hcells]
      refine if_congr ?_ rfl rfl
      constructor
      · exact fun hleft => ⟨by omega, hleft.2⟩
      · exact fun hleft => ⟨by omega, hleft.2⟩

/-- The spans of one length get their final cells when the shorter ones have theirs. -/
theorem FinalBelow.cell_offerSpans (h : FinalBelow g words length f) (hlength : 2 ≤ length)
    (hempty : ∀ start, f.cell start length = []) (start length' : Nat) :
    (offerSpans g words.length f length).cell start length' =
      if length' = length then (BestTable.ofWords g words).cell start length
      else f.cell start length' := by
  rw [offerSpans, h.cell_foldl_offerSplits hlength hempty (Nat.le_refl _)]
  by_cases hsame : length' = length
  · subst hsame
    by_cases hfits : start < words.length + 1 - length'
    · rw [if_pos ⟨hfits, rfl⟩, if_pos rfl]
    · -- a span that ends after the sentence has no cell
      rw [if_neg fun hspan => hfits hspan.1, if_pos rfl, hempty, BestTable.cell_ofWords,
        if_neg (by omega)]
  · rw [if_neg fun hspan => hsame hspan.2, if_neg hsame]

variable (g words)

/-- The words fill the cells of the spans of one word. -/
theorem cell_foldl_offerWord_zipIdx (start length : Nat) :
    (words.zipIdx.foldl (offerWord g) ∅).cell start length =
      if length ≤ 1 then (BestTable.ofWords g words).cell start length else [] := by
  rw [cell_foldl_offerWord, cell_empty, cell_empty, BestTable.cell_ofWords]
  match length with
  | 0 => simp
  | 1 =>
    rw [if_pos ⟨rfl, Nat.zero_le _⟩, if_pos (Nat.le_refl _), Nat.sub_zero]
    split
    · rw [BestTable.finalOffers, BestTable.offers, if_pos rfl]
      simp
    · next hspan =>
      rw [List.getElem?_eq_none (by omega)]
      rfl
  | length + 2 => rw [if_neg (by omega), if_neg (by omega)]

/-- Filled in place for longer and longer spans, the map has the cells of the table. -/
theorem cell_foldl_offerSpans (more start length : Nat) :
    ((List.range' 2 more).foldl (offerSpans g words.length)
        (words.zipIdx.foldl (offerWord g) ∅)).cell start length =
      if length ≤ more + 1 then (BestTable.ofWords g words).cell start length else [] := by
  induction more generalizing start length with
  | zero => exact cell_foldl_offerWord_zipIdx g words start length
  | succ more ih =>
    rw [List.range'_1_concat, List.foldl_append, List.foldl_cons, List.foldl_nil]
    have hbelow : FinalBelow g words (2 + more) ((List.range' 2 more).foldl
        (offerSpans g words.length) (words.zipIdx.foldl (offerWord g) ∅)) := by
      intro start' shorter hshorter
      rw [ih, if_pos (by omega)]
    have hempty : ∀ start, ((List.range' 2 more).foldl (offerSpans g words.length)
        (words.zipIdx.foldl (offerWord g) ∅)).cell start (2 + more) = [] := by
      intro start'
      rw [ih, if_neg (by omega)]
    rw [hbelow.cell_offerSpans (Nat.le_add_right 2 more) hempty, ih]
    by_cases hlength : length = 2 + more
    · rw [if_pos hlength, if_pos (by omega), hlength]
    · rw [if_neg hlength]
      exact if_congr (by omega) rfl rfl

/-- The map that is filled in place has the cells of the table. -/
theorem cell_ofWords (start length : Nat) :
    (ofWords g words).cell start length = (BestTable.ofWords g words).cell start length := by
  rw [ofWords, cell_foldl_offerSpans]
  split
  · rfl
  · -- longer spans than the sentence have no cell
    rw [BestTable.cell_ofWords, if_neg (by omega)]

end Rules

end NaturalLanguage.Filling

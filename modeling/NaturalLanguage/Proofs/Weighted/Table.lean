import Mathlib.Data.List.Induction
import NaturalLanguage.Proofs.Weighted.UnitInterval
import NaturalLanguage.Table
import NaturalLanguage.Weighted.Best

/-!
# What the cells of the table hold

A cell takes its offers one after the other. For every symbol it ends with the first of the best
offers, or with none if no offer is above zero. The rows of the table are filled for longer and
longer spans, and a row is not changed once it is filled: every cell is filled from offers that read
the finished table.

* `Cell.FirstBest`, `Cell.selects_foldl_offer`: which of several offers a cell keeps.
* `BestTable.finalOffers`, `BestTable.cell_ofWords`: a cell is filled from offers that read the
  finished table.
* `BestTable.inUnit_weight`: all weights are from zero to one.
* `BestTable.firstBest_of_lookup`, `BestTable.le_weight_of_mem`: what a cell holds, and what it does
  not fall below.
-/

namespace NaturalLanguage

variable {W : Type}

/-! ### Offers to a cell -/

namespace Cell

section Lookup

variable {cell : Cell W} {sym : Symbol} {best : Best W}

variable [OfNat W 0]

theorem weight_of_lookup (h : cell.lookup sym = some best) : cell.weight sym = best.weight := by
  rw [weight, h]

theorem weight_of_lookup_eq_none (h : cell.lookup sym = none) : cell.weight sym = 0 := by
  rw [weight, h]

variable [LE W] [DecidableLE W]

/-- An offer replaces what is held for its symbol if it is better, and nothing else. -/
theorem lookup_offer (cell : Cell W) (made : Symbol × Best W) (sym : Symbol) :
    (cell.offer made).lookup sym =
      if made.1 = sym ∧ ¬ made.2.weight ≤ cell.weight sym then some made.2
      else cell.lookup sym := by
  by_cases hsym : made.1 = sym
  · subst hsym
    by_cases hle : made.2.weight ≤ cell.weight made.1
    · rw [offer, if_pos hle, if_neg fun h => h.2 hle]
    · rw [offer, if_neg hle, if_pos ⟨rfl, hle⟩, List.lookup_cons, beq_self_eq_true]
  · have hne : (sym == made.1) = false := beq_false_of_ne (Ne.symm hsym)
    rw [offer, if_neg fun h : made.1 = sym ∧ _ => hsym h.1]
    split
    · rfl
    · rw [List.lookup_cons, hne, lookup_filter_ne (Ne.symm hsym)]

end Lookup

section Selection

variable [OfNat W 0] [LE W]

/-- `best` is the first of the best offers for `sym`, and it is above zero. -/
structure FirstBest (offers : List (Symbol × Best W)) (sym : Symbol) (best : Best W) : Prop where
  not_le_zero : ¬ best.weight ≤ 0
  exists_split : ∃ before after, offers = before ++ (sym, best) :: after ∧
    (∀ other, (sym, other) ∈ before → ¬ best.weight ≤ other.weight) ∧
    ∀ other, (sym, other) ∈ after → other.weight ≤ best.weight

/-- What is held for `sym` after some offers: the first of the best, or nothing if none is above
zero. -/
def Selects (offers : List (Symbol × Best W)) (sym : Symbol) : Option (Best W) → Prop
  | some best => FirstBest offers sym best
  | none => ∀ best, (sym, best) ∈ offers → best.weight ≤ 0

variable {offers : List (Symbol × Best W)} {sym : Symbol} {best : Best W}

theorem FirstBest.mem (h : FirstBest offers sym best) : (sym, best) ∈ offers := by
  obtain ⟨before, after, rfl, -, -⟩ := h.exists_split
  simp

variable [OfNat W 1] [Mul W] [UnitProduct W]

/-- The first of the best offers is not below any other one. -/
theorem FirstBest.weight_le (hoffers : ∀ made ∈ offers, InUnit made.2.weight)
    (h : FirstBest offers sym best) {other : Best W} (hother : (sym, other) ∈ offers) :
    other.weight ≤ best.weight := by
  have hbest : InUnit best.weight := hoffers _ h.mem
  have hin : InUnit other.weight := hoffers _ hother
  obtain ⟨before, after, rfl, hbefore, hafter⟩ := h.exists_split
  rw [List.mem_append, List.mem_cons] at hother
  rcases hother with hmem | heq | hmem
  · exact hbest.le_of_not_le hin (hbefore other hmem)
  · obtain rfl := (Prod.mk.inj heq).2
    exact hbest.refl
  · exact hafter other hmem

/-- An offer that is not below the first of the best ones has the same weight. -/
theorem FirstBest.weight_eq (hoffers : ∀ made ∈ offers, InUnit made.2.weight)
    (h : FirstBest offers sym best) {other : Best W} (hother : (sym, other) ∈ offers)
    (hle : best.weight ≤ other.weight) : best.weight = other.weight :=
  UnitProduct.eq_of_le_of_le (hoffers _ h.mem) (hoffers _ hother) h.not_le_zero hle
    (h.weight_le hoffers hother)

/-- What a cell has selected for a symbol weighs as much as the best offer. -/
theorem Selects.weight_le {cell : Cell W} (hoffers : ∀ made ∈ offers, InUnit made.2.weight)
    (h : Selects offers sym (cell.lookup sym)) {other : Best W} (hother : (sym, other) ∈ offers) :
    other.weight ≤ cell.weight sym := by
  cases hlookup : cell.lookup sym with
  | none =>
    rw [hlookup] at h
    rw [weight_of_lookup_eq_none hlookup]
    exact h other hother
  | some best =>
    rw [hlookup] at h
    rw [weight_of_lookup hlookup]
    exact FirstBest.weight_le hoffers h hother

theorem Selects.inUnit {cell : Cell W} (hoffers : ∀ made ∈ offers, InUnit made.2.weight)
    (h : Selects offers sym (cell.lookup sym)) : InUnit (cell.weight sym) := by
  cases hlookup : cell.lookup sym with
  | none =>
    rw [weight_of_lookup_eq_none hlookup]
    exact UnitProduct.zero_inUnit
  | some best =>
    rw [hlookup] at h
    rw [weight_of_lookup hlookup]
    exact hoffers _ h.mem

variable [DecidableLE W]

/-- One more offer is selected if it is better than what was selected so far. -/
theorem Selects.offer {cell : Cell W} {made : Symbol × Best W}
    (hoffers : ∀ made ∈ offers, InUnit made.2.weight) (hmade : InUnit made.2.weight)
    (h : Selects offers sym (cell.lookup sym)) :
    Selects (offers ++ [made]) sym ((cell.offer made).lookup sym) := by
  have hheld : InUnit (cell.weight sym) := h.inUnit hoffers
  rw [lookup_offer]
  split
  · next hbetter =>
    obtain ⟨rfl, hbetter⟩ := hbetter
    -- what was selected weighs at least as much as zero and as every earlier offer
    refine ⟨fun hzero => hbetter ?_, offers, [], rfl, fun other hother hle => hbetter ?_, by simp⟩
    · exact UnitProduct.le_trans hmade UnitProduct.zero_inUnit hheld hzero hheld.nonneg
    · exact UnitProduct.le_trans hmade (hoffers _ hother) hheld hle (h.weight_le hoffers hother)
  · next hworse =>
    have hle : ∀ other, (sym, other) = made → other.weight ≤ cell.weight sym := by
      rintro other rfl
      exact Decidable.not_not.1 fun hbetter => hworse ⟨rfl, hbetter⟩
    cases hlookup : cell.lookup sym with
    | none =>
      rw [hlookup] at h
      rw [weight_of_lookup_eq_none hlookup] at hle
      intro other hother
      rw [List.mem_append, List.mem_singleton] at hother
      exact hother.elim (h other) (hle other)
    | some best =>
      rw [hlookup] at h
      rw [weight_of_lookup hlookup] at hle
      obtain ⟨before, after, rfl, hbefore, hafter⟩ := h.exists_split
      refine ⟨h.not_le_zero, before, after ++ [made], by simp, hbefore, ?_⟩
      intro other hother
      rw [List.mem_append, List.mem_singleton] at hother
      exact hother.elim (hafter other) (hle other)

/-- A cell ends with the first of the best offers for every symbol. -/
theorem selects_foldl_offer (hoffers : ∀ made ∈ offers, InUnit made.2.weight) (sym : Symbol) :
    Selects offers sym ((offers.foldl Cell.offer []).lookup sym) := by
  induction offers using List.reverseRecOn with
  | nil => exact fun best hbest => nomatch hbest
  | append_singleton offers made ih =>
    rw [List.forall_mem_append] at hoffers
    rw [List.foldl_append, List.foldl_cons, List.foldl_nil]
    exact (ih hoffers.1).offer hoffers.1 (hoffers.2 made (List.mem_singleton_self made))

end Selection

end Cell

namespace WeightedGrammar

/-- All weights of a grammar are from zero to one. -/
structure Bounded [OfNat W 0] [OfNat W 1] [LE W] (g : WeightedGrammar W) : Prop where
  rules : ∀ rule ∈ g.rules, InUnit rule.weight
  lexicon : ∀ entry ∈ g.lexicon, InUnit entry.weight

end WeightedGrammar

/-! ### Cells of the finished table -/

namespace BestTable

theorem mem_lexicalOffers {g : WeightedGrammar W} {word : Word} {sym : Symbol} {best : Best W} :
    (sym, best) ∈ lexicalOffers g word ↔
      ⟨sym, word, best.weight⟩ ∈ g.lexicon ∧ best.step = .word word := by
  rw [← WeightedGrammar.mem_categories, lexicalOffers, List.mem_map]
  constructor
  · rintro ⟨⟨category, weight⟩, hmem, heq⟩
    obtain ⟨rfl, rfl⟩ := Prod.mk.inj heq
    exact ⟨hmem, rfl⟩
  · rintro ⟨hmem, hstep⟩
    obtain ⟨weight, step⟩ := best
    obtain rfl : step = .word word := hstep
    exact ⟨_, hmem, rfl⟩

section Fill

variable [OfNat W 0] [Mul W] [LE W] [DecidableLE W] (g : WeightedGrammar W) (words : List Word)

/-- Longer spans than were filled have no cell. -/
theorem cellOf_rowsUpTo_of_lt {n length : Nat} (start : Nat) (h : n < length) :
    cellOf (rowsUpTo g words n) start length = [] := by
  obtain ⟨k, rfl⟩ : ∃ k, length = k + 1 := ⟨length - 1, by omega⟩
  have hnone : (rowsUpTo g words n)[k]? = none := by
    apply Array.getElem?_eq_none
    rw [size_rowsUpTo]
    omega
  rw [cellOf, hnone]
  rfl

/-- Filling longer spans does not change the cells of shorter ones. -/
theorem cellOf_rowsUpTo_of_le {n m length : Nat} (start : Nat) (hlength : length ≤ n)
    (hn : n ≤ m) :
    cellOf (rowsUpTo g words m) start length = cellOf (rowsUpTo g words n) start length := by
  obtain ⟨more, rfl⟩ := Nat.exists_eq_add_of_le hn
  clear hn
  induction more with
  | zero => rfl
  | succ more ih =>
    rw [← ih]
    cases length with
    | zero => rfl
    | succ length =>
      -- the new row is added after all rows that are read
      have hne : length ≠ (rowsUpTo g words (n + more)).size := by
        rw [size_rowsUpTo]
        omega
      rw [cellOf, cellOf, ← Nat.add_assoc, rowsUpTo, Array.getElem?_push, if_neg hne]

/-- The offers to a span read the cells of shorter spans only. -/
theorem offers_rowsUpTo {n m start length : Nat} (hlength : length ≤ n + 1) (hn : n ≤ m) :
    offers g words (rowsUpTo g words m) start length =
      offers g words (rowsUpTo g words n) start length := by
  have hrule : ∀ size ∈ List.range' 1 (length - 1),
      g.rules.map (ruleOffer (rowsUpTo g words m) start length size) =
        g.rules.map (ruleOffer (rowsUpTo g words n) start length size) := by
    intro size hsize
    rw [List.mem_range'_1] at hsize
    apply List.map_congr_left
    intro rule _
    rw [ruleOffer, ruleOffer, cellOf_rowsUpTo_of_le g words _ (by omega) hn,
      cellOf_rowsUpTo_of_le g words _ (by omega) hn]
  simp only [offers, List.flatMap_def, List.map_congr_left hrule]

/-- The cells of the longest spans so far are filled from the rows before. -/
theorem cellOf_rowsUpTo_succ (start n : Nat) :
    cellOf (rowsUpTo g words (n + 1)) start (n + 1) =
      if start < words.length + 1 - (n + 1) then
        (offers g words (rowsUpTo g words n) start (n + 1)).foldl Cell.offer []
      else [] := by
  have hrow : (rowsUpTo g words (n + 1))[n]? =
      some (rowOf g words (rowsUpTo g words n) (n + 1)) := by
    rw [rowsUpTo, Array.getElem?_push, if_pos (size_rowsUpTo g words n).symm]
  rw [cellOf, hrow, Option.bind_some, rowOf, Array.getElem?_map, Array.getElem?_range]
  split <;> rfl

/-- The offers to a span in the finished table. -/
def finalOffers (start length : Nat) : List (Symbol × Best W) :=
  offers g words (ofWords g words).rows start length

/-- A cell takes its offers in order. Spans without words or past the end have no cell. -/
theorem cell_ofWords (start length : Nat) :
    (ofWords g words).cell start length =
      if 1 ≤ length ∧ start + length ≤ words.length then
        (finalOffers g words start length).foldl Cell.offer []
      else [] := by
  show cellOf (rowsUpTo g words words.length) start length = _
  rcases Nat.lt_or_ge words.length length with hlong | hshort
  · rw [cellOf_rowsUpTo_of_lt g words start hlong, if_neg (by omega)]
  · cases length with
    | zero => rfl
    | succ n =>
      have hoffers : finalOffers g words start (n + 1) =
          offers g words (rowsUpTo g words n) start (n + 1) :=
        offers_rowsUpTo g words (Nat.le_refl _) (by omega)
      rw [cellOf_rowsUpTo_of_le g words start (Nat.le_refl _) hshort, cellOf_rowsUpTo_succ,
        hoffers]
      -- both conditions say that the span ends within the sentence
      congr 1
      exact propext ⟨fun h => by omega, fun h => by omega⟩

/-- The weight that a rule offers to a span whose first part covers `size` words. -/
def splitWeight (t : BestTable W) (start length size : Nat) (rule : BinaryRule W) : W :=
  t.weight rule.left start size * t.weight rule.right (start + size) (length - size) * rule.weight

variable {g words}

/-- A span is offered its word, if it has one word only, and the results of the rules for all first
parts. -/
theorem mem_finalOffers {start length : Nat} {sym : Symbol} {best : Best W} :
    (sym, best) ∈ finalOffers g words start length ↔
      (length = 1 ∧ ∃ word, words[start]? = some word ∧
        ⟨sym, word, best.weight⟩ ∈ g.lexicon ∧ best.step = .word word) ∨
      ∃ size rule, 1 ≤ size ∧ size < length ∧ rule ∈ g.rules ∧ rule.head = sym ∧
        best = ⟨(ofWords g words).splitWeight start length size rule,
          .split size rule.left rule.right⟩ := by
  rw [finalOffers, offers, List.mem_append]
  refine or_congr ?_ ?_
  · split
    · next hlength => simp [hlength, List.mem_flatMap, mem_lexicalOffers]
    · next hlength => simp [hlength]
  · simp only [List.mem_flatMap, List.mem_map, List.mem_range'_1]
    constructor
    · rintro ⟨size, hsize, rule, hrule, heq⟩
      obtain ⟨rfl, rfl⟩ := Prod.mk.inj heq
      exact ⟨size, rule, by omega, by omega, hrule, rfl, rfl⟩
    · rintro ⟨size, rule, hpos, hlt, hrule, rfl, rfl⟩
      exact ⟨size, by omega, rule, hrule, rfl⟩

end Fill

/-! ### Weights from zero to one -/

section Laws

variable [OfNat W 0] [OfNat W 1] [Mul W] [LE W] [DecidableLE W] [UnitProduct W]
  {g : WeightedGrammar W} {words : List Word} {sym : Symbol} {start length : Nat}

/-- The offers to a span are from zero to one if all weights of shorter spans are. -/
theorem inUnit_of_mem_finalOffers (hg : g.Bounded)
    (hshorter : ∀ length' < length, ∀ sym start,
      InUnit ((ofWords g words).weight sym start length')) :
    ∀ made ∈ finalOffers g words start length, InUnit made.2.weight := by
  rintro ⟨sym, best⟩ hmade
  rcases mem_finalOffers.1 hmade with
    ⟨-, word, -, hentry, -⟩ | ⟨size, rule, hpos, hlt, hrule, -, rfl⟩
  · exact hg.lexicon _ hentry
  · have hleft := hshorter size hlt rule.left start
    have hright := hshorter (length - size) (by omega) rule.right (start + size)
    exact UnitProduct.mul_inUnit (UnitProduct.mul_inUnit hleft hright) (hg.rules rule hrule)

/-- All weights of the table are from zero to one. -/
theorem inUnit_weight (hg : g.Bounded) (sym : Symbol) (start length : Nat) :
    InUnit ((ofWords g words).weight sym start length) := by
  -- the offers to a span multiply weights of shorter spans
  induction length using Nat.strongRecOn generalizing sym start with
  | ind length ih =>
    have hoffers : ∀ made ∈ finalOffers g words start length, InUnit made.2.weight :=
      inUnit_of_mem_finalOffers hg fun length' hlt sym start => ih length' hlt sym start
    rw [weight, cell_ofWords]
    split
    · exact (Cell.selects_foldl_offer hoffers sym).inUnit hoffers
    · exact UnitProduct.zero_inUnit

variable (words start length) in
/-- All offers in the finished table are from zero to one. -/
theorem inUnit_finalOffers (hg : g.Bounded) :
    ∀ made ∈ finalOffers g words start length, InUnit made.2.weight :=
  inUnit_of_mem_finalOffers hg fun length' _ sym start => inUnit_weight hg sym start length'

/-- What is held for a symbol in the finished table is the first of the best offers. -/
theorem firstBest_of_lookup (hg : g.Bounded) {best : Best W}
    (h : ((ofWords g words).cell start length).lookup sym = some best) :
    1 ≤ length ∧ start + length ≤ words.length ∧
      Cell.FirstBest (finalOffers g words start length) sym best := by
  rw [cell_ofWords] at h
  split at h
  · next hspan =>
    have hselects := Cell.selects_foldl_offer (inUnit_finalOffers words start length hg) sym
    rw [h] at hselects
    exact ⟨hspan.1, hspan.2, hselects⟩
  · cases h

/-- The table does not fall below an offer to a span of the sentence. -/
theorem le_weight_of_mem (hg : g.Bounded) (hspan : 1 ≤ length ∧ start + length ≤ words.length)
    {best : Best W} (h : (sym, best) ∈ finalOffers g words start length) :
    best.weight ≤ (ofWords g words).weight sym start length := by
  have hoffers := inUnit_finalOffers words start length hg
  rw [weight, cell_ofWords, if_pos hspan]
  exact (Cell.selects_foldl_offer hoffers sym).weight_le hoffers h

end Laws

end BestTable

end NaturalLanguage

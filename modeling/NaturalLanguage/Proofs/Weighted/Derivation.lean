import NaturalLanguage.Proofs.Weighted.Table

/-!
# Derivation trees of weighted grammars

A derivation tree of a weighted grammar has words of the lexicon at its leaves and binary rules at
its nodes. Over a span of a sentence it is a leaf over the only word, or a node whose children
derive the two parts of the span.

* `WeightedGrammar.Derives`, `WeightedGrammar.DerivesSpan`: derivation trees, and those over a span.
* `WeightedGrammar.exists_treeWeight_iff`: exactly the derivation trees have a weight.
* `WeightedGrammar.Bounded.inUnit_treeWeight`: these weights are from zero to one.
* `WeightedGrammar.DerivesSpan.cases`: how a derivation tree over a span begins.
-/

namespace NaturalLanguage

variable {W : Type}

namespace WeightedGrammar

/-- The derivation trees of a weighted grammar. -/
inductive Derives (g : WeightedGrammar W) : Tree → Prop where
  | leaf {category : Symbol} {word : Word} {weight : W}
      (hentry : ⟨category, word, weight⟩ ∈ g.lexicon) : Derives g (.leaf category word)
  | node {head : Symbol} {first second : Tree} {weight : W}
      (hrule : ⟨head, first.label, second.label, weight⟩ ∈ g.rules) (hfirst : Derives g first)
      (hsecond : Derives g second) : Derives g (.node head [first, second])

/-- The derivation trees of `sym` over the span of `length` words from `start`. -/
structure DerivesSpan (g : WeightedGrammar W) (words : List Word) (sym : Symbol)
    (start length : Nat) (t : Tree) : Prop where
  derives : g.Derives t
  label : t.label = sym
  /-- The span ends within the sentence. -/
  fits : start + length ≤ words.length
  leaves : t.leaves = (words.drop start).take length

variable {g : WeightedGrammar W} {words : List Word} {sym : Symbol} {start length : Nat} {t : Tree}

/-- A derivation tree has words. -/
theorem Derives.leaves_length_pos (h : g.Derives t) : 0 < t.leaves.length := by
  induction h with
  | leaf => exact Nat.zero_lt_one
  | node _ _ _ ihfirst _ =>
    rw [Tree.leaves_node, List.flatMap_cons, List.length_append]
    omega

/-! ### Weights of derivation trees -/

section Weights

theorem mem_lexicalWeights {category : Symbol} {word : Word} {weight : W} :
    weight ∈ g.lexicalWeights category word ↔ ⟨category, word, weight⟩ ∈ g.lexicon := by
  rw [← mem_categories, lexicalWeights, List.mem_map]
  constructor
  · rintro ⟨⟨listed, weight⟩, hfilter, rfl⟩
    obtain ⟨hmem, hlisted⟩ := List.mem_filter.1 hfilter
    exact eq_of_beq hlisted ▸ hmem
  · intro hmem
    exact ⟨(category, weight), List.mem_filter.2 ⟨hmem, beq_self_eq_true _⟩, rfl⟩

theorem mem_ruleWeights {head left right : Symbol} {weight : W} :
    weight ∈ g.ruleWeights head left right ↔ ⟨head, left, right, weight⟩ ∈ g.rules := by
  simp only [ruleWeights, List.mem_map, List.mem_filter, Bool.and_eq_true, beq_iff_eq]
  constructor
  · rintro ⟨rule, ⟨hmem, ⟨rfl, rfl⟩, rfl⟩, rfl⟩
    exact hmem
  · intro hmem
    exact ⟨_, ⟨hmem, ⟨rfl, rfl⟩, rfl⟩, rfl⟩

variable [LE W] [DecidableLE W]

/-- Only a list with weights has a greatest one. -/
theorem exists_greatest_iff {ws : List W} : (∃ w, greatest ws = some w) ↔ ∃ w, w ∈ ws := by
  cases ws with
  | nil => simp [greatest]
  | cons w ws => exact ⟨fun _ => ⟨w, List.mem_cons_self⟩, fun _ => ⟨_, rfl⟩⟩

variable [Mul W]

/-- The trees that have a weight are the derivation trees. -/
theorem exists_treeWeight_iff : (∃ w, g.treeWeight t = some w) ↔ g.Derives t := by
  constructor
  · rintro ⟨w, hw⟩
    induction t using Tree.induction generalizing w with
    | leaf category word =>
      obtain ⟨weight, hmem⟩ := exists_greatest_iff.1 ⟨w, hw⟩
      exact .leaf (mem_lexicalWeights.1 hmem)
    | node head children ih =>
      -- only nodes with two children have a weight
      match children with
      | [first, second] =>
        obtain ⟨left, right, rule, hleft, hright, hrule, -⟩ := treeWeight_node.1 hw
        obtain ⟨weight, hmem⟩ := exists_greatest_iff.1 ⟨rule, hrule⟩
        exact .node (mem_ruleWeights.1 hmem) (ih first (by simp) left hleft)
          (ih second (by simp) right hright)
      | [] | [_] | _ :: _ :: _ :: _ => cases hw
  · intro h
    induction h with
    | leaf hentry => exact exists_greatest_iff.2 ⟨_, mem_lexicalWeights.2 hentry⟩
    | node hrule _ _ ihfirst ihsecond =>
      obtain ⟨left, hleft⟩ := ihfirst
      obtain ⟨right, hright⟩ := ihsecond
      obtain ⟨rule, hrule⟩ := exists_greatest_iff.2 ⟨_, mem_ruleWeights.2 hrule⟩
      exact ⟨_, treeWeight_node.2 ⟨left, right, rule, hleft, hright, hrule, rfl⟩⟩

variable [OfNat W 0] [OfNat W 1] [UnitProduct W]

/-- The greatest weight of a word under a category is listed there, and no other is above it. -/
theorem Bounded.greatest_lexicalWeights (hg : g.Bounded) {category : Symbol} {word : Word}
    {weight : W} (h : greatest (g.lexicalWeights category word) = some weight) :
    ⟨category, word, weight⟩ ∈ g.lexicon ∧
      ∀ other, ⟨category, word, other⟩ ∈ g.lexicon → other ≤ weight := by
  have hin : ∀ w ∈ g.lexicalWeights category word, InUnit w := fun w hw =>
    hg.lexicon _ (mem_lexicalWeights.1 hw)
  obtain ⟨hmem, hle⟩ := greatest_spec hin h
  exact ⟨mem_lexicalWeights.1 hmem, fun other hother => hle other (mem_lexicalWeights.2 hother)⟩

/-- The greatest weight of a rule is that of one of its repetitions, and no other is above it. -/
theorem Bounded.greatest_ruleWeights (hg : g.Bounded) {head left right : Symbol} {weight : W}
    (h : greatest (g.ruleWeights head left right) = some weight) :
    ⟨head, left, right, weight⟩ ∈ g.rules ∧
      ∀ other, ⟨head, left, right, other⟩ ∈ g.rules → other ≤ weight := by
  have hin : ∀ w ∈ g.ruleWeights head left right, InUnit w := fun w hw =>
    hg.rules _ (mem_ruleWeights.1 hw)
  obtain ⟨hmem, hle⟩ := greatest_spec hin h
  exact ⟨mem_ruleWeights.1 hmem, fun other hother => hle other (mem_ruleWeights.2 hother)⟩

/-- The weights of trees are from zero to one. -/
theorem Bounded.inUnit_treeWeight (hg : g.Bounded) {w : W} (h : g.treeWeight t = some w) :
    InUnit w := by
  have ht : g.Derives t := exists_treeWeight_iff.1 ⟨w, h⟩
  induction ht generalizing w with
  | leaf => exact hg.lexicon _ (hg.greatest_lexicalWeights h).1
  | node _ _ _ ihfirst ihsecond =>
    obtain ⟨left, right, rule, hleft, hright, hrule, rfl⟩ := treeWeight_node.1 h
    exact UnitProduct.mul_inUnit (UnitProduct.mul_inUnit (ihfirst hleft) (ihsecond hright))
      (hg.rules _ (hg.greatest_ruleWeights hrule).1)

end Weights

/-! ### Derivation trees over a span -/

namespace DerivesSpan

/-- The number of words of a derivation tree is the length of its span. -/
theorem leaves_length (h : g.DerivesSpan words sym start length t) : t.leaves.length = length := by
  have hfits := h.fits
  rw [h.leaves, List.length_take, List.length_drop]
  omega

theorem length_pos (h : g.DerivesSpan words sym start length t) : 1 ≤ length := by
  have hpos := h.derives.leaves_length_pos
  rwa [h.leaves_length] at hpos

/-- A word of the sentence that the lexicon lists is derived. -/
theorem of_entry {word : Word} {weight : W} (hword : words[start]? = some word)
    (hentry : ⟨sym, word, weight⟩ ∈ g.lexicon) :
    g.DerivesSpan words sym start 1 (.leaf sym word) where
  derives := .leaf hentry
  label := rfl
  fits := (List.getElem?_eq_some_iff.1 hword).1
  leaves := by simp [List.take_one, hword]

/-- The parts of a rule over two adjacent spans derive its head over both. -/
theorem of_rule {left right : Symbol} {weight : W} {size : Nat} {first second : Tree}
    (hsize : size ≤ length) (hrule : ⟨sym, left, right, weight⟩ ∈ g.rules)
    (hfirst : g.DerivesSpan words left start size first)
    (hsecond : g.DerivesSpan words right (start + size) (length - size) second) :
    g.DerivesSpan words sym start length (.node sym [first, second]) where
  derives := by
    have hlabels : ⟨sym, first.label, second.label, weight⟩ ∈ g.rules := by
      rwa [hfirst.label, hsecond.label]
    exact .node hlabels hfirst.derives hsecond.derives
  label := rfl
  fits := by
    have hfits := hsecond.fits
    omega
  leaves := by
    obtain ⟨rest, rfl⟩ := Nat.exists_eq_add_of_le hsize
    rw [Nat.add_sub_cancel_left] at hsecond
    rw [List.take_add, List.drop_drop, ← hfirst.leaves, ← hsecond.leaves]
    simp

/-- A derivation tree over a span is a leaf over its only word, or a node whose children derive two
adjacent spans. -/
theorem cases (h : g.DerivesSpan words sym start length t) :
    (length = 1 ∧ ∃ word weight, words[start]? = some word ∧ ⟨sym, word, weight⟩ ∈ g.lexicon ∧
      t = .leaf sym word) ∨
    ∃ size left right weight first second, 1 ≤ size ∧ size < length ∧
      ⟨sym, left, right, weight⟩ ∈ g.rules ∧ g.DerivesSpan words left start size first ∧
      g.DerivesSpan words right (start + size) (length - size) second ∧
      t = .node sym [first, second] := by
  have hlength := h.leaves_length
  obtain ⟨hderives, rfl, hfits, hleaves⟩ := h
  cases hderives with
  | leaf hentry =>
    obtain rfl : length = 1 := hlength.symm
    refine .inl ⟨rfl, _, _, ?_, hentry, rfl⟩
    rw [List.take_one, List.head?_drop] at hleaves
    cases hword : words[start]? with
    | none => rw [hword] at hleaves; cases hleaves
    | some word =>
      rw [hword] at hleaves
      exact congrArg some (List.singleton_inj.1 hleaves).symm
  | @node head first second weight hrule hfirst hsecond =>
    have hpos := hfirst.leaves_length_pos
    have hpos' := hsecond.leaves_length_pos
    have hsplit : first.leaves ++ second.leaves = (words.drop start).take length := by
      rw [← hleaves]
      simp
    have hsum : first.leaves.length + second.leaves.length = length := by
      rw [← hlength]
      simp
    -- the words of the first child are the first words of the span
    rw [← hsum, List.take_add, List.drop_drop] at hsplit
    have hlen : first.leaves.length = ((words.drop start).take first.leaves.length).length := by
      rw [List.length_take, List.length_drop]
      omega
    obtain ⟨hleft, hright⟩ := List.append_inj hsplit hlen
    refine .inr
      ⟨first.leaves.length, _, _, weight, first, second, hpos, by omega, hrule, ?_, ?_, rfl⟩
    · exact ⟨hfirst, rfl, by omega, hleft⟩
    · refine ⟨hsecond, rfl, by omega, ?_⟩
      rw [← hsum, Nat.add_sub_cancel_left]
      exact hright

end DerivesSpan

end WeightedGrammar

end NaturalLanguage

import NaturalLanguage.Proofs.Sampling.Draft

/-!
# Every shallow sentence can be drawn

For every position among fewer than `2 ^ 32` items there is a number that scales to it: the least
one, whose cut-off fraction is below the number of items. A second number may be asked for then, but
if that is zero, nothing is carried. So every item can be chosen, and with the numbers for the
choices made in a derivation tree, from the root down and from left to right, that tree is drawn. No
rewrite of the tree has to be the shallowest if the tree is no higher than there are free rewrites.

* `DrawSource.Supplies`: the numbers that a source gives next.
* `DrawSource.exists_numbers_choose`: numbers with which an item is chosen.
* `Grammar.Expansion.exists_draws`: numbers with which an expansion is drawn.
* `exists_numbers_randomSentence`: numbers with which the sentence of a derivation tree is drawn.
-/

namespace NaturalLanguage

namespace DrawSource

/-! ### Numbers to come -/

section Supplies

variable {σ : Type} [DrawSource σ] {s s' : σ}

/-- A source gives the numbers, one after the other, and is the other source after them. -/
def Supplies : (numbers : List UInt32) → (s s' : σ) → Prop
  | [], s, s' => s = s'
  | number :: numbers, s, s' => (draw s).1 = number ∧ Supplies numbers (draw s).2 s'

theorem supplies_append {first second : List UInt32} :
    Supplies (first ++ second) s s' ↔ ∃ between, Supplies first s between ∧
      Supplies second between s' := by
  induction first generalizing s with
  | nil =>
    constructor
    · exact fun h => ⟨s, rfl, h⟩
    · rintro ⟨between, rfl, h⟩
      exact h
  | cons number first ih =>
    rw [List.cons_append, Supplies, ih]
    constructor
    · rintro ⟨hnumber, between, hfirst, hsecond⟩
      exact ⟨between, ⟨hnumber, hfirst⟩, hsecond⟩
    · rintro ⟨between, ⟨hnumber, hfirst⟩, hsecond⟩
      exact ⟨hnumber, between, hfirst, hsecond⟩

/-- Listed numbers are given in their order. -/
theorem supplies_cycle (numbers : List UInt32) :
    Supplies numbers (Cycle.mk numbers.toArray 0) (Cycle.mk numbers.toArray numbers.length) := by
  suffices h : ∀ before after, numbers = before ++ after →
      Supplies after (Cycle.mk numbers.toArray before.length)
        (Cycle.mk numbers.toArray numbers.length) from h [] numbers rfl
  intro before after hsplit
  -- the numbers before were drawn already
  induction after generalizing before with
  | nil => rw [hsplit, List.append_nil]; rfl
  | cons number after ih =>
    have hlt : before.length < numbers.length := by
      rw [hsplit, List.length_append, List.length_cons]
      omega
    refine ⟨?_, ?_⟩
    · change numbers.toArray.getD (before.length % numbers.toArray.size) 0 = number
      rw [List.size_toArray, Nat.mod_eq_of_lt hlt]
      simp [hsplit]
    · have hrest := ih (before ++ [number]) (by rw [hsplit, List.append_assoc]; rfl)
      rwa [List.length_append] at hrest

end Supplies

/-! ### Positions and choices -/

/-- The least number that scales to a position. -/
def leastNumber (n i : Nat) : UInt32 := UInt32.ofNat ((i * UInt32.size + (n - 1)) / n)

/-- The least number for a position scales to it, and what is cut off is less than the number of
items. -/
theorem scale_leastNumber {n i : Nat} (hi : i < n) (hn : n < UInt32.size) :
    (scale n (leastNumber n i)).1 = i ∧ (scale n (leastNumber n i)).2 < n := by
  have hdivision := Nat.div_add_mod (i * UInt32.size + (n - 1)) n
  have hremainder := Nat.mod_lt (i * UInt32.size + (n - 1)) (Nat.zero_lt_of_lt hi)
  generalize hquotient : (i * UInt32.size + (n - 1)) / n = quotient at hdivision
  have hlt : quotient < UInt32.size := by
    have hproduct : n * quotient < n * UInt32.size := by
      simp only [UInt32.size] at hn hdivision hremainder ⊢
      omega
    exact Nat.lt_of_mul_lt_mul_left hproduct
  have hnumber : (leastNumber n i).toNat * n = n * quotient := by
    rw [leastNumber, hquotient, UInt32.toNat_ofNat_of_lt' hlt, Nat.mul_comm]
  -- the product is the position times `2 ^ 32`, and less than `n` more
  simp only [scale, hnumber, UInt32.size] at hn hdivision hremainder ⊢
  omega

/-- For every position there are numbers with which it is drawn. -/
theorem exists_numbers_position {n i : Nat} (hi : i < n) (hn : n < UInt32.size) :
    ∃ numbers, ∀ {σ : Type} [DrawSource σ] (s s' : σ), Supplies numbers s s' →
      position n s = (i, s') := by
  obtain ⟨hposition, hfraction⟩ := scale_leastNumber hi hn
  -- a second number of zero adds nothing to what is cut off, and that is not enough for a carry
  have hzero : (scale n 0).1 = 0 := by simp [scale]
  have hcarried : carried n (leastNumber n i) 0 = i := by
    have hlt : ¬ UInt32.size ≤ (scale n (leastNumber n i)).2 + (scale n 0).1 := by omega
    rw [carried, if_neg hlt, hposition]
  by_cases hsecond : UInt32.size - n < (scale n (leastNumber n i)).2
  · refine ⟨[leastNumber n i, 0], ?_⟩
    rintro σ _ s s' ⟨hfirst, hnext, rfl⟩
    rw [position_apply, hfirst, if_pos hsecond]
    change (carried n (leastNumber n i) (draw (draw s).2).1, (draw (draw s).2).2) = _
    rw [hnext, hcarried]
  · refine ⟨[leastNumber n i], ?_⟩
    rintro σ _ s s' ⟨hfirst, rfl⟩
    rw [position_apply, hfirst, if_neg hsecond, hposition]
    rfl

/-- For every item there are numbers with which it is chosen. -/
theorem exists_numbers_choose {α : Type} {items : List α} {item : α} (hitem : item ∈ items)
    (hlength : items.length < UInt32.size) :
    ∃ numbers, ∀ {σ : Type} [DrawSource σ] (s s' : σ), Supplies numbers s s' →
      choose items s = (some ⟨item, hitem⟩, s') := by
  obtain ⟨i, hi, hget⟩ := List.getElem_of_mem hitem
  obtain ⟨numbers, hnumbers⟩ := exists_numbers_position hi hlength
  refine ⟨numbers, ?_⟩
  intro σ _ s s' hsupplies
  have hne : items.isEmpty = false := by
    rw [List.isEmpty_eq_false_iff]
    exact List.ne_nil_of_mem hitem
  have hattach : items.attach[i]? = some ⟨item, hitem⟩ := by
    rw [List.getElem?_eq_getElem (by rwa [List.length_attach]), List.getElem_attach]
    simp only [hget]
  rw [choose, hne]
  simp only [Bool.false_eq_true, if_false, bind, StateT.bind, hnumbers s s' hsupplies, hattach]
  rfl

end DrawSource

namespace Grammar

variable {g : Grammar} {sym : Symbol} {word : Word} {t : Tree} {free : Nat}

/-! ### Trees -/

/-- All lists of alternatives and of words have less than `2 ^ 32` members. -/
structure Short (g : Grammar) : Prop where
  alternatives (head : Symbol) : (g.alternativesOf head).length < UInt32.size
  words (category : Symbol) : (g.wordsOf category).length < UInt32.size

/-- Whatever the table of heights, a tree is drawn from every source that gives these numbers, and
they are used up then. -/
def Draws (g : Grammar) (free : Nat) (t : Tree) (numbers : List UInt32) : Prop :=
  ∀ (heights : Heights) {σ : Type} [DrawSource σ] (s s' : σ), DrawSource.Supplies numbers s s' →
    g.randomTree heights free t.label s = (t, s')

/-- A leaf is drawn with the numbers for its word, or without any if it is a literal. -/
theorem exists_draws_leaf (hshort : g.Short) (hsym : g.isNonterminal sym = false)
    (haccepts : g.accepts sym word = true) :
    ∃ numbers, g.Draws free (.leaf sym word) numbers := by
  by_cases hcategory : g.isCategory sym = true
  · have hword : word ∈ g.wordsOf sym := by
      rw [accepts, isLiteral, hcategory, Bool.not_true, Bool.and_false, Bool.false_and,
        Bool.or_false, isA_iff] at haccepts
      exact haccepts
    obtain ⟨numbers, hnumbers⟩ := DrawSource.exists_numbers_choose hword (hshort.words sym)
    refine ⟨numbers, ?_⟩
    intro heights σ _ s s' hsupplies
    rw [Tree.label, randomTree_of_not_isNonterminal hsym, randomLeaf, if_pos hcategory]
    simp only [bind, StateT.bind, hnumbers s s' hsupplies]
    rfl
  · have hliteral : sym = word := by
      have hnone : g.isA word sym = false := by
        rw [Bool.eq_false_iff, ne_eq, isA_iff]
        exact fun hword => hcategory (Table.contains_of_mem_get hword)
      rw [accepts, hnone, Bool.false_or, Bool.and_eq_true] at haccepts
      exact eq_of_beq haccepts.2
    subst hliteral
    refine ⟨[], ?_⟩
    rintro heights σ _ s s' rfl
    rw [Tree.label, randomTree_of_not_isNonterminal hsym, randomLeaf, if_neg hcategory]
    rfl

/-- Trees that can be drawn can be drawn one after the other. -/
theorem exists_draws_forest {ts : List Tree} (h : ∀ t ∈ ts, ∃ numbers, g.Draws free t numbers) :
    ∃ numbers, ∀ (heights : Heights) {σ : Type} [DrawSource σ] (s s' : σ),
      DrawSource.Supplies numbers s s' →
        (ts.map Tree.label).mapM (g.randomTree heights free) s = (ts, s') := by
  induction ts with
  | nil =>
    refine ⟨[], ?_⟩
    rintro heights σ _ s s' rfl
    rfl
  | cons t ts ih =>
    obtain ⟨ht, hts⟩ := List.forall_mem_cons.1 h
    obtain ⟨first, hfirst⟩ := ht
    obtain ⟨second, hsecond⟩ := ih hts
    refine ⟨first ++ second, ?_⟩
    intro heights σ _ s s' hsupplies
    obtain ⟨between, htree, hrest⟩ := DrawSource.supplies_append.1 hsupplies
    rw [List.map_cons, List.mapM_cons]
    simp only [bind, StateT.bind, hfirst heights s between htree,
      hsecond heights between s' hrest]
    rfl

/-- An expansion that is no higher than there are free rewrites can be drawn. -/
theorem Expansion.exists_draws (h : g.Expansion t) (hshort : g.Short) (hheight : t.height ≤ free) :
    ∃ numbers, g.Draws free t numbers := by
  induction h generalizing free with
  | leaf hsym haccepts => exact exists_draws_leaf hshort hsym haccepts
  | @node head children hbody _ ih =>
    rw [Tree.height] at hheight
    obtain ⟨first, hfirst⟩ := DrawSource.exists_numbers_choose hbody (hshort.alternatives head)
    have hchildren : ∀ t ∈ children, ∃ numbers, g.Draws (free - 1) t numbers := fun t ht =>
      ih t ht (Nat.le_sub_one_of_lt (Nat.lt_of_le_of_lt (Tree.height_le_heightAll ht) hheight))
    obtain ⟨second, hsecond⟩ := exists_draws_forest hchildren
    refine ⟨first ++ second, ?_⟩
    intro heights σ _ s s' hsupplies
    obtain ⟨between, hbetween, hrest⟩ := DrawSource.supplies_append.1 hsupplies
    -- a rewrite is free, so all alternatives are options
    have hoptions : g.options heights free head = g.alternativesOf head :=
      if_neg (Nat.ne_of_gt (Nat.zero_lt_of_lt hheight))
    have hchoose : ∀ items, (hitems : items = g.alternativesOf head) →
        DrawSource.choose items s = (some ⟨_, hitems ▸ hbody⟩, between) := by
      rintro items rfl
      exact hfirst s between hbetween
    rw [Tree.label, randomTree_of_choose_some (isNonterminal_of_mem_alternativesOf hbody)
      (hchoose _ hoptions), hsecond heights between s' hrest]

end Grammar

/-! ### Sentences -/

/-- Suppose that no symbol has both rules and words and that all lists of alternatives and of words
have less than `2 ^ 32` members. Then for every derivation tree of the start symbol that is no
higher than there are free rewrites, there are numbers with which its sentence is drawn: from these
numbers listed, each of them drawn once, and from every source that gives them, also as the end of a
draft with whatever heights. -/
theorem exists_numbers_randomSentence (g : Grammar) (start : Symbol) (maxDepth : Nat)
    (hseparate : ∀ sym, g.isNonterminal sym = true → g.isCategory sym = false)
    (hshort : g.Short) (t : Tree) (ht : g.derives t = true) (hlabel : t.label = start)
    (hheight : t.height ≤ maxDepth) :
    ∃ numbers : List UInt32,
      g.randomSentence start maxDepth (Cycle.mk numbers.toArray 0) =
        (t.leaves, Cycle.mk numbers.toArray numbers.length) ∧
      ∀ {σ : Type} [DrawSource σ] (s s' : σ), DrawSource.Supplies numbers s s' →
        g.randomSentence start maxDepth s = (t.leaves, s') ∧
        ∀ heights, ∃ count,
          (Draft.first start).steps g heights maxDepth count s = (⟨[], t.leaves⟩, s') := by
  subst hlabel
  have hexpansion := Grammar.expansion_of_derives (fun sym _ => hseparate sym) .refl ht
  obtain ⟨numbers, hnumbers⟩ := hexpansion.exists_draws hshort hheight
  have hsentence : ∀ {σ : Type} [DrawSource σ] (s s' : σ), DrawSource.Supplies numbers s s' →
      g.randomSentence t.label maxDepth s = (t.leaves, s') := by
    intro σ _ s s' hsupplies
    have htree := hnumbers g.heights s s' hsupplies
    simp only [Grammar.randomSentence, bind, StateT.bind, htree]
    rfl
  refine ⟨numbers, hsentence _ _ (DrawSource.supplies_cycle numbers), ?_⟩
  intro σ _ s s' hsupplies
  refine ⟨hsentence s s' hsupplies, ?_⟩
  intro heights
  obtain ⟨count, hcount⟩ := Draft.exists_steps_first g heights maxDepth t.label s
  rw [hnumbers heights s s' hsupplies] at hcount
  exact ⟨count, hcount⟩

theorem short_joined : Grammar.joined.Short := by
  have hrows : ∀ row ∈ Grammar.joined.rules.rows, row.2.toList.length < UInt32.size := by decide
  have hlists : ∀ row ∈ Grammar.joined.lexicon.rows, row.2.toList.length < UInt32.size := by decide
  refine ⟨?_, ?_⟩
  · intro head
    unfold Grammar.alternativesOf Table.get
    cases hlookup : Grammar.joined.rules.rows.lookup head with
    | none => decide
    | some bodies => exact hrows _ (Table.lookup_eq_some_iff.1 hlookup)
  · intro category
    unfold Grammar.wordsOf Table.get
    cases hlookup : Grammar.joined.lexicon.rows.lookup category with
    | none => decide
    | some words => exact hlists _ (Table.lookup_eq_some_iff.1 hlookup)

/-- Two sentences joined, a tree that is as high as there are free rewrites. -/
def dogAndCat : Tree :=
  .node "S" [.node "S" [.leaf "N" "dog", .leaf "runs" "runs"], .leaf "and" "and",
    .node "S" [.leaf "N" "cat", .leaf "runs" "runs"]]

theorem exists_numbers_randomSentence_joined :
    ((∀ sym, Grammar.joined.isNonterminal sym = true → Grammar.joined.isCategory sym = false) ∧
      Grammar.joined.Short ∧ Grammar.joined.derives dogAndCat = true ∧ dogAndCat.label = "S" ∧
      dogAndCat.height ≤ 2) ∧
    ∃ numbers : List UInt32,
      Grammar.joined.randomSentence "S" 2 (Cycle.mk numbers.toArray 0) =
        (["dog", "runs", "and", "cat", "runs"], Cycle.mk numbers.toArray numbers.length) := by
  have hseparate : ∀ sym, Grammar.joined.isNonterminal sym = true →
      Grammar.joined.isCategory sym = false := by
    intro sym hsym
    obtain rfl := Grammar.eq_of_isNonterminal_joined hsym
    decide
  have hderives : Grammar.joined.derives dogAndCat = true := by decide
  have hheight : dogAndCat.height ≤ 2 := by decide
  obtain ⟨numbers, hsentence, -⟩ := exists_numbers_randomSentence Grammar.joined "S" 2 hseparate
    short_joined dogAndCat hderives rfl hheight
  exact ⟨⟨hseparate, short_joined, hderives, rfl, hheight⟩, numbers, hsentence⟩

end NaturalLanguage

import Mathlib.Data.Set.Finite.List
import Mathlib.Order.WellFoundedSet
import NaturalLanguage.Grammar.Derivation

/-!
# Cyclic grammars

A grammar is cyclic if a constituent can be its own only part, up to parts without words. The words
then say nothing about how often the constituent is repeated. In a grammar that is not cyclic, a
part that has all the words of a constituent lies lower in a well-founded order of the symbols, and
every other part has fewer words. So there are finitely many derivation trees over a number of
words.

* `Nullable`: symbols that derive no words; `nullable_label` says that they are the labels of the
  derivation trees without leaves.
* `Covers`, `Cyclic`: a part that may have all the words, and grammars where such parts lead back.
* `wellFounded_covers`, `not_cyclic_of_rank`: orders of the symbols of a grammar without cycles.
* `finite_derivations`, `finite_derives`: there are finitely many derivation trees over a number of
  words, and over the words of a sentence.
-/

namespace NaturalLanguage.Grammar

variable {g : Grammar}

/-! ### Rules as a list -/

/-- The pairs of a head and one of its alternatives. -/
def ruleList (g : Grammar) : List (Symbol × List Symbol) :=
  g.nonterminals.flatMap fun head => (g.alternativesOf head).map (head, ·)

/-- A symbol that has an alternative is a nonterminal. -/
theorem isNonterminal_of_mem_alternativesOf {head : Symbol} {body : List Symbol}
    (h : body ∈ g.alternativesOf head) : g.isNonterminal head = true :=
  Table.contains_of_mem_get h

theorem mem_nonterminals_iff {sym : Symbol} :
    sym ∈ g.nonterminals ↔ g.isNonterminal sym = true := by
  rw [isNonterminal, Table.contains_iff, OrderedSet.mem_def, nonterminals]

/-- The part of speech of a lexicon that has only one. -/
theorem eq_of_isCategory {sym category : Symbol} (hkeys : g.lexicon.keys.toList = [category])
    (h : g.isCategory sym = true) : sym = category := by
  rw [isCategory, Table.contains_iff, OrderedSet.mem_def, hkeys] at h
  exact List.mem_singleton.1 h

theorem mem_ruleList_iff {head : Symbol} {body : List Symbol} :
    (head, body) ∈ g.ruleList ↔ body ∈ g.alternativesOf head := by
  simp only [ruleList, List.mem_flatMap, List.mem_map, Prod.mk.injEq]
  constructor
  · rintro ⟨_, -, _, hbody, rfl, rfl⟩
    exact hbody
  · intro hbody
    exact ⟨head, mem_nonterminals_iff.2 (isNonterminal_of_mem_alternativesOf hbody), body, hbody,
      rfl, rfl⟩

/-! ### Symbols without words -/

/-- A symbol derives the empty list of words. -/
inductive Nullable (g : Grammar) : Symbol → Prop
  | intro {sym : Symbol} {body : List Symbol} : body ∈ g.alternativesOf sym →
      (∀ part ∈ body, Nullable g part) → Nullable g sym

/-- The label of a derivation tree without leaves is nullable. -/
theorem nullable_label {t : Tree} (ht : g.derives t = true) (hleaves : t.leaves = []) :
    g.Nullable t.label := by
  induction t using Tree.induction with
  | leaf category word => cases hleaves
  | node head children ih =>
    obtain ⟨hbody, hchildren⟩ := derives_node.1 ht
    rw [Tree.leaves_node, List.flatMap_eq_nil_iff] at hleaves
    refine .intro hbody ?_
    intro part hpart
    obtain ⟨t, ht, rfl⟩ := List.mem_map.1 hpart
    exact ih t ht (hchildren t ht) (hleaves t ht)

/-! ### Cycles -/

/-- `head` has an alternative in which the nonterminal `part` may be the only part with words. -/
def Covers (g : Grammar) (head part : Symbol) : Prop :=
  g.isNonterminal part = true ∧ ∃ before after, before ++ part :: after ∈ g.alternativesOf head ∧
    ∀ other ∈ before ++ after, g.Nullable other

/-- Some symbol leads back to itself through parts that may be the only ones with words. -/
def Cyclic (g : Grammar) : Prop := ∃ sym, Relation.TransGen g.Covers sym sym

/-- A grammar is not cyclic if a rank falls from every symbol to the parts that may be the only
ones with words. -/
theorem not_cyclic_of_rank (rank : Symbol → Nat)
    (h : ∀ head part, g.Covers head part → rank part < rank head) : ¬ g.Cyclic := by
  rintro ⟨sym, hcycle⟩
  have hrank : ∀ part, Relation.TransGen g.Covers sym part → rank part < rank sym := by
    intro part hpart
    induction hpart with
    | single hcovers => exact h _ _ hcovers
    | tail _ hcovers ih => exact Nat.lt_trans (h _ _ hcovers) ih
  exact Nat.lt_irrefl _ (hrank sym hcycle)

/-- If a grammar is not cyclic, the symbols can be treated after the parts that may be the only ones
with words. -/
theorem wellFounded_covers (h : ¬ g.Cyclic) :
    WellFounded fun part head => g.Covers head part := by
  have horder : IsStrictOrder Symbol fun part head => Relation.TransGen g.Covers head part :=
    { irrefl := fun sym hcycle => h ⟨sym, hcycle⟩
      trans := fun _ _ _ hlow hhigh => hhigh.trans hlow }
  -- only nonterminals are comparable, and these are finitely many
  have hwf := (List.finite_toSet g.nonterminals).wellFoundedOn
    (r := fun part head => Relation.TransGen g.Covers head part)
  rw [Set.wellFoundedOn_iff] at hwf
  refine Subrelation.wf ?_ hwf
  intro part head hcovers
  refine ⟨.single hcovers, mem_nonterminals_iff.2 hcovers.1, ?_⟩
  obtain ⟨-, before, after, hbody, -⟩ := hcovers
  exact mem_nonterminals_iff.2 (isNonterminal_of_mem_alternativesOf hbody)

/-! ### Finitely many derivation trees -/

/-- There are finitely many lists of a bounded length over a finite set. -/
theorem finite_lists {α : Type} {members : Set α} (h : members.Finite) (length : Nat) :
    {as : List α | as.length ≤ length ∧ ∀ a ∈ as, a ∈ members}.Finite := by
  have : Finite members := h
  refine ((List.finite_length_le members length).image (List.map Subtype.val)).subset ?_
  rintro as ⟨hlength, hmem⟩
  refine ⟨as.pmap Subtype.mk hmem, ?_, ?_⟩
  · change (as.pmap Subtype.mk hmem).length ≤ length
    rwa [List.length_pmap]
  · rw [List.map_pmap, List.pmap_eq_map, List.map_id']

/-- The derivation trees of `sym` over `length` words from `words`. -/
def derivations (g : Grammar) (words : List Word) (length : Nat) (sym : Symbol) : Set Tree :=
  {t | g.derives t = true ∧ t.label = sym ∧ t.leaves ⊆ words ∧ t.leaves.length = length}

variable {words : List Word} {length : Nat} {head : Symbol} {children : List Tree} {t : Tree}

/-- The leaves of a child are among those of the tree, in order. -/
theorem leaves_sublist (head : Symbol) (ht : t ∈ children) :
    t.leaves.Sublist (Tree.node head children).leaves := by
  rw [Tree.leaves_node, List.flatMap_def]
  exact List.sublist_flatten_of_mem (List.mem_map_of_mem ht)

/-- A child of a derivation tree that has all of its leaves is a leaf, or its label may be the only
part with words. -/
theorem covers_label (h : g.derives (.node head children) = true) (ht : t ∈ children)
    (hlength : (Tree.node head children).leaves.length ≤ t.leaves.length) :
    (∃ category word, t = .leaf category word) ∨ g.Covers head t.label := by
  obtain ⟨hbody, hchildren⟩ := derives_node.1 h
  obtain ⟨before, after, rfl⟩ := List.append_of_mem ht
  -- `t` has all leaves, so nothing is left for the other children
  have hother : ∀ u ∈ before ++ after, u.leaves = [] := by
    rw [← List.flatMap_eq_nil_iff, ← List.length_eq_zero_iff]
    simp only [Tree.leaves_node, List.flatMap_append, List.flatMap_cons, List.length_append]
      at hlength ⊢
    omega
  cases t with
  | leaf category word => exact .inl ⟨category, word, rfl⟩
  | node part grandchildren =>
    have hpart := derives_node.1 (hchildren _ ht)
    refine .inr ⟨isNonterminal_of_mem_alternativesOf hpart.1, before.map Tree.label,
      after.map Tree.label, ?_, ?_⟩
    · rwa [List.map_append, List.map_cons] at hbody
    · intro other hmem
      rw [← List.map_append] at hmem
      obtain ⟨u, hu, rfl⟩ := List.mem_map.1 hmem
      refine nullable_label (hchildren u ?_) (hother u hu)
      rw [List.mem_append, List.mem_cons]
      exact (List.mem_append.1 hu).imp_right .inr

/-- The children of a derivation tree with `body` below its root lie in a finite set, if there are
finitely many derivation trees over fewer words, and of the parts that may be the only ones with
words. -/
theorem exists_finite_children (body : List Symbol)
    (hfewer : ∀ fewer < length, ∀ part, (g.derivations words fewer part).Finite)
    (hcovered : ∀ part, g.Covers head part → (g.derivations words length part).Finite) :
    ∃ members : Set Tree, members.Finite ∧
      ∀ children, .node head children ∈ g.derivations words length head →
        children.map Tree.label = body → ∀ t ∈ children, t ∈ members := by
  have hbody : {part | part ∈ body}.Finite := List.finite_toSet body
  have hleaf : (Set.image2 Tree.leaf {part | part ∈ body} {word | word ∈ words}).Finite :=
    hbody.image2 _ (List.finite_toSet words)
  have hfewer' : (⋃ fewer ∈ Set.Iio length, ⋃ part ∈ {part | part ∈ body},
      g.derivations words fewer part).Finite :=
    (Set.finite_Iio length).biUnion fun fewer hlt => hbody.biUnion fun part _ =>
      hfewer fewer hlt part
  have hcovered' : (⋃ part ∈ {part | part ∈ body ∧ g.Covers head part},
      g.derivations words length part).Finite :=
    (hbody.subset fun _ hpart => hpart.1).biUnion fun part hpart => hcovered part hpart.2
  refine ⟨_, hleaf.union (hfewer'.union hcovered'), ?_⟩
  rintro children ⟨hderives, -, hwords, hlength⟩ rfl t ht
  have hlabel : t.label ∈ children.map Tree.label := List.mem_map_of_mem ht
  have hsublist := leaves_sublist head ht
  have hleaves : t.leaves ⊆ words := fun _ hword => hwords (hsublist.subset hword)
  have hle : t.leaves.length ≤ length := hlength ▸ hsublist.length_le
  have hderives' := (derives_node.1 hderives).2 t ht
  -- a child has fewer words, or it is a leaf, or it is covered by the head
  rcases Nat.lt_or_eq_of_le hle with hlt | heq
  · refine .inr (.inl ?_)
    simp only [Set.mem_iUnion]
    exact ⟨_, hlt, _, hlabel, hderives', rfl, hleaves, rfl⟩
  · rcases covers_label hderives ht (Nat.le_of_eq (hlength.trans heq.symm)) with
      ⟨category, word, rfl⟩ | hcovers
    · exact .inl ⟨category, hlabel, word, hleaves List.mem_cons_self, rfl⟩
    · refine .inr (.inr ?_)
      simp only [Set.mem_iUnion]
      exact ⟨_, ⟨hlabel, hcovers⟩, hderives', rfl, hleaves, heq⟩

/-- If a grammar is not cyclic, a symbol has finitely many derivation trees over a number of
words. -/
theorem finite_derivations (h : ¬ g.Cyclic) (words : List Word) (length : Nat) (sym : Symbol) :
    (g.derivations words length sym).Finite := by
  -- a part has fewer words than the whole, or all of them and then comes first in the order
  induction length using Nat.strong_induction_on generalizing sym with
  | _ length hfewer =>
    induction sym using (wellFounded_covers h).induction with
    | _ sym hcovered =>
      choose members hfinite hmem using fun body =>
        exists_finite_children body hfewer hcovered
      -- a tree is a leaf over one of the words, or a node over one of the alternatives
      have hleaf : (Tree.leaf sym '' {word | word ∈ words}).Finite :=
        (List.finite_toSet words).image _
      have hnode : (⋃ body ∈ {body | body ∈ g.alternativesOf sym}, Tree.node sym ''
          {ts | ts.length ≤ body.length ∧ ∀ t ∈ ts, t ∈ members body}).Finite :=
        (List.finite_toSet _).biUnion fun body _ => (finite_lists (hfinite body) _).image _
      refine (hleaf.union hnode).subset ?_
      rintro t ht
      obtain ⟨hderives, rfl, hwords, -⟩ := id ht
      cases t with
      | leaf category word => exact .inl ⟨word, hwords List.mem_cons_self, rfl⟩
      | node head children =>
        refine .inr ?_
        simp only [Set.mem_iUnion]
        refine ⟨children.map Tree.label, (derives_node.1 hderives).1, children, ⟨?_, ?_⟩, rfl⟩
        · rw [List.length_map]
        · exact hmem _ children ht rfl

/-- If a grammar is not cyclic, some symbols have finitely many derivation trees over words of a
sentence. -/
theorem finite_derives (h : ¬ g.Cyclic) (words : List Word) (syms : List Symbol) :
    {t | g.derives t = true ∧ t.label ∈ syms ∧ t.leaves.Sublist words}.Finite := by
  have hfinite : (⋃ sym ∈ {sym | sym ∈ syms}, ⋃ length ∈ Set.Iic words.length,
      g.derivations words length sym).Finite :=
    (List.finite_toSet syms).biUnion fun sym _ => (Set.finite_Iic _).biUnion fun length _ =>
      finite_derivations h words length sym
  refine hfinite.subset ?_
  rintro t ⟨hderives, hlabel, hsublist⟩
  simp only [Set.mem_iUnion]
  exact ⟨t.label, hlabel, t.leaves.length, hsublist.length_le, hderives, rfl, hsublist.subset, rfl⟩

end NaturalLanguage.Grammar

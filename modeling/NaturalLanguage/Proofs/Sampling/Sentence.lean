import Mathlib
import NaturalLanguage.Proofs.Chart.Parses
import NaturalLanguage.Proofs.Sampling.Outlines
import NaturalLanguage.Sampling.Sentence

/-!
# Random sentences are sentences

A random tree rewrites every symbol that has rules, so it is an expansion, if rewriting never leads
to a symbol without expansions. Where the free rewrites are used up, every subtree is lowest. The
words of a random tree are a sentence then, and the chart parser finds a parse of it.

* `DrawSource.exists_choose`: a choice among some items is one of them.
* `exists_randomTree_eq_node`: a random tree of a symbol with rules, and its parts.
* `randomTree_expansion`: what holds of random trees, by induction on their rewrites.
* `randomSentence_eq_leaves`: random sentences are the leaves of expansions and have parses.
-/

namespace NaturalLanguage

/-! ### Draws -/

section Draws

variable {σ : Type}

/-- A choice among some items is one of them. -/
theorem DrawSource.exists_choose [DrawSource σ] {α : Type} {items : List α} (h : items ≠ [])
    (s : σ) : ∃ item s', DrawSource.choose items s = (some item, s') := by
  have hlt : (position items.length s).1 < items.attach.length := by
    rw [List.length_attach]
    exact position_lt (List.length_pos_iff.2 h) s
  -- there are items, so a position is drawn, and it is the position of one of them
  refine ⟨items.attach[(position items.length s).1], (position items.length s).2, ?_⟩
  rw [← List.getElem?_eq_getElem hlt, choose, if_neg (by rwa [List.isEmpty_iff])]
  rfl

/-- The results of a computation for the members of a list are results for the members, each from
some state. -/
theorem forall₂_mapM {α β : Type} (f : α → StateM σ β) (as : List α) (s : σ) :
    List.Forall₂ (fun a b => ∃ s', b = (f a s').1) as (as.mapM f s).1 := by
  induction as generalizing s with
  | nil => exact .nil
  | cons a as ih =>
    rw [List.mapM_cons]
    exact .cons ⟨s, rfl⟩ (ih (f a s).2)

end Draws

namespace Grammar

variable {g : Grammar} {heights : Heights} {free : Nat} {sym : Symbol} {body : List Symbol}
  {σ : Type} [DrawSource σ]

/-! ### Random trees -/

theorem mem_alternativesOf_of_mem_options (h : body ∈ g.options heights free sym) :
    body ∈ g.alternativesOf sym := by
  unfold options at h
  split at h
  · obtain ⟨_, -, hbody, -⟩ := mem_shallowest_iff.1 h
    exact hbody
  · exact h

/-- A random tree of a symbol without rules is a leaf, if the symbol lists words or is a literal. -/
theorem exists_randomTree_eq_leaf (heights : Heights) (free : Nat)
    (hsym : g.isNonterminal sym = false)
    (hwords : g.isCategory sym = true → g.wordsOf sym ≠ []) (s : σ) :
    ∃ word, (g.randomTree heights free sym s).1 = .leaf sym word ∧
      g.accepts sym word = true := by
  rw [randomTree, dif_neg (by rw [hsym]; decide), randomLeaf]
  by_cases hcategory : g.isCategory sym = true
  · obtain ⟨⟨word, hword⟩, s', hchoose⟩ := DrawSource.exists_choose (hwords hcategory) s
    refine ⟨word, ?_, ?_⟩
    · rw [if_pos hcategory]
      simp only [bind, StateT.bind, hchoose]
      rfl
    · exact accepts_of_mem_wordsOf hword
  · refine ⟨sym, ?_, ?_⟩
    · rw [if_neg hcategory]
      rfl
    · exact accepts_self hsym (Bool.eq_false_iff.2 hcategory)

/-- A random tree of a symbol with rules is a node over random trees of the symbols of one of the
options. -/
theorem exists_randomTree_eq_node (hsym : g.isNonterminal sym = true)
    (hoptions : g.options heights free sym ≠ []) (s : σ) :
    ∃ body ∈ g.options heights free sym, ∃ children,
      (g.randomTree heights free sym s).1 = .node sym children ∧
        List.Forall₂ (fun part t => part ∈ body ∧
          ∃ s' : σ, t = (g.randomTree heights (free - 1) part s').1) body children := by
  obtain ⟨⟨body, hbody⟩, s', hchoose⟩ := DrawSource.exists_choose hoptions s
  let draw (part : { part // part ∈ body }) : StateM σ Tree :=
    g.randomTree heights (free - 1) part.1
  refine ⟨body, hbody, (body.attach.mapM draw s').1, ?_, ?_⟩
  · rw [randomTree, dif_pos hsym]
    simp only [bind, StateT.bind, hchoose]
    rfl
  · have hparts : List.Forall₂ (fun part t => part ∈ body ∧
        ∃ s' : σ, t = (g.randomTree heights (free - 1) part s').1) (body.attach.map Subtype.val)
        (body.attach.mapM draw s').1 :=
      List.forall₂_map_left_iff.2
        ((forall₂_mapM draw body.attach s').imp fun part _ ht => ⟨part.2, ht⟩)
    rwa [List.attach_map_subtype_val] at hparts

/-- Trees that are good and labelled like the symbols of a body, one after the other. -/
theorem labels_of_forall₂ {good : Tree → Prop} {children : List Tree}
    (h : List.Forall₂ (fun part t => t.label = part ∧ good t) body children) :
    children.map Tree.label = body ∧ ∀ t ∈ children, good t := by
  induction h with
  | nil => exact ⟨rfl, nofun⟩
  | cons ht _ ih =>
    obtain ⟨rfl, hgood⟩ := ht
    exact ⟨congrArg _ ih.1, List.forall_mem_cons.2 ⟨hgood, ih.2⟩⟩

/-- There are options for a symbol that has rules and an expansion. -/
theorem options_ne_nil (hsym : g.isNonterminal sym = true) (hproductive : g.Productive sym)
    (hstocked : g.Stocked sym) : g.options g.heights free sym ≠ [] := by
  obtain ⟨t, ht, rfl⟩ := hproductive sym .refl hsym
  unfold options
  split
  · obtain ⟨u, hu, hlabel, -⟩ := ht.exists_lowest
    have hlisted := (lookup_heights hstocked).2 ⟨hsym, u, hu, hlabel, rfl⟩
    exact g.settled_heights.shallowest_ne_nil hlisted
  · obtain ⟨children, -, hbody, -⟩ := ht.exists_children hsym
    exact List.ne_nil_of_mem hbody

/-- A random tree is an expansion, and its subtrees below the free rewrites are lowest. -/
theorem randomTree_expansion (free : Nat) (sym : Symbol) (hproductive : g.Productive sym)
    (hstocked : g.Stocked sym) (s : σ) :
    (g.randomTree g.heights free sym s).1.label = sym ∧
      g.Expansion (g.randomTree g.heights free sym s).1 ∧
      ∀ u ∈ (g.randomTree g.heights free sym s).1.subtreesAt free, g.Lowest u := by
  induction free, sym using randomTree.induct g g.heights generalizing s with
  | case1 free sym hsym ih =>
    obtain ⟨body, hbody, children, htree, hchildren⟩ :=
      exists_randomTree_eq_node hsym (options_ne_nil hsym hproductive hstocked) s
    have hmem := mem_alternativesOf_of_mem_options hbody
    -- every child is a random tree of its symbol, with one free rewrite less
    have hgood : List.Forall₂ (fun part t => t.label = part ∧
        (g.Expansion t ∧ ∀ u ∈ t.subtreesAt (free - 1), g.Lowest u)) body children := by
      refine hchildren.imp ?_
      rintro part t ⟨hpart, s', rfl⟩
      exact ih body hbody part hpart (hproductive.of_mem hmem hpart) (hstocked.of_mem hmem hpart) s'
    obtain ⟨hlabels, hparts⟩ := labels_of_forall₂ hgood
    subst hlabels
    rw [htree]
    refine ⟨rfl, .node hmem fun t ht => (hparts t ht).1, ?_⟩
    cases free with
    | zero =>
      -- no rewrite is free: the body is as high as its head, and the children are lowest, too
      intro u hu
      obtain rfl := List.mem_singleton.1 hu
      refine Lowest.of_mem_shallowest hstocked ?_ hbody
      intro t ht
      exact (hparts t ht).2 t (List.mem_singleton_self t)
    | succ free =>
      -- the subtrees below the free rewrites are those of the children, below one less
      intro u hu
      obtain ⟨t, ht, hu⟩ := List.mem_flatMap.1 hu
      exact (hparts t ht).2 u hu
  | case2 free sym hsym =>
    rw [Bool.not_eq_true] at hsym
    obtain ⟨word, htree, haccepts⟩ :=
      exists_randomTree_eq_leaf g.heights free hsym (hstocked sym .refl hsym) s
    rw [htree]
    refine ⟨rfl, .leaf hsym haccepts, ?_⟩
    intro u hu
    cases free with
    | zero =>
      obtain rfl := List.mem_singleton.1 hu
      exact .of_accepts hsym haccepts
    | succ free => cases hu

/-! ### Random sentences -/

/-- A symbol with rules that derives the words of a sentence has a parse of the sentence. -/
theorem exists_completeParses {t : Tree} (ht : g.derives t = true)
    (hlabel : ∃ children, t = .node sym children) {limit : Nat}
    (hlimit : Chart.Run.parseWithin limit g t.leaves sym ≠ .error .limitReached) :
    ∃ run, Chart.Run.parseWithin limit g t.leaves sym = .ok run ∧
      run.chart.completeParses sym ≠ [] := by
  obtain ⟨run, hparse, hreachable, hagenda⟩ := Chart.Run.exists_of_parseWithin hlimit
  refine ⟨run, hparse, ?_⟩
  -- the chart holds all derivation trees over the sentence, so also this one
  have hmem := (hreachable.mem_trees_iff hagenda).2
    ⟨hlabel, rfl, Chart.derivesFrom_of_derives t ht 0⟩
  intro hnil
  rw [hnil] at hmem
  cases hmem

/-- Suppose that rewriting the start symbol leads only to symbols with expansions and to parts of
speech with words. Then every random sentence, whatever is drawn and however many rewrites are free,
is the sentence of a derivation tree of the start symbol in which the subtrees below the free
rewrites are lowest, and if the start symbol has rules, the chart parser finds a parse of the
sentence unless it does not end. If rewriting the start symbol never leads to a symbol that has both
rules and words, the expansions are the derivation trees. -/
theorem randomSentence_eq_leaves (g : Grammar) (start : Symbol) :
    (g.Productive start → g.Stocked start →
      ∀ {σ : Type} [DrawSource σ] (free : Nat) (s : σ),
        (∃ t, (g.randomSentence start free s).1 = t.leaves ∧ t.label = start ∧
          g.derives t = true ∧ ∀ u ∈ t.subtreesAt free, g.Lowest u) ∧
        (g.isNonterminal start = true → ∀ limit,
          Chart.Run.parseWithin limit g (g.randomSentence start free s).1 start ≠
              .error .limitReached →
            ∃ run, Chart.Run.parseWithin limit g (g.randomSentence start free s).1 start =
                .ok run ∧
              run.chart.completeParses start ≠ [])) ∧
    ((∀ sym, g.Reaches start sym → g.isNonterminal sym = true → g.isCategory sym = false) →
      ∀ t, g.Reaches start t.label → (g.Expansion t ↔ g.derives t = true)) := by
  refine ⟨?_, ?_⟩
  · intro hproductive hstocked σ _ free s
    obtain ⟨hlabel, hexpansion, hlowest⟩ := randomTree_expansion free start hproductive hstocked s
    have hleaves : (g.randomSentence start free s).1 =
        (g.randomTree g.heights free start s).1.leaves := rfl
    rw [hleaves]
    refine ⟨⟨_, rfl, hlabel, hexpansion.derives, hlowest⟩, ?_⟩
    intro hstart limit hlimit
    obtain ⟨children, hnode, -⟩ := hexpansion.exists_children (hlabel.symm ▸ hstart)
    rw [hlabel] at hnode
    exact exists_completeParses hexpansion.derives ⟨children, hnode⟩ hlimit
  · intro hseparate t hreach
    exact ⟨Expansion.derives, expansion_of_derives hseparate hreach⟩

/-- A grammar of sentences that may be joined. -/
def joined : Grammar :=
  [.rule "S" ["S", "and", "S"], .rule "S" ["N", "runs"], .words "N" ["dog", "cat"]].foldl
    Grammar.insert (.empty "joined")

theorem eq_of_isNonterminal_joined (h : joined.isNonterminal sym = true) : sym = "S" := by
  have hkeys : joined.nonterminals = ["S"] := by decide
  rw [← mem_nonterminals_iff, hkeys] at h
  exact List.mem_singleton.1 h

theorem productive_joined : joined.Productive "S" := by
  intro part _ hpart
  obtain rfl := eq_of_isNonterminal_joined hpart
  refine ⟨.node "S" [.leaf "N" "dog", .leaf "runs" "runs"], .node (by decide) ?_, rfl⟩
  intro t ht
  rcases List.mem_pair.1 ht with rfl | rfl
  · exact .leaf (by decide) (by decide)
  · exact .leaf (by decide) (by decide)

theorem stocked_joined : joined.Stocked "S" := by
  intro part _ _ hpart
  have hkeys : joined.lexicon.keys.toList = ["N"] := by decide
  obtain rfl := eq_of_isCategory hkeys hpart
  decide

theorem randomSentence_eq_leaves_joined :
    (joined.Productive "S" ∧ joined.Stocked "S") ∧ joined.isNonterminal "S" = true ∧
      (joined.randomSentence "S" 1 (Cycle.mk #[0, 0, 3000000000, 0] 0)).1 =
        ["cat", "runs", "and", "dog", "runs"] ∧
      (∃ t : Tree, ["cat", "runs", "and", "dog", "runs"] = t.leaves ∧ t.label = "S" ∧
        joined.derives t = true ∧ ∀ u ∈ t.subtreesAt 1, joined.Lowest u) ∧
      (∃ run, Chart.Run.parseWithin 40 joined ["cat", "runs", "and", "dog", "runs"] "S" =
          .ok run ∧
        run.chart.completeParses "S" ≠ []) ∧
      ∀ t, joined.Reaches "S" t.label → (joined.Expansion t ↔ joined.derives t = true) := by
  have hsentence : (joined.randomSentence "S" 1 (Cycle.mk #[0, 0, 3000000000, 0] 0)).1 =
      ["cat", "runs", "and", "dog", "runs"] := by
    cbv
  have hlimit : Chart.Run.parseWithin 40 joined ["cat", "runs", "and", "dog", "runs"] "S" ≠
      .error .limitReached :=
    Chart.Run.ne_limitReached_of_isOk (by decide +kernel)
  have hS : joined.isNonterminal "S" = true := by decide
  have hseparate : ∀ sym, joined.Reaches "S" sym → joined.isNonterminal sym = true →
      joined.isCategory sym = false := by
    intro sym _ hsym
    obtain rfl := eq_of_isNonterminal_joined hsym
    decide
  obtain ⟨hrandom, hexpansion⟩ := randomSentence_eq_leaves joined "S"
  obtain ⟨htree, hparses⟩ := hrandom productive_joined stocked_joined 1
    (Cycle.mk #[0, 0, 3000000000, 0] 0)
  rw [hsentence] at htree hparses
  exact ⟨⟨productive_joined, stocked_joined⟩, hS, hsentence, htree, hparses hS 40 hlimit,
    hexpansion hseparate⟩

/-- A grammar in which `N` lists a word and has a rule, which leads to no other symbol. -/
def compounds : Grammar :=
  [.rule "S" ["N"], .rule "N" ["N", "N"], .words "N" ["dog"]].foldl Grammar.insert
    (.empty "compounds")

theorem ruleList_compounds : compounds.ruleList = [("S", ["N"]), ("N", ["N", "N"])] := by
  decide

theorem not_nullable_compounds (sym : Symbol) : ¬ compounds.Nullable sym := by
  intro hnullable
  induction hnullable with
  | intro hbody _ ih =>
    rw [← mem_ruleList_iff, ruleList_compounds] at hbody
    simp only [List.mem_cons, Prod.mk.injEq, List.not_mem_nil, or_false] at hbody
    rcases hbody with ⟨-, rfl⟩ | ⟨-, rfl⟩ <;> exact ih "N" List.mem_cons_self

/-- A symbol that lists words is dropped if it has rules and none of its alternatives has an
expansion: all symbols of the grammar derive `dog`, but the random sentence is empty, and no
derivation tree is. -/
theorem compounds_drop_word :
    ((∀ sym, compounds.Reaches "S" sym → compounds.isNonterminal sym = true →
        ∃ t, compounds.derives t = true ∧ t.label = sym) ∧
      ∀ sym, compounds.isCategory sym = true → compounds.wordsOf sym ≠ []) ∧
    (compounds.randomSentence "S" 0 (Cycle.mk #[0] 0)).1 = [] ∧
    (∀ t, compounds.derives t = true → t.leaves ≠ []) ∧
    ∃ run, Chart.Run.parseWithin 8 compounds [] "S" = .ok run ∧
      run.chart.completeParses "S" = [] := by
  refine ⟨⟨?_, ?_⟩, by cbv, ?_, ?_⟩
  · intro sym _ hsym
    have hkeys : compounds.nonterminals = ["S", "N"] := by decide
    rw [← mem_nonterminals_iff, hkeys] at hsym
    rcases List.mem_pair.1 hsym with rfl | rfl
    · exact ⟨.node "S" [.leaf "N" "dog"], by decide, rfl⟩
    · exact ⟨.leaf "N" "dog", by decide, rfl⟩
  · intro sym hsym
    have hkeys : compounds.lexicon.keys.toList = ["N"] := by decide
    obtain rfl := eq_of_isCategory hkeys hsym
    decide
  · intro t ht hleaves
    exact not_nullable_compounds t.label (nullable_label ht hleaves)
  · have hparses : ((Chart.Run.parseWithin 8 compounds [] "S").map fun run =>
        run.chart.completeParses "S").toOption = some [] := by
      decide +kernel
    exact Chart.Run.exists_of_toOption_map hparses

end Grammar

end NaturalLanguage

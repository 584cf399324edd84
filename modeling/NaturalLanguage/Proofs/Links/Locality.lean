import NaturalLanguage.Proofs.Links.Interning

/-!
# The scores of a query see nothing but its neighbourhood

Two graphs may differ in all pages that are far from a query, and in the links of these pages. Then
the pages around the query have other numbers in the two graphs, but they are numbered in the same
relative order if they are first named in this order. So the links between them are listed alike,
and all sums are taken in the same order, whatever rounding does to them.

* `LinkGraph.AgreeOn`: graphs that are alike on some pages.
* `AgreeOn.filter_eq`, `AgreeOn.positions_eq`: lists of linked pages, cut down to these pages.
* `AgreeOn.ofPages_eq`: all links between these pages.
* `LinkGraph.scores_local`: the scores of the pages around a query.
-/

namespace NaturalLanguage

/-- Only the pages of the list have a position. -/
theorem Neighbourhood.positions_filter (pages names : List String) :
    positions pages (names.filter (· ∈ pages)) = positions pages names := by
  rw [positions, List.filterMap_filter]
  refine List.filterMap_congr fun name _ => ?_
  by_cases hname : name ∈ pages
  · simp [hname]
  · simp [hname, List.finIdxOf?_eq_none_iff.2 hname]

namespace LinkGraph

/-- The graphs have the same links between some pages, and these pages are first named in the same
order. -/
structure AgreeOn (g g' : LinkGraph) (pages : List String) : Prop where
  linksTo_eq : ∀ p ∈ pages, ∀ q ∈ pages, g.linksTo p q = g'.linksTo p q
  namedBefore_iff : ∀ p ∈ pages, ∀ q ∈ pages, g.NamedBefore p q ↔ g'.NamedBefore p q

namespace AgreeOn

variable {g g' : LinkGraph} {pages names names' : List String} (h : g.AgreeOn g' pages)

include h

/-- Names that each graph lists in its own order come in one order on the pages on which the graphs
agree. -/
theorem filter_eq (hnames : names.Pairwise g.NamedBefore) (hnames' : names'.Pairwise g'.NamedBefore)
    (hmem : ∀ page ∈ pages, page ∈ names ↔ page ∈ names') :
    names.filter (· ∈ pages) = names'.filter (· ∈ pages) := by
  -- on the pages the order of the second graph is the order of the first one
  have horder : (names'.filter (· ∈ pages)).Pairwise g.NamedBefore := by
    refine (hnames'.filter _).imp_of_mem fun {p q} hp hq hbefore => ?_
    have hp := of_decide_eq_true (List.mem_filter.1 hp).2
    have hq := of_decide_eq_true (List.mem_filter.1 hq).2
    exact (h.namedBefore_iff p hp q hq).2 hbefore
  refine (hnames.filter _).eq_of_mem_iff horder fun page => ?_
  simp only [List.mem_filter, decide_eq_true_eq]
  exact and_congr_left (hmem page)

theorem positions_eq (hnames : names.Pairwise g.NamedBefore)
    (hnames' : names'.Pairwise g'.NamedBefore)
    (hmem : ∀ page ∈ pages, page ∈ names ↔ page ∈ names') :
    Neighbourhood.positions pages names = Neighbourhood.positions pages names' := by
  rw [← Neighbourhood.positions_filter, h.filter_eq hnames hnames' hmem,
    Neighbourhood.positions_filter]

/-- The links between the pages are the same in both graphs, down to the order in which they are
listed. -/
theorem ofPages_eq : Neighbourhood.ofPages g pages = Neighbourhood.ofPages g' pages := by
  have hpage : ∀ i : Fin pages.length, pages[i] ∈ pages := fun i => List.getElem_mem i.isLt
  have hsources : ∀ i : Fin pages.length, Neighbourhood.positions pages (g.inlinks pages[i]) =
      Neighbourhood.positions pages (g'.inlinks pages[i]) := by
    intro i
    apply h.positions_eq (g.pairwise_inlinks _) (g'.pairwise_inlinks _)
    intro source hsource
    rw [mem_inlinks_iff, mem_inlinks_iff, h.linksTo_eq source hsource _ (hpage i)]
  have htargets : ∀ i : Fin pages.length, Neighbourhood.positions pages (g.outlinks pages[i]) =
      Neighbourhood.positions pages (g'.outlinks pages[i]) := by
    intro i
    apply h.positions_eq (g.pairwise_outlinks _) (g'.pairwise_outlinks _)
    intro target htarget
    rw [mem_outlinks_iff, mem_outlinks_iff, h.linksTo_eq _ (hpage i) target htarget]
  rw [Neighbourhood.ofPages, Neighbourhood.ofPages, funext hsources, funext htargets]

end AgreeOn

variable {g g' : LinkGraph} {query : String}

/-- The scores of a query are the same in two graphs that have the same pages around it, with the
same links between them and first named in the same order. They are the same numbers, not only
close ones, whatever arithmetic is used, and they are also the same if the pages are numbered in
tables, where the numbers differ as soon as some other page is named earlier. -/
theorem scores_local (hpages : ∀ page, page ∈ g.expand (g.relevant query) ↔
      page ∈ g'.expand (g'.relevant query)) (hagree : g.AgreeOn g' (g.expand (g.relevant query)))
    {K : Type} [Scalar K] (rounds : ℕ) :
    (g.scores query rounds : List (PageScore K)) = g'.scores query rounds ∧
      ∀ rows rows' : List (String × List String), ofRows rows = g → ofRows rows' = g' →
        ((PageTable.ofRows rows).scores query rounds : List (PageScore K)) =
          (PageTable.ofRows rows').scores query rounds := by
  have haround : Neighbourhood.around g query = Neighbourhood.around g' query := by
    rw [Neighbourhood.around, hagree.ofPages_eq, expand_congr hpages, Neighbourhood.around]
  have hscores : (g.scores query rounds : List (PageScore K)) = g'.scores query rounds :=
    congrArg (Neighbourhood.listScores · rounds) haround
  refine ⟨hscores, ?_⟩
  rintro rows rows' rfl rfl
  rw [(PageTable.represents_ofRows rows).scores_eq, (PageTable.represents_ofRows rows').scores_eq,
    hscores]

/-- A page with one source and one target, which are linked as well. -/
def nearby : List (String × List String) := [("b", ["a", "c"]), ("a", ["c"])]

/-- The same pages and links among others, some of them repeated. -/
def remote : List (String × List String) :=
  [("x", ["b", "x"]), ("b", ["x", "a", "a", "c"]), ("y", ["c"]), ("a", ["c"]), ("b", ["a"])]

theorem scores_local_nearby :
    (∀ page, page ∈ (ofRows nearby).expand ((ofRows nearby).relevant "a") ↔
      page ∈ (ofRows remote).expand ((ofRows remote).relevant "a")) ∧
    (ofRows nearby).AgreeOn (ofRows remote)
      ((ofRows nearby).expand ((ofRows nearby).relevant "a")) ∧
    ((ofRows nearby).scores "a" 3 : List (PageScore Float)) = (ofRows remote).scores "a" 3 ∧
    ((PageTable.ofRows nearby).scores "a" 3 : List (PageScore Float)) =
      (PageTable.ofRows remote).scores "a" 3 := by
  have hnearby : ∀ page, page ∈ (ofRows nearby).expand ((ofRows nearby).relevant "a") ↔
      page = "a" ∨ page = "b" ∨ page = "c" := by
    intro page
    simp only [mem_expand_relevant_iff, mem_pages_ofRows, linksTo_ofRows, nearby, List.mem_cons,
      List.not_mem_nil, or_false, exists_eq_or_imp, exists_eq_left]
    grind
  have hremote : ∀ page, page ∈ (ofRows remote).expand ((ofRows remote).relevant "a") ↔
      page = "a" ∨ page = "b" ∨ page = "c" := by
    intro page
    simp only [mem_expand_relevant_iff, mem_pages_ofRows, linksTo_ofRows, remote, List.mem_cons,
      List.not_mem_nil, or_false, exists_eq_or_imp, exists_eq_left]
    grind
  have hpages := fun page => (hnearby page).trans (hremote page).symm
  have hagree : (ofRows nearby).AgreeOn (ofRows remote)
      ((ofRows nearby).expand ((ofRows nearby).relevant "a")) := by
    constructor
    · intro p hp q hq
      obtain rfl | rfl | rfl := (hnearby p).1 hp <;> obtain rfl | rfl | rfl := (hnearby q).1 hq <;>
        decide
    · intro p hp q hq
      obtain rfl | rfl | rfl := (hnearby p).1 hp <;> obtain rfl | rfl | rfl := (hnearby q).1 hq <;>
        decide
  obtain ⟨hscores, htables⟩ := scores_local hpages hagree (K := Float) 3
  exact ⟨hpages, hagree, hscores, htables nearby remote rfl rfl⟩

end LinkGraph

end NaturalLanguage

import NaturalLanguage.OrderedSet

/-!
# Link graphs

A link graph is given by rows, each a page with the pages it links to. Pages are known in the order
in which they are first named, as a page or as a target, and links that are given again count once.

* `LinkGraph.ofRows`: the graph of a list of rows (`mem_pages_ofRows`, `linksTo_ofRows`).
* `LinkGraph.inlinks`, `LinkGraph.outlinks`: the neighbours of a page, as first named
  (`mem_inlinks_iff`).
* `LinkGraph.expand`: pages with all their neighbours, by name.
-/

namespace NaturalLanguage

/-- Pages and the links between them. -/
structure LinkGraph where
  /-- The pages, as first named. -/
  pages : OrderedSet String
  /-- The links, from a page to a page. -/
  links : List (String × String)
  /-- Links begin and end at pages. -/
  mem_pages : ∀ link ∈ links, link.1 ∈ pages ∧ link.2 ∈ pages

namespace LinkGraph

/-- The graph given by rows of a page and its targets. -/
def ofRows (rows : List (String × List String)) : LinkGraph where
  pages := OrderedSet.ofList (rows.flatMap fun row => row.1 :: row.2)
  links := rows.flatMap fun row => row.2.map fun target => (row.1, target)
  mem_pages := by
    simp only [List.mem_flatMap, List.mem_map, OrderedSet.mem_ofList]
    rintro _ ⟨row, hrow, target, htarget, rfl⟩
    exact ⟨⟨row, hrow, by simp⟩, ⟨row, hrow, by simp [htarget]⟩⟩

/-- The number of pages. -/
def size (g : LinkGraph) : Nat := g.pages.size

/-- Whether a name is a page. -/
def contains (g : LinkGraph) (page : String) : Bool := page ∈ g.pages

/-- Whether `source` links to `target`. -/
def linksTo (g : LinkGraph) (source target : String) : Bool := (source, target) ∈ g.links

/-- The pages that link to `page`. -/
def inlinks (g : LinkGraph) (page : String) : List String :=
  g.pages.toList.filter (g.linksTo · page)

/-- The pages that `page` links to. -/
def outlinks (g : LinkGraph) (page : String) : List String :=
  g.pages.toList.filter (g.linksTo page ·)

/-- The pages that match a query: a query matches the page of that name. -/
def relevant (g : LinkGraph) (query : String) : List String :=
  g.pages.toList.filter (· == query)

/-- The given pages with all pages that link to them or that they link to, by name. Names that are
no pages do not count. -/
def expand (g : LinkGraph) (given : List String) : List String :=
  (g.pages.toList.filter fun page =>
    given.any fun p => page == p || g.linksTo page p || g.linksTo p page).mergeSort

theorem linksTo_ofRows {rows : List (String × List String)} {source target : String} :
    (ofRows rows).linksTo source target = true ↔ ∃ row ∈ rows, row.1 = source ∧ target ∈ row.2 := by
  simp only [linksTo, ofRows, decide_eq_true_eq, List.mem_flatMap, List.mem_map, Prod.mk.injEq]
  constructor
  · rintro ⟨row, hrow, t, ht, hs, rfl⟩; exact ⟨row, hrow, hs, ht⟩
  · rintro ⟨row, hrow, hs, ht⟩; exact ⟨row, hrow, target, ht, hs, rfl⟩

theorem mem_pages_ofRows {rows : List (String × List String)} {page : String} :
    page ∈ (ofRows rows).pages ↔ ∃ row ∈ rows, page = row.1 ∨ page ∈ row.2 := by
  simp [ofRows]

theorem mem_inlinks_iff {g : LinkGraph} {source target : String} :
    source ∈ g.inlinks target ↔ g.linksTo source target = true := by
  simp only [inlinks, List.mem_filter, and_iff_right_iff_imp, linksTo, decide_eq_true_eq]
  exact fun h => (g.mem_pages _ h).1

theorem mem_outlinks_iff {g : LinkGraph} {source target : String} :
    target ∈ g.outlinks source ↔ g.linksTo source target = true := by
  simp only [outlinks, List.mem_filter, and_iff_right_iff_imp, linksTo, decide_eq_true_eq]
  exact fun h => (g.mem_pages _ h).2

end LinkGraph

end NaturalLanguage

import Mathlib.Data.List.Sort
import Mathlib.Data.String.Basic
import NaturalLanguage.Links.Score

/-!
# The pages around a query and their links

The pages around a query are listed once and by name, so the list is determined by which pages it
has. The links of a neighbourhood are the links of the graph between its pages.

* `LinkGraph.NamedBefore`: the order in which pages are first named.
* `LinkGraph.mem_expand_iff`, `LinkGraph.expand_congr`: some pages with all their neighbours.
* `Neighbourhood.LinkedAsIn`: the links of a neighbourhood by position, and
  `Neighbourhood.linkedAsIn_around`: those around a query.
-/

namespace NaturalLanguage

namespace LinkGraph

variable {g g' : LinkGraph} {given given' : List String} {page query : String}

/-! ### The order in which pages are named -/

/-- The page `p` is first named before the page `q`. -/
def NamedBefore (g : LinkGraph) (p q : String) : Prop :=
  g.pages.toList.idxOf p < g.pages.toList.idxOf q

instance (g : LinkGraph) (p q : String) : Decidable (g.NamedBefore p q) := Nat.decLt _ _

theorem pairwise_namedBefore (g : LinkGraph) : g.pages.toList.Pairwise g.NamedBefore := by
  rw [List.pairwise_iff_getElem]
  intro i j hi hj hij
  rwa [NamedBefore, g.pages.nodup.idxOf_getElem, g.pages.nodup.idxOf_getElem]

theorem pairwise_inlinks (g : LinkGraph) (page : String) :
    (g.inlinks page).Pairwise g.NamedBefore :=
  g.pairwise_namedBefore.filter _

theorem pairwise_outlinks (g : LinkGraph) (page : String) :
    (g.outlinks page).Pairwise g.NamedBefore :=
  g.pairwise_namedBefore.filter _

instance : Std.Irrefl g.NamedBefore := ⟨fun _ => Nat.lt_irrefl _⟩

instance : Std.Antisymm g.NamedBefore :=
  ⟨fun _ _ hpq hqp => absurd hqp (Nat.lt_asymm hpq)⟩

/-! ### Pages with their neighbours -/

theorem mem_pages_of_linksTo (g : LinkGraph) {source target : String}
    (h : g.linksTo source target = true) : source ∈ g.pages ∧ target ∈ g.pages :=
  g.mem_pages _ (of_decide_eq_true h)

theorem mem_relevant_iff : page ∈ g.relevant query ↔ page ∈ g.pages ∧ page = query := by
  simp [relevant, OrderedSet.mem_def]

theorem mem_expand_iff : page ∈ g.expand given ↔ page ∈ g.pages ∧
    ∃ p ∈ given, page = p ∨ g.linksTo page p = true ∨ g.linksTo p page = true := by
  simp [expand, OrderedSet.mem_def, or_assoc]

/-- The pages around a query are the page of that name, if there is one, and its neighbours. -/
theorem mem_expand_relevant_iff : page ∈ g.expand (g.relevant query) ↔
    page ∈ g.pages ∧ query ∈ g.pages ∧
      (page = query ∨ g.linksTo page query = true ∨ g.linksTo query page = true) := by
  rw [mem_expand_iff]
  refine and_congr_right fun _ => ⟨?_, ?_⟩
  · rintro ⟨p, hp, hnear⟩
    obtain ⟨hquery, rfl⟩ := mem_relevant_iff.1 hp
    exact ⟨hquery, hnear⟩
  · rintro ⟨hquery, hnear⟩
    exact ⟨query, mem_relevant_iff.2 ⟨hquery, rfl⟩, hnear⟩

theorem nodup_expand (g : LinkGraph) (given : List String) : (g.expand given).Nodup :=
  List.nodup_mergeSort.2 (g.pages.nodup.filter _)

theorem pairwise_expand (g : LinkGraph) (given : List String) :
    (g.expand given).Pairwise (· ≤ ·) :=
  List.pairwise_mergeSort' (· ≤ ·) _

/-- Pages with their neighbours are listed by name, so only which ones they are counts. -/
theorem expand_congr (h : ∀ page, page ∈ g.expand given ↔ page ∈ g'.expand given') :
    g.expand given = g'.expand given' := by
  have hperm := (List.perm_ext_iff_of_nodup (g.nodup_expand given) (g'.nodup_expand given')).2 h
  exact hperm.eq_of_pairwise (fun _ _ _ _ => le_antisymm) (g.pairwise_expand given)
    (g'.pairwise_expand given')

/-- Graphs with the same pages and links have the same pages around a query. -/
theorem expand_relevant_congr (hpages : ∀ page, page ∈ g.pages ↔ page ∈ g'.pages)
    (hlinks : ∀ source target, g.linksTo source target = g'.linksTo source target)
    (query : String) : g.expand (g.relevant query) = g'.expand (g'.relevant query) :=
  expand_congr fun page => by simp only [mem_expand_iff, mem_relevant_iff, hpages, hlinks]

end LinkGraph

namespace Neighbourhood

variable {pages names : List String} {g : LinkGraph}

/-- The position of a page is among the positions of some names exactly if the page is. -/
theorem mem_positions_iff (hpages : pages.Nodup) {i : Fin pages.length} :
    i ∈ positions pages names ↔ pages.get i ∈ names := by
  simp only [positions, List.mem_filterMap, List.finIdxOf?_eq_some_iff]
  constructor
  · rintro ⟨_, hname, rfl, -⟩
    exact hname
  · intro hname
    refine ⟨_, hname, rfl, fun j hj heq => ?_⟩
    -- no page is listed twice, so the first position of the page is the only one
    have hij : (j : ℕ) = i := hpages.getElem_inj_iff.1 heq
    omega

theorem nodup_positions (pages : List String) (hnames : names.Nodup) :
    (positions pages names).Nodup := by
  refine hnames.filterMap fun name name' i hname hname' => ?_
  rw [Option.mem_def, List.finIdxOf?_eq_some_iff] at hname hname'
  exact hname.1.symm.trans hname'.1

/-- The sources and targets of a neighbourhood are the links of a graph between its pages, each
once. -/
structure LinkedAsIn (h : Neighbourhood) (g : LinkGraph) : Prop where
  mem_sources_iff (i j : Fin h.pages.length) :
    j ∈ h.sources[i] ↔ g.linksTo h.pages[j] h.pages[i] = true
  mem_targets_iff (i j : Fin h.pages.length) :
    j ∈ h.targets[i] ↔ g.linksTo h.pages[i] h.pages[j] = true
  nodup_sources (i : Fin h.pages.length) : h.sources[i].Nodup
  nodup_targets (i : Fin h.pages.length) : h.targets[i].Nodup

/-- Pages that are listed once are linked as in the graph from which their links are taken. -/
theorem linkedAsIn_ofPages (hpages : pages.Nodup) (g : LinkGraph) :
    (ofPages g pages).LinkedAsIn g := by
  have hsources : ∀ i : Fin (ofPages g pages).pages.length,
      (ofPages g pages).sources[i] = positions pages (g.inlinks pages[i]) :=
    fun i => Vector.getElem_ofFn i.isLt
  have htargets : ∀ i : Fin (ofPages g pages).pages.length,
      (ofPages g pages).targets[i] = positions pages (g.outlinks pages[i]) :=
    fun i => Vector.getElem_ofFn i.isLt
  exact {
    mem_sources_iff := fun i j => by
      rw [hsources i]
      exact (mem_positions_iff hpages).trans LinkGraph.mem_inlinks_iff
    mem_targets_iff := fun i j => by
      rw [htargets i]
      exact (mem_positions_iff hpages).trans LinkGraph.mem_outlinks_iff
    nodup_sources := fun i => by
      rw [hsources i]
      exact nodup_positions pages (g.pages.nodup.filter _)
    nodup_targets := fun i => by
      rw [htargets i]
      exact nodup_positions pages (g.pages.nodup.filter _) }

/-- The links around a query are those of the graph. -/
theorem linkedAsIn_around (g : LinkGraph) (query : String) : (around g query).LinkedAsIn g :=
  linkedAsIn_ofPages (g.nodup_expand _) g

end Neighbourhood

end NaturalLanguage

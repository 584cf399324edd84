import Mathlib.Data.List.Basic
import NaturalLanguage.Links.Score

/-!
# Link graphs with numbered pages

A link graph can also be built row by row, with a number for every page. A name gets the next number
when it is met for the first time, and a hash map knows the numbers of all names. The links of a
page are sets of numbers, one for the pages that it links to and one for those that link to it. They
are filled while more names are numbered.

* `PageTable.intern`: the number of a name, which may be a new one.
* `PageTable.ofRows`: the table of a list of rows, taken row by row.
* `PageTable.inlinks`, `PageTable.outlinks`, `PageTable.expand`: neighbours, found by numbers.
* `PageTable.neighbourhood`, `PageTable.scores`: the pages around a query, with positions from a
  hash map, and their scores.
-/

namespace NaturalLanguage

/-- Pages by number, with their links in both directions. -/
structure PageTable where
  /-- The pages, as first named. -/
  names : Array String
  /-- The number of every page. -/
  ids : Std.HashMap String Nat
  /-- For every page the pages that it links to. -/
  targets : Array (Std.TreeSet Nat)
  /-- For every page the pages that link to it. -/
  sources : Array (Std.TreeSet Nat)

namespace PageTable

/-- The table without pages. -/
def empty : PageTable := ⟨#[], ∅, #[], #[]⟩

/-- The number of a name. A name without a number becomes the next page. -/
def intern (t : PageTable) (name : String) : Nat × PageTable :=
  match t.ids[name]? with
  | some id => (id, t)
  | none => (t.names.size,
      ⟨t.names.push name, t.ids.insert name t.names.size, t.targets.push ∅, t.sources.push ∅⟩)

/-- Link the page `source` to the page `target`. -/
def link (t : PageTable) (source target : Nat) : PageTable :=
  { t with
    targets := t.targets.modify source (·.insert target)
    sources := t.sources.modify target (·.insert source) }

/-- Link the page `source` to a page that is given by its name. -/
def addTarget (source : Nat) (t : PageTable) (name : String) : PageTable :=
  let (target, t) := t.intern name
  t.link source target

/-- Take one more row. -/
def addRow (t : PageTable) (row : String × List String) : PageTable :=
  let (source, t) := t.intern row.1
  row.2.foldl (addTarget source) t

/-- The table of a list of rows. -/
def ofRows (rows : List (String × List String)) : PageTable := rows.foldl addRow empty

/-- Whether a name is a page. -/
def contains (t : PageTable) (page : String) : Bool := t.ids.contains page

/-- The numbers of the pages that a page links to. -/
def targetsOf (t : PageTable) (id : Nat) : Std.TreeSet Nat := t.targets[id]?.getD ∅

/-- The numbers of the pages that link to a page. -/
def sourcesOf (t : PageTable) (id : Nat) : Std.TreeSet Nat := t.sources[id]?.getD ∅

/-- The names of some pages, in the order of their numbers. -/
def namesOf (t : PageTable) (ids : Std.TreeSet Nat) : List String :=
  ids.toList.filterMap (t.names[·]?)

/-- The pages that one of the two kinds of links connects with `page`. -/
def linked (t : PageTable) (page : String) (links : Array (Std.TreeSet Nat)) : List String :=
  match t.ids[page]? with
  | some id => t.namesOf (links[id]?.getD ∅)
  | none => []

/-- The pages that `page` links to. -/
def outlinks (t : PageTable) (page : String) : List String := t.linked page t.targets

/-- The pages that link to `page`. -/
def inlinks (t : PageTable) (page : String) : List String := t.linked page t.sources

/-- The pages that match a query. -/
def relevant (t : PageTable) (query : String) : List String := t.names.toList.filter (· == query)

/-- Add a page and all its neighbours to the pages found so far; other names add nothing. -/
def addNeighbours (t : PageTable) (found : Std.TreeSet String) (page : String) :
    Std.TreeSet String :=
  match t.ids[page]? with
  | some id => ((found.insertMany t.names[id]?.toList).insertMany
      (t.namesOf (t.sourcesOf id))).insertMany (t.namesOf (t.targetsOf id))
  | none => found

/-- The given pages with all their neighbours, by name. -/
def expand (t : PageTable) (given : List String) : List String :=
  (given.foldl t.addNeighbours ∅).toList

/-- The position of every page of a list. -/
def positionOf (pages : List String) : Std.HashMap String (Fin pages.length) :=
  .ofList ((List.finRange pages.length).map fun i => (pages.get i, i))

/-- Some pages with the links between them. -/
def linksBetween (t : PageTable) (pages : List String) : Neighbourhood where
  pages := pages
  sources := Vector.ofFn fun i => (t.inlinks (pages.get i)).filterMap ((positionOf pages)[·]?)
  targets := Vector.ofFn fun i => (t.outlinks (pages.get i)).filterMap ((positionOf pages)[·]?)

/-- The pages that match a query and their neighbours, with the links between them. -/
def neighbourhood (t : PageTable) (query : String) : Neighbourhood :=
  t.linksBetween (t.expand (t.relevant query))

end PageTable

/-- The scores of all pages. -/
def Neighbourhood.listScores {K : Type} [Scalar K] (h : Neighbourhood) (rounds : Nat) :
    List (PageScore K) :=
  let scores := h.scores rounds
  (List.finRange h.pages.length).map fun i => ⟨h.pages.get i, scores.hub.get i, scores.authority.get i⟩

/-- The scores of the pages around a query, by name. -/
def PageTable.scores {K : Type} [Scalar K] (t : PageTable) (query : String) (rounds : Nat) :
    List (PageScore K) :=
  (t.neighbourhood query).listScores rounds

end NaturalLanguage

import NaturalLanguage.Links.Graph

/-!
# Hubs and authorities

A good authority is linked to by good hubs, and a good hub links to good authorities. The scores of
the pages around a query start at one and are refined in rounds: the authority of a page becomes
the sum of the hub scores of the pages that link to it, its hub score the sum of the new
authorities that it links to, and then both kinds of scores are scaled to length one.

The scores are numbers of any `Scalar` type. Only links inside the neighbourhood of the query
count, and sums run over the linked pages as first named.

* `Neighbourhood.around`: the pages around a query with their links.
* `Neighbourhood.round`: one round; `LinkGraph.scores`: all rounds for a query.
-/

namespace NaturalLanguage

/-- Numbers with which scores are computed. -/
class Scalar (K : Type) where
  one : K
  /-- The value with which sums start. -/
  emptySum : K
  add : K → K → K
  mul : K → K → K
  div : K → K → K
  sqrt : K → K
  isPositive : K → Bool

/-- Sums of double precision numbers start at the negative zero, which is neutral. -/
instance : Scalar Float where
  one := 1
  emptySum := -0.0
  add := (· + ·)
  mul := (· * ·)
  div := (· / ·)
  sqrt := Float.sqrt
  isPositive x := 0 < x

namespace Scalar

variable {K : Type} [Scalar K]

/-- The sum of a list, from left to right. -/
def sum (xs : List K) : K := xs.foldl add emptySum

/-- The Euclidean length of a vector. -/
def norm {n : Nat} (v : Vector K n) : K := sqrt (sum (v.toList.map fun x => mul x x))

/-- The vector scaled to length one; a vector of length zero stays as it is. -/
def normalize {n : Nat} (v : Vector K n) : Vector K n :=
  if isPositive (norm v) then v.map (div · (norm v)) else v

end Scalar

/-- Some pages with the links between them, given by positions. -/
structure Neighbourhood where
  pages : List String
  /-- For every page the pages that link to it. -/
  sources : Vector (List (Fin pages.length)) pages.length
  /-- For every page the pages that it links to. -/
  targets : Vector (List (Fin pages.length)) pages.length

/-- The final scores of a page. -/
structure PageScore (K : Type) where
  page : String
  hub : K
  authority : K

namespace Neighbourhood

/-- The positions of names among the pages; other names are left out. -/
def positions (pages names : List String) : List (Fin pages.length) :=
  names.filterMap (pages.finIdxOf? ·)

/-- The pages of a list with the links of a graph between them. -/
def ofPages (g : LinkGraph) (pages : List String) : Neighbourhood where
  pages := pages
  sources := Vector.ofFn fun i => positions pages (g.inlinks pages[i])
  targets := Vector.ofFn fun i => positions pages (g.outlinks pages[i])

/-- The pages that match a query and their neighbours. -/
def around (g : LinkGraph) (query : String) : Neighbourhood :=
  ofPages g (g.expand (g.relevant query))

variable {K : Type} [Scalar K]

/-- Hub and authority scores of all pages. -/
structure Scores (K : Type) (n : Nat) where
  hub : Vector K n
  authority : Vector K n

/-- For every page the sum of the scores of the pages linked with it. -/
def gather {n : Nat} (linked : Vector (List (Fin n)) n) (scores : Vector K n) : Vector K n :=
  linked.map fun is => Scalar.sum (is.map (scores[·]))

/-- One round of refinement. -/
def round (h : Neighbourhood) (scores : Scores K h.pages.length) : Scores K h.pages.length :=
  let authority := gather h.sources scores.hub
  let hub := gather h.targets authority
  ⟨Scalar.normalize hub, Scalar.normalize authority⟩

/-- The scores after a number of rounds. -/
def scores (h : Neighbourhood) (rounds : Nat) : Scores K h.pages.length :=
  Nat.repeat h.round rounds ⟨.replicate _ Scalar.one, .replicate _ Scalar.one⟩

end Neighbourhood

/-- The scores of the pages around a query, by name. -/
def LinkGraph.scores {K : Type} [Scalar K] (g : LinkGraph) (query : String) (rounds : Nat) :
    List (PageScore K) :=
  let h := Neighbourhood.around g query
  let scores := h.scores rounds
  (List.finRange h.pages.length).map fun i => ⟨h.pages[i], scores.hub[i], scores.authority[i]⟩

end NaturalLanguage

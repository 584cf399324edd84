import NaturalLanguage.Links.Interned
import NaturalLanguage.Proofs.Grammar.Building
import NaturalLanguage.Proofs.Links.Neighbourhood
import NaturalLanguage.Proofs.Text.ByteOrder

/-!
# A page table holds exactly what its rows list

While the rows are taken, names and links come in turns: a name may get its number in the middle of
a row, when some links of the row are already in the sets. At every moment the table represents the
pages that were named so far and the links that were given so far.

* `Represents`: pages and links that a table stands for.
* `Represents.intern`, `Represents.link`: what one step of the table does to them.
* `represents_ofRows`: the table of some rows stands for the link graph of these rows.
* `ofRows_exact`: what the table of some rows holds.
-/

namespace NaturalLanguage

namespace PageTable

/-! ### Arrays that grow -/

/-- A name keeps its number when another name is added after the last one. -/
theorem getElem?_push_iff {names : Array String} {name other : String} (hne : name ≠ other)
    {id : ℕ} : (names.push name)[id]? = some other ↔ names[id]? = some other := by
  rw [Array.getElem?_push]
  split
  · next hid => simp [hid, hne]
  · rfl

/-- Names and numbers stay inverse to each other when a new name gets the next number. -/
theorem getElem?_insert_iff_push {names : Array String} {ids : Std.HashMap String Nat}
    {name : String} (hids : ∀ (other : String) (id : ℕ), ids[other]? = some id ↔
      names[id]? = some other) (hnew : ∀ id : ℕ, names[id]? ≠ some name) (other : String) (id : ℕ) :
    (ids.insert name names.size)[other]? = some id ↔ (names.push name)[id]? = some other := by
  rw [Std.HashMap.getElem?_insert]
  by_cases hname : name = other
  · subst hname
    rw [beq_self_eq_true, if_pos rfl, Array.getElem?_push, Option.some_inj]
    by_cases hid : id = names.size
    · rw [if_pos hid, hid]
      simp
    · rw [if_neg hid]
      exact iff_of_false (Ne.symm hid) (hnew id)
  · rw [beq_false_of_ne hname, if_neg Bool.false_ne_true, hids, getElem?_push_iff hname]

section Sets

variable {sets : Array (Std.TreeSet Nat)} {i k m n : ℕ}

/-- A new set is empty, as the sets after the last one were before. -/
theorem getD_push_empty : (sets.push ∅)[i]?.getD ∅ = sets[i]?.getD ∅ := by
  rw [Array.getElem?_push]
  split
  · next hi => simp [hi]
  · rfl

theorem mem_getD_modify_insert (hk : k < sets.size) :
    n ∈ (sets.modify k (·.insert m))[i]?.getD ∅ ↔ n ∈ sets[i]?.getD ∅ ∨ i = k ∧ n = m := by
  rw [Array.getElem?_modify]
  by_cases hi : k = i
  · subst hi
    rw [if_pos rfl, Array.getElem?_eq_getElem hk, Option.map_some, Option.getD_some,
      Option.getD_some, Std.TreeSet.mem_insert, Nat.compare_eq_eq]
    simp only [or_comm, true_and, eq_comm]
  · rw [if_neg hi]
    simp [Ne.symm hi]

end Sets

/-! ### What a table stands for -/

/-- The table has numbered `pages` in this order, and its sets are the two directions of `links`. -/
structure Represents (t : PageTable) (pages : OrderedSet String) (links : List (String × String)) :
    Prop where
  toList_names : t.names.toList = pages.toList
  /-- Numbers and names are inverse to each other. -/
  ids_iff (name : String) (id : ℕ) : t.ids[name]? = some id ↔ t.names[id]? = some name
  size_targets : t.targets.size = t.names.size
  size_sources : t.sources.size = t.names.size
  mem_pages : ∀ link ∈ links, link.1 ∈ pages ∧ link.2 ∈ pages
  mem_targetsOf (i j : ℕ) : j ∈ t.targetsOf i ↔
    ∃ link ∈ links, t.names[i]? = some link.1 ∧ t.names[j]? = some link.2
  mem_sourcesOf (i j : ℕ) : i ∈ t.sourcesOf j ↔
    ∃ link ∈ links, t.names[i]? = some link.1 ∧ t.names[j]? = some link.2

theorem represents_empty : empty.Represents ∅ [] where
  toList_names := rfl
  ids_iff := by simp [empty]
  size_targets := rfl
  size_sources := rfl
  mem_pages := by simp
  mem_targetsOf := by simp [empty, targetsOf]
  mem_sourcesOf := by simp [empty, sourcesOf]

namespace Represents

variable {t : PageTable} {pages : OrderedSet String} {links : List (String × String)}
  {name page target : String} {id i j : ℕ}

/-- Exactly the pages have a number. -/
theorem mem_pages_iff (h : t.Represents pages links) :
    page ∈ pages ↔ ∃ id : ℕ, t.names[id]? = some page := by
  rw [OrderedSet.mem_def, ← h.toList_names, Array.mem_toList_iff, Array.mem_iff_getElem?]

/-- A name without a number is no page. -/
theorem not_mem_of_none (h : t.Represents pages links) (hid : t.ids[name]? = none) :
    ¬ name ∈ pages := by
  intro hpage
  obtain ⟨id, hname⟩ := h.mem_pages_iff.1 hpage
  rw [(h.ids_iff name id).2 hname] at hid
  cases hid

/-- A name that is no page yet becomes a page without links. -/
theorem push (h : t.Represents pages links) (hnew : ¬ name ∈ pages) :
    Represents ⟨t.names.push name, t.ids.insert name t.names.size, t.targets.push ∅,
      t.sources.push ∅⟩ (pages.insert name) links := by
  -- the links so far are between pages, so the new name is at the end of none of them
  have hlinks : ∀ i j : ℕ, (∃ link ∈ links, (t.names.push name)[i]? = some link.1 ∧
      (t.names.push name)[j]? = some link.2) ↔
        ∃ link ∈ links, t.names[i]? = some link.1 ∧ t.names[j]? = some link.2 := by
    refine fun i j => exists_congr fun link => and_congr_right fun hlink => ?_
    obtain ⟨hfirst, hsecond⟩ := h.mem_pages link hlink
    rw [getElem?_push_iff (ne_of_mem_of_not_mem hfirst hnew).symm,
      getElem?_push_iff (ne_of_mem_of_not_mem hsecond hnew).symm]
  exact {
    toList_names := by
      rw [OrderedSet.toList_insert_of_not_mem hnew, ← h.toList_names, Array.toList_push]
    ids_iff := getElem?_insert_iff_push h.ids_iff fun id hid => hnew (h.mem_pages_iff.2 ⟨id, hid⟩)
    size_targets := by simp [h.size_targets]
    size_sources := by simp [h.size_sources]
    mem_pages := fun link hlink => by simp [h.mem_pages link hlink]
    mem_targetsOf := fun i j => by
      rw [hlinks, ← h.mem_targetsOf, targetsOf, getD_push_empty, targetsOf]
    mem_sourcesOf := fun i j => by
      rw [hlinks, ← h.mem_sourcesOf, sourcesOf, getD_push_empty, sourcesOf] }

/-- Taking a name makes it a page, if it is none yet, and finds its number. All pages keep their
numbers. -/
theorem intern (h : t.Represents pages links) (name : String) :
    (t.intern name).2.Represents (pages.insert name) links ∧
      (t.intern name).2.names[(t.intern name).1]? = some name ∧
      ∀ {id : ℕ} {page}, t.names[id]? = some page → (t.intern name).2.names[id]? = some page := by
  cases hid : t.ids[name]? with
  | some id =>
    have hname := (h.ids_iff name id).1 hid
    have hpage : name ∈ pages := h.mem_pages_iff.2 ⟨id, hname⟩
    simp only [PageTable.intern, hid, OrderedSet.insert_of_mem hpage]
    exact ⟨h, hname, fun hpage => hpage⟩
  | none =>
    have hnew := h.not_mem_of_none hid
    simp only [PageTable.intern, hid]
    refine ⟨h.push hnew, Array.getElem?_push_size, fun {id page} hpage => ?_⟩
    have hne := ne_of_mem_of_not_mem (h.mem_pages_iff.2 ⟨id, hpage⟩) hnew
    exact (getElem?_push_iff hne.symm).2 hpage

/-- Different numbers belong to different pages. -/
theorem id_eq (h : t.Represents pages links) (hi : t.names[i]? = some page)
    (hj : t.names[j]? = some page) : i = j := by
  rw [← h.ids_iff] at hi hj
  exact Option.some.inj (hi.symm.trans hj)

/-- Linking two pages adds one link. -/
theorem link (h : t.Represents pages links) (hi : t.names[i]? = some page)
    (hj : t.names[j]? = some target) :
    (t.link i j).Represents pages (links ++ [(page, target)]) := by
  -- a page has one number, so no other sets than those of the two pages may grow
  have hnew : ∀ i' j' : ℕ, (t.names[i']? = some page ∧ t.names[j']? = some target) ↔
      i' = i ∧ j' = j := by
    refine fun i' j' => ⟨fun hboth => ⟨h.id_eq hboth.1 hi, h.id_eq hboth.2 hj⟩, ?_⟩
    rintro ⟨rfl, rfl⟩
    exact ⟨hi, hj⟩
  have hlinks : ∀ i' j' : ℕ, (∃ link ∈ links ++ [(page, target)],
      t.names[i']? = some link.1 ∧ t.names[j']? = some link.2) ↔
        (∃ link ∈ links, t.names[i']? = some link.1 ∧ t.names[j']? = some link.2) ∨
          i' = i ∧ j' = j := by
    intro i' j'
    simp only [List.mem_append, List.mem_singleton, or_and_right, exists_or, exists_eq_left, hnew]
  have hsize : i < t.targets.size ∧ j < t.sources.size := by
    rw [h.size_targets, h.size_sources]
    exact ⟨(Array.getElem?_eq_some_iff.1 hi).1, (Array.getElem?_eq_some_iff.1 hj).1⟩
  exact {
    toList_names := h.toList_names
    ids_iff := h.ids_iff
    size_targets := by simp [PageTable.link, h.size_targets]
    size_sources := by simp [PageTable.link, h.size_sources]
    mem_pages := by
      simp only [List.mem_append, List.mem_singleton]
      rintro link (hlink | rfl)
      · exact h.mem_pages link hlink
      · exact ⟨h.mem_pages_iff.2 ⟨i, hi⟩, h.mem_pages_iff.2 ⟨j, hj⟩⟩
    mem_targetsOf := fun i' j' => by
      refine Iff.trans ?_ (hlinks i' j').symm
      rw [← h.mem_targetsOf]
      exact mem_getD_modify_insert hsize.1
    mem_sourcesOf := fun i' j' => by
      refine Iff.trans ?_ (hlinks i' j').symm
      rw [← h.mem_sourcesOf, and_comm (a := i' = i)]
      exact mem_getD_modify_insert hsize.2 }

/-- One more target of a page. -/
theorem addTarget (h : t.Represents pages links) (hid : t.names[id]? = some page)
    (target : String) :
    (t.addTarget id target).Represents (pages.insert target) (links ++ [(page, target)]) ∧
      (t.addTarget id target).names[id]? = some page := by
  obtain ⟨hpages, htarget, hkeep⟩ := h.intern target
  exact ⟨hpages.link (hkeep hid) htarget, hkeep hid⟩

/-- All targets of a row, one after the other. -/
theorem foldl_addTarget (h : t.Represents pages links) (hid : t.names[id]? = some page)
    (targets : List String) :
    (targets.foldl (PageTable.addTarget id) t).Represents (pages.insertAll targets)
      (links ++ targets.map fun target => (page, target)) := by
  induction targets generalizing t pages links with
  | nil => simpa using h
  | cons target targets ih =>
    obtain ⟨hone, hid⟩ := h.addTarget hid target
    simpa using ih hone hid

theorem addRow (h : t.Represents pages links) (row : String × List String) :
    (t.addRow row).Represents (pages.insertAll (row.1 :: row.2))
      (links ++ row.2.map fun target => (row.1, target)) := by
  obtain ⟨hpages, hid, -⟩ := h.intern row.1
  exact hpages.foldl_addTarget hid row.2

theorem foldl_addRow (h : t.Represents pages links) (rows : List (String × List String)) :
    (rows.foldl PageTable.addRow t).Represents
      (pages.insertAll (rows.flatMap fun row => row.1 :: row.2))
      (links ++ rows.flatMap fun row => row.2.map fun target => (row.1, target)) := by
  induction rows generalizing t pages links with
  | nil => simpa using h
  | cons row rows ih =>
    have hrows := ih (h.addRow row)
    have hpages : (pages.insertAll (row.1 :: row.2)).insertAll
        (rows.flatMap fun row => row.1 :: row.2) =
          pages.insertAll ((row :: rows).flatMap fun row => row.1 :: row.2) :=
      List.foldl_append.symm
    rw [hpages, List.append_assoc] at hrows
    exact hrows

end Represents

/-- The table of some rows stands for their link graph. -/
theorem represents_ofRows (rows : List (String × List String)) :
    (ofRows rows).Represents (LinkGraph.ofRows rows).pages (LinkGraph.ofRows rows).links :=
  represents_empty.foldl_addRow rows

/-! ### Neighbours -/

theorem mem_namesOf {t : PageTable} {ids : Std.TreeSet Nat} {page : String} :
    page ∈ t.namesOf ids ↔ ∃ id ∈ ids, t.names[id]? = some page := by
  simp only [namesOf, List.mem_filterMap, Std.TreeSet.mem_toList]

/-- Pages with their neighbours are listed by name, each once. -/
theorem pairwise_expand (t : PageTable) (given : List String) :
    (t.expand given).Pairwise (· < ·) := by
  have hordered : (t.expand given).Pairwise fun p q => compare p q = .lt :=
    Std.TreeSet.ordered_toList
  exact hordered.imp compareOfLessAndEq_eq_lt.1

/-- The position of a page that is listed once. -/
theorem getElem?_positionOf {pages : List String} (hpages : pages.Nodup) (name : String) :
    (positionOf pages)[name]? = pages.finIdxOf? name := by
  have hkeys : ((List.finRange pages.length).map fun i => (pages.get i, i)).map Prod.fst =
      pages := by
    rw [List.map_map]
    exact List.map_getElem_finRange pages
  cases hposition : pages.finIdxOf? name with
  | none =>
    refine Std.HashMap.getElem?_ofList_of_contains_eq_false ?_
    rw [hkeys, List.contains_eq_mem, decide_eq_false_iff_not]
    exact List.finIdxOf?_eq_none_iff.1 hposition
  | some i =>
    obtain ⟨hname, -⟩ := List.finIdxOf?_eq_some_iff.1 hposition
    refine Std.HashMap.getElem?_ofList_of_mem (beq_iff_eq.2 hname) ?_
      (List.mem_map.2 ⟨i, List.mem_finRange i, rfl⟩)
    rw [← hkeys, List.Nodup, List.pairwise_map] at hpages
    exact hpages.imp beq_false_of_ne

namespace Represents

variable {t : PageTable} {pages : OrderedSet String} {links : List (String × String)}
  {name page : String} {id : ℕ}

/-- A name with a number is a page, and only these are. -/
theorem contains_iff (h : t.Represents pages links) : t.contains page = true ↔ page ∈ pages := by
  rw [h.mem_pages_iff, PageTable.contains, Std.HashMap.contains_eq_isSome_getElem?,
    Option.isSome_iff_exists]
  exact exists_congr fun id => h.ids_iff page id

/-- The pages that some links connect with a page, whichever direction the links have. -/
theorem mem_linked_iff (h : t.Represents pages links) {sets : Array (Std.TreeSet Nat)}
    {R : String → String → Prop} (hR : ∀ p q, R p q → p ∈ pages ∧ q ∈ pages)
    (hsets : ∀ i j : ℕ, j ∈ sets[i]?.getD ∅ ↔
      ∃ p q, R p q ∧ t.names[i]? = some p ∧ t.names[j]? = some q) :
    name ∈ t.linked page sets ↔ R page name := by
  unfold linked
  cases hid : t.ids[page]? with
  | some id =>
    have hpage := (h.ids_iff page id).1 hid
    simp only [mem_namesOf, hsets, hpage, Option.some_inj]
    constructor
    · rintro ⟨j, ⟨_, q, hlink, rfl, hq⟩, hj⟩
      rwa [Option.some_inj.1 (hj.symm.trans hq)]
    · intro hlink
      obtain ⟨j, hj⟩ := h.mem_pages_iff.1 (hR _ _ hlink).2
      exact ⟨j, ⟨page, name, hlink, rfl, hj⟩, hj⟩
  | none =>
    exact iff_of_false List.not_mem_nil fun hlink => h.not_mem_of_none hid (hR _ _ hlink).1

variable {g : LinkGraph} (h : t.Represents g.pages g.links)

include h

theorem pairwise_namesOf (ids : Std.TreeSet Nat) : (t.namesOf ids).Pairwise g.NamedBefore := by
  refine List.Pairwise.filterMap _ ?_ Std.TreeSet.ordered_toList
  intro i j hij p hp q hq
  -- the number of a page is its place among the pages
  have hplace : ∀ {i : ℕ} {p}, t.names[i]? = some p → g.pages.toList.idxOf p = i := by
    intro i p hp
    rw [← Array.getElem?_toList, h.toList_names] at hp
    obtain ⟨hi, rfl⟩ := List.getElem?_eq_some_iff.1 hp
    exact g.pages.nodup.idxOf_getElem i hi
  rw [LinkGraph.NamedBefore, hplace hp, hplace hq]
  exact Nat.compare_eq_lt.1 hij

theorem pairwise_linked (page : String) (sets : Array (Std.TreeSet Nat)) :
    (t.linked page sets).Pairwise g.NamedBefore := by
  unfold linked
  split
  · exact h.pairwise_namesOf _
  · exact .nil

theorem mem_outlinks_iff : name ∈ t.outlinks page ↔ g.linksTo page name = true := by
  refine h.mem_linked_iff (R := fun p q => g.linksTo p q = true) ?_ fun i j => ?_
  · exact fun p q => g.mem_pages_of_linksTo
  · exact (h.mem_targetsOf i j).trans (by simp [LinkGraph.linksTo])

/-- In the other direction the links are those of the graph with their ends exchanged. -/
theorem mem_inlinks_iff : name ∈ t.inlinks page ↔ g.linksTo name page = true := by
  refine h.mem_linked_iff (R := fun p q => g.linksTo q p = true) ?_ fun i j => ?_
  · exact fun p q hlink => (g.mem_pages_of_linksTo hlink).symm
  · rw [exists_comm]
    refine (h.mem_sourcesOf j i).trans ?_
    simp [LinkGraph.linksTo, and_comm]

theorem outlinks_eq (page : String) : t.outlinks page = g.outlinks page :=
  (h.pairwise_linked page _).eq_of_mem_iff (g.pairwise_outlinks page) fun _ =>
    h.mem_outlinks_iff.trans LinkGraph.mem_outlinks_iff.symm

theorem inlinks_eq (page : String) : t.inlinks page = g.inlinks page :=
  (h.pairwise_linked page _).eq_of_mem_iff (g.pairwise_inlinks page) fun _ =>
    h.mem_inlinks_iff.trans LinkGraph.mem_inlinks_iff.symm

theorem relevant_eq (query : String) : t.relevant query = g.relevant query := by
  rw [PageTable.relevant, h.toList_names, LinkGraph.relevant]

/-- A query matches at most one page, as pages are listed once. -/
theorem relevant_eq_ite (query : String) :
    t.relevant query = if t.contains query then [query] else [] := by
  rw [h.relevant_eq, LinkGraph.relevant, List.filter_beq, g.pages.nodup.count]
  by_cases hquery : query ∈ g.pages.toList
  · rw [if_pos hquery, if_pos (h.contains_iff.2 hquery)]
    rfl
  · rw [if_neg hquery, if_neg (hquery ∘ h.contains_iff.1)]
    rfl

/-- A page brings itself and its neighbours, and a name that is no page brings nothing. -/
theorem mem_addNeighbours_iff {found : Std.TreeSet String} :
    name ∈ t.addNeighbours found page ↔ name ∈ found ∨ page ∈ g.pages ∧
      (name = page ∨ g.linksTo name page = true ∨ g.linksTo page name = true) := by
  unfold addNeighbours
  cases hid : t.ids[page]? with
  | some id =>
    have hname := (h.ids_iff page id).1 hid
    have hpage : page ∈ g.pages := h.mem_pages_iff.2 ⟨id, hname⟩
    have hin : t.namesOf (t.sourcesOf id) = t.inlinks page := by
      rw [inlinks, linked, hid]
      rfl
    have hout : t.namesOf (t.targetsOf id) = t.outlinks page := by
      rw [outlinks, linked, hid]
      rfl
    simp only [hin, hout, hname, Std.TreeSet.mem_insertMany_list, List.contains_iff_mem,
      Option.toList_some, List.mem_singleton, h.mem_inlinks_iff, h.mem_outlinks_iff, hpage,
      true_and, or_assoc]
  | none =>
    simp only [h.not_mem_of_none hid, false_and, or_false]

theorem mem_foldl_addNeighbours_iff {found : Std.TreeSet String} {given : List String} :
    name ∈ given.foldl t.addNeighbours found ↔ name ∈ found ∨ ∃ page ∈ given, page ∈ g.pages ∧
      (name = page ∨ g.linksTo name page = true ∨ g.linksTo page name = true) := by
  induction given generalizing found with
  | nil => simp
  | cons page given ih =>
    simp only [List.foldl_cons, ih, h.mem_addNeighbours_iff, List.mem_cons, or_and_right, exists_or,
      exists_eq_left, or_assoc]

theorem mem_expand_iff {given : List String} :
    name ∈ t.expand given ↔ ∃ page ∈ given, page ∈ g.pages ∧
      (name = page ∨ g.linksTo name page = true ∨ g.linksTo page name = true) := by
  rw [PageTable.expand, Std.TreeSet.mem_toList, h.mem_foldl_addNeighbours_iff]
  simp

/-- Neighbours of pages are pages, so it does not matter whether the given names or the names that
are found have to be pages. -/
theorem expand_eq (given : List String) : t.expand given = g.expand given := by
  have hle := g.pairwise_expand given
  have hlt : (g.expand given).Pairwise (· < ·) :=
    hle.imp₂ (fun _ _ => lt_of_le_of_ne) (g.nodup_expand given)
  refine (pairwise_expand t given).eq_of_mem_iff hlt fun name => ?_
  rw [h.mem_expand_iff, LinkGraph.mem_expand_iff]
  constructor
  · rintro ⟨page, hgiven, hpage, hnear⟩
    refine ⟨?_, page, hgiven, hnear⟩
    obtain rfl | hin | hout := hnear
    · exact hpage
    · exact (g.mem_pages_of_linksTo hin).1
    · exact (g.mem_pages_of_linksTo hout).2
  · rintro ⟨hname, page, hgiven, hnear⟩
    refine ⟨page, hgiven, ?_, hnear⟩
    obtain rfl | hin | hout := hnear
    · exact hname
    · exact (g.mem_pages_of_linksTo hin).2
    · exact (g.mem_pages_of_linksTo hout).1

theorem linksBetween_eq {given : List String} (hgiven : given.Nodup) :
    t.linksBetween given = Neighbourhood.ofPages g given := by
  have hpositions : ∀ names, names.filterMap ((positionOf given)[·]?) =
      Neighbourhood.positions given names :=
    fun names => List.filterMap_congr fun name _ => getElem?_positionOf hgiven name
  simp only [linksBetween, hpositions, h.inlinks_eq, h.outlinks_eq]
  rfl

theorem neighbourhood_eq (query : String) :
    t.neighbourhood query = Neighbourhood.around g query := by
  rw [neighbourhood, h.relevant_eq, h.expand_eq, h.linksBetween_eq (g.nodup_expand _)]
  rfl

theorem scores_eq {K : Type} [Scalar K] (query : String) (rounds : ℕ) :
    (t.scores query rounds : List (PageScore K)) = g.scores query rounds := by
  rw [PageTable.scores, h.neighbourhood_eq]
  rfl

end Represents

/-! ### The whole table -/

/-- The table has exactly what the rows list. -/
structure Exact (t : PageTable) (rows : List (String × List String)) : Prop where
  /-- The pages are numbered in the order in which they are first named. -/
  toList_names : t.names.toList = (rows.flatMap fun row => row.1 :: row.2).eraseDups
  nodup_names : t.names.toList.Nodup
  /-- Numbers and names are inverse to each other. -/
  ids_iff (name : String) (id : ℕ) : t.ids[name]? = some id ↔ t.names[id]? = some name
  contains_iff (name : String) :
    t.contains name = true ↔ ∃ row ∈ rows, name = row.1 ∨ name ∈ row.2
  /-- Every page has its sets of links. -/
  size_eq : t.targets.size = t.names.size ∧ t.sources.size = t.names.size
  /-- Links are between numbers of pages. -/
  lt_size (i j : ℕ) : j ∈ t.targetsOf i → i < t.names.size ∧ j < t.names.size
  /-- The sets of links in both directions are converse to each other. -/
  mem_sourcesOf_iff (i j : ℕ) : i ∈ t.sourcesOf j ↔ j ∈ t.targetsOf i
  mem_outlinks_iff (source target : String) :
    target ∈ t.outlinks source ↔ ∃ row ∈ rows, row.1 = source ∧ target ∈ row.2
  mem_inlinks_iff (source target : String) :
    source ∈ t.inlinks target ↔ ∃ row ∈ rows, row.1 = source ∧ target ∈ row.2
  /-- Linked pages are listed in the order in which they are first named, each once. -/
  linked_sublist (page : String) : (t.outlinks page).Sublist t.names.toList ∧
    (t.inlinks page).Sublist t.names.toList
  nodup_linked (page : String) : (t.outlinks page).Nodup ∧ (t.inlinks page).Nodup
  relevant_eq (query : String) : t.relevant query = if t.contains query then [query] else []
  /-- Pages with their neighbours are listed by the bytes of their names, each once. -/
  pairwise_expand (given : List String) :
    (t.expand given).Pairwise fun p q => Text.bytes p < Text.bytes q
  mem_expand_iff (given : List String) (name : String) : name ∈ t.expand given ↔
    ∃ page ∈ given, t.contains page = true ∧
      (name = page ∨ name ∈ t.inlinks page ∨ name ∈ t.outlinks page)

/-- The table and the graph have the same pages and links, and say the same of all names. -/
structure Agrees (t : PageTable) (g : LinkGraph) : Prop where
  toList_names : t.names.toList = g.pages.toList
  size_eq : t.names.size = g.size
  contains_eq (name : String) : t.contains name = g.contains name
  outlinks_eq (page : String) : t.outlinks page = g.outlinks page
  inlinks_eq (page : String) : t.inlinks page = g.inlinks page
  relevant_eq (query : String) : t.relevant query = g.relevant query
  expand_eq (given : List String) : t.expand given = g.expand given
  scores_eq {K : Type} [Scalar K] (query : String) (rounds : ℕ) :
    (t.scores query rounds : List (PageScore K)) = g.scores query rounds

theorem Represents.agrees {t : PageTable} {g : LinkGraph} (h : t.Represents g.pages g.links) :
    t.Agrees g where
  toList_names := h.toList_names
  size_eq := by rw [LinkGraph.size, OrderedSet.size, ← h.toList_names, Array.length_toList]
  contains_eq name := by
    rw [Bool.eq_iff_iff, h.contains_iff, LinkGraph.contains, decide_eq_true_iff]
  outlinks_eq := h.outlinks_eq
  inlinks_eq := h.inlinks_eq
  relevant_eq := h.relevant_eq
  expand_eq := h.expand_eq
  scores_eq := h.scores_eq

/-- The table of some rows has exactly what the rows list, whichever pages, links and names they
repeat, and it agrees with the link graph of the rows. -/
theorem ofRows_exact (rows : List (String × List String)) :
    (ofRows rows).Exact rows ∧ (ofRows rows).Agrees (LinkGraph.ofRows rows) := by
  have h := represents_ofRows rows
  have hlinks : ∀ source target, (LinkGraph.ofRows rows).linksTo source target = true ↔
      ∃ row ∈ rows, row.1 = source ∧ target ∈ row.2 := fun _ _ => LinkGraph.linksTo_ofRows
  refine ⟨?_, h.agrees⟩
  exact {
    toList_names := h.toList_names.trans (OrderedSet.toList_ofList _)
    nodup_names := by
      rw [h.toList_names]
      exact (LinkGraph.ofRows rows).pages.nodup
    ids_iff := h.ids_iff
    contains_iff := fun name => by rw [h.contains_iff, LinkGraph.mem_pages_ofRows]
    size_eq := ⟨h.size_targets, h.size_sources⟩
    lt_size := fun i j hj => by
      obtain ⟨link, -, hi, hj⟩ := (h.mem_targetsOf i j).1 hj
      exact ⟨(Array.getElem?_eq_some_iff.1 hi).1, (Array.getElem?_eq_some_iff.1 hj).1⟩
    mem_sourcesOf_iff := fun i j => by rw [h.mem_sourcesOf, h.mem_targetsOf]
    mem_outlinks_iff := fun source target => by rw [h.mem_outlinks_iff, hlinks]
    mem_inlinks_iff := fun source target => by rw [h.mem_inlinks_iff, hlinks]
    linked_sublist := fun page => by
      rw [h.outlinks_eq, h.inlinks_eq, h.toList_names]
      exact ⟨List.filter_sublist, List.filter_sublist⟩
    nodup_linked := fun page => ⟨(h.pairwise_linked page _).nodup, (h.pairwise_linked page _).nodup⟩
    relevant_eq := h.relevant_eq_ite
    pairwise_expand := fun given => (pairwise_expand _ given).imp Text.bytes_lt
    mem_expand_iff := fun given name => by
      simp only [h.mem_expand_iff, h.contains_iff, h.mem_inlinks_iff, h.mem_outlinks_iff] }

end PageTable

end NaturalLanguage

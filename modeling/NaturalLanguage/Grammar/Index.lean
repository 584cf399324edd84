import Mathlib.Data.List.Basic
import NaturalLanguage.Grammar.Basic

/-!
# Indexes of a grammar

Names are looked up in hash maps: for every head and every part of speech the position of its row,
and for every word its parts of speech. The indexes are derived from the rows once, when the
grammar is complete.

* `Table.index`, `Table.getAt`: positions of rows by name, and reading a row at its position.
* `Grammar.wordIndex`: parts of speech by word.
* `Table.getElem?_index`, `Table.getAt_eq`, `Grammar.getD_wordIndex`: reading through an index finds
  what searching the rows finds.
-/

namespace NaturalLanguage

namespace Table

variable {α : Type}

/-- The names of the rows with their positions. -/
def positions (t : Table α) : List (String × Nat) :=
  t.rows.zipIdx.map fun row => (row.1.1, row.2)

/-- The position of the row of every name. -/
def index (t : Table α) : Std.HashMap String Nat := .ofList t.positions

/-- The values of a name, read in the row to which the index points. -/
def getAt (t : Table α) (key : String) : List α :=
  match t.index[key]? with
  | some position => t.rows[position]?.elim [] (·.2.toList)
  | none => []

theorem mem_positions {t : Table α} {key : String} {position : Nat} :
    (key, position) ∈ t.positions ↔ t.rows[position]?.map Prod.fst = some key := by
  simp only [positions, List.mem_map, Prod.mk.injEq, Option.map_eq_some_iff]
  constructor
  · rintro ⟨⟨row, _⟩, hmem, rfl, rfl⟩
    exact ⟨row, List.mk_mem_zipIdx_iff_getElem?.1 hmem, rfl⟩
  · rintro ⟨row, hrow, rfl⟩
    exact ⟨(row, position), List.mk_mem_zipIdx_iff_getElem?.2 hrow, rfl, rfl⟩

theorem map_fst_positions (t : Table α) : t.positions.map Prod.fst = t.rows.map Prod.fst := by
  conv_rhs => rw [← List.zipIdx_map_fst 0 t.rows]
  rw [positions, List.map_map, List.map_map]
  rfl

/-- The index points at the row with the name that is looked up, and at no other. -/
theorem getElem?_index (t : Table α) (key : String) (position : Nat) :
    t.index[key]? = some position ↔ t.rows[position]?.map Prod.fst = some key := by
  have hdistinct : t.positions.Pairwise fun a b => (a.1 == b.1) = false := by
    have hkeys := t.nodup_keys
    rw [← map_fst_positions, List.Nodup, List.pairwise_map] at hkeys
    exact hkeys.imp fun hne => beq_eq_false_iff_ne.2 hne
  have hpoints : ∀ position, (key, position) ∈ t.positions → t.index[key]? = some position :=
    fun position hmem =>
      Std.HashMap.getElem?_ofList_of_mem (beq_self_eq_true key) hdistinct hmem
  rw [← mem_positions]
  constructor
  · intro h
    by_contra hnone
    by_cases hkey : key ∈ t.positions.map Prod.fst
    · -- the name has a row, at another position
      obtain ⟨⟨_, other⟩, hmem, rfl⟩ := List.mem_map.1 hkey
      obtain rfl : other = position := Option.some.inj ((hpoints other hmem).symm.trans h)
      exact hnone hmem
    · have habsent : (t.positions.map Prod.fst).contains key = false := by simpa using hkey
      rw [index, Std.HashMap.getElem?_ofList_of_contains_eq_false habsent] at h
      cases h
  · exact hpoints position

/-- Reading a row at its position finds the values of its name. -/
theorem getAt_eq (t : Table α) (key : String) : t.getAt key = (t.get key).toList := by
  cases hindex : t.index[key]? with
  | some position =>
    obtain ⟨⟨_, values⟩, hrow, rfl⟩ := Option.map_eq_some_iff.1 ((getElem?_index _ _ _).1 hindex)
    have hlookup := lookup_eq_some_iff.2 (List.mem_of_getElem? hrow)
    simp only [getAt, hindex, hrow, Option.elim_some, get, hlookup, Option.getD_some]
  | none =>
    have hlookup : t.rows.lookup key = none := by
      cases hvalues : t.rows.lookup key with
      | none => rfl
      | some values =>
        obtain ⟨position, hrow⟩ := List.mem_iff_getElem?.1 (lookup_eq_some_iff.1 hvalues)
        rw [(getElem?_index _ _ position).2 (by rw [hrow, Option.map_some])] at hindex
        cases hindex
    simp only [getAt, hindex, get, hlookup, Option.getD_none, OrderedSet.toList_empty]

end Table

namespace Grammar

/-- Note a part of speech for a word, after those that were noted before. -/
def noteCategory (category : Symbol) (index : Std.HashMap Word (List Symbol)) (word : Word) :
    Std.HashMap Word (List Symbol) :=
  index.insert word (index.getD word [] ++ [category])

/-- The parts of speech of every word, noted row by row. -/
def wordIndex (g : Grammar) : Std.HashMap Word (List Symbol) :=
  g.lexicon.rows.foldl (fun index row => row.2.toList.foldl (noteCategory row.1) index) ∅

/-- Noting a part of speech for the words that it lists. -/
theorem getD_foldl_noteCategory (category : Symbol) (word : Word) {listed : List Word}
    (hlisted : listed.Nodup) (index : Std.HashMap Word (List Symbol)) :
    (listed.foldl (noteCategory category) index).getD word [] =
      index.getD word [] ++ if word ∈ listed then [category] else [] := by
  induction listed generalizing index with
  | nil => simp
  | cons first rest ih =>
    obtain ⟨hfirst, hrest⟩ := List.nodup_cons.1 hlisted
    rw [List.foldl_cons, ih hrest, noteCategory, Std.HashMap.getD_insert]
    by_cases hword : first = word
    · subst hword
      simp [hfirst]
    · simp [hword, Ne.symm hword]

/-- The index knows the parts of speech of every word, in the order of the lexicon. -/
theorem getD_wordIndex (g : Grammar) (word : Word) :
    g.wordIndex.getD word [] = g.categories word := by
  have hrows : ∀ (rows : List (Symbol × OrderedSet Word)) (index : Std.HashMap Word (List Symbol)),
      (rows.foldl (fun index row => row.2.toList.foldl (noteCategory row.1) index) index).getD
        word [] = index.getD word [] ++ (rows.filter (word ∈ ·.2)).map Prod.fst := by
    intro rows
    induction rows with
    | nil => simp
    | cons row rows ih =>
      intro index
      rw [List.foldl_cons, ih, getD_foldl_noteCategory row.1 word row.2.nodup, List.filter_cons]
      by_cases hword : word ∈ row.2
      · simp [hword, OrderedSet.mem_def.1 hword]
      · have hlisted : word ∉ row.2.toList := hword
        simp [hword, hlisted]
  rw [wordIndex, hrows, categories]
  simp

end Grammar

end NaturalLanguage

import NaturalLanguage.Proofs.Sampling.Heights
import NaturalLanguage.Sampling.Passes

/-!
# Passes over the rules find all heights

The table of the passes only lists heights of expansions, though not of lowest ones at first. A
height that is lowest stays, since nothing lower can be found, and every pass lists the lowest
expansions that are one higher than those listed before. So some pass changes nothing, at the latest
the one after as many passes as there are heads, and the table lists the lowest expansions then.

What words there are does not matter for heights, so the expansions are those of the grammar without
its lexicon.

* `improve_cases`: what may happen when one head is improved.
* `Attained`, `ListsUpTo`: all listed heights are those of expansions, and those of lowest ones up
  to a bound are listed.
* `Attained.pass`, `ListsUpTo.pass`: what a pass keeps, and what it adds.
* `exists_settleWithin`: the passes come to an end, with the heights that the rounds find.
-/

namespace NaturalLanguage.Grammar

variable {g : Grammar} {heights : Heights} {found : Heights × Bool}
  {row : Symbol × OrderedSet (List Symbol)} {sym : Symbol} {body : List Symbol} {height : Nat}
  {t : Tree}

/-! ### One head -/

/-- Improving a head changes nothing if a height as low as those of all alternatives is listed;
otherwise the least of these is listed. -/
theorem improve_cases (g : Grammar) (found : Heights × Bool)
    (row : Symbol × OrderedSet (List Symbol)) :
    (g.improve found row = found ∧
      ∀ body ∈ row.2.toList, ∀ height, g.bodyHeight found.1 body = some height →
        ∃ old ≤ height, found.1.lookup row.1 = some old) ∨
    ∃ height, (∃ body ∈ row.2.toList, g.bodyHeight found.1 body = some height) ∧
      (∀ body ∈ row.2.toList, ∀ other, g.bodyHeight found.1 body = some other → height ≤ other) ∧
      (∀ old, found.1.lookup row.1 = some old → height < old) ∧
      (g.improve found row).2 = true ∧
      (g.improve found row).1.lookup row.1 = some height ∧
      ∀ sym, sym ≠ row.1 → (g.improve found row).1.lookup sym = found.1.lookup sym := by
  unfold improve
  split
  · next hnone =>
    refine .inl ⟨rfl, ?_⟩
    intro body hbody height hheight
    have hmem : height ∈ row.2.toList.filterMap (g.bodyHeight found.1) :=
      List.mem_filterMap.2 ⟨body, hbody, hheight⟩
    rw [List.min?_eq_none_iff.1 hnone] at hmem
    cases hmem
  · next height hsome =>
    obtain ⟨hmem, hleast⟩ := List.min?_eq_some_iff.1 hsome
    have hle : ∀ body ∈ row.2.toList, ∀ other, g.bodyHeight found.1 body = some other →
        height ≤ other := fun body hbody other hother =>
      hleast other (List.mem_filterMap.2 ⟨body, hbody, hother⟩)
    split
    · next hlower =>
      refine .inr ⟨height, List.mem_filterMap.1 hmem, hle, ?_, rfl, List.lookup_cons_self, ?_⟩
      · intro old hold
        simpa [hold] using hlower
      · intro sym hsym
        rw [List.lookup_cons, beq_false_of_ne hsym]
        exact lookup_filter_ne hsym
    · next hlower =>
      refine .inl ⟨rfl, ?_⟩
      intro body hbody other hother
      cases hold : found.1.lookup row.1 with
      | none => simp [hold] at hlower
      | some old =>
        have hold' : old ≤ height := by simpa [hold] using hlower
        exact ⟨old, Nat.le_trans hold' (hle body hbody other hother), rfl⟩

/-- A listed height may only be lowered. -/
theorem exists_lookup_improve (row : Symbol × OrderedSet (List Symbol))
    (h : found.1.lookup sym = some height) :
    ∃ lower ≤ height, (g.improve found row).1.lookup sym = some lower := by
  rcases g.improve_cases found row with ⟨hsame, -⟩ | ⟨lower, -, -, hlower, -, hlookup, hother⟩
  · rw [hsame]
    exact ⟨height, Nat.le_refl _, h⟩
  · by_cases hsym : sym = row.1
    · subst hsym
      exact ⟨lower, Nat.le_of_lt (hlower height h), hlookup⟩
    · rw [hother sym hsym]
      exact ⟨height, Nat.le_refl _, h⟩

theorem toList_of_mem_rows (hrow : row ∈ g.rules.rows) :
    row.2.toList = g.alternativesOf row.1 := by
  have hlookup : g.rules.rows.lookup row.1 = some row.2 := Table.lookup_eq_some_iff.2 hrow
  rw [alternativesOf, Table.get, hlookup, Option.getD_some]

/-! ### What the table lists -/

/-- Every listed height is that of an expansion. -/
def Attained (g : Grammar) (heights : Heights) : Prop :=
  ∀ sym height, heights.lookup sym = some height →
    g.isNonterminal sym = true ∧ ∃ t, g.Expansion t ∧ t.label = sym ∧ t.height = height

/-- The heights of the lowest expansions up to a bound are listed. -/
def ListsUpTo (g : Grammar) (heights : Heights) (bound : Nat) : Prop :=
  ∀ t, g.Lowest t → g.isNonterminal t.label = true → t.height ≤ bound →
    heights.lookup t.label = some t.height

theorem attained_nil : g.Attained [] := nofun

theorem listsUpTo_zero : g.ListsUpTo heights 0 := by
  intro t ht hrules hle
  exact absurd (ht.expansion.height_pos hrules) (Nat.not_lt_of_le hle)

/-- No lowest expansion is listed with a lesser height. -/
theorem Attained.height_le (h : g.Attained heights) (ht : g.Lowest t)
    (hlookup : heights.lookup t.label = some height) : t.height ≤ height := by
  obtain ⟨-, u, hu, hlabel, rfl⟩ := h _ _ hlookup
  exact ht.height_le hu hlabel

/-- If all lowest expansions are listed, exactly their heights are. -/
theorem Attained.lookup_iff (h : g.Attained heights) (hlists : ∀ bound, g.ListsUpTo heights bound) :
    heights.lookup sym = some height ↔
      g.isNonterminal sym = true ∧ ∃ t, g.Lowest t ∧ t.label = sym ∧ t.height = height := by
  constructor
  · intro hlookup
    obtain ⟨hrules, t, ht, rfl, -⟩ := h _ _ hlookup
    obtain ⟨u, hu, hlabel, -⟩ := ht.exists_lowest
    rw [← hlabel] at hlookup hrules ⊢
    have hlisted := hlists u.height u hu hrules (Nat.le_refl _)
    exact ⟨hrules, u, hu, rfl, Option.some.inj (hlisted.symm.trans hlookup)⟩
  · rintro ⟨hrules, t, ht, rfl, rfl⟩
    exact hlists t.height t ht hrules (Nat.le_refl _)

/-- No lowest expansion is higher than there are heads. -/
theorem ListsUpTo.of_length_le {bound : Nat} (h : g.ListsUpTo heights bound)
    (hbound : g.nonterminals.length ≤ bound) (other : Nat) : g.ListsUpTo heights other :=
  fun t ht hrules _ => h t ht hrules (Nat.le_trans ht.height_le_length hbound)

/-- If nothing is marked as changed, improving some heads has left the table as it was. -/
theorem foldl_improve_eq_of_snd {rows : List (Symbol × OrderedSet (List Symbol))}
    (h : (rows.foldl g.improve found).2 = false) : rows.foldl g.improve found = found := by
  induction rows generalizing found with
  | nil => rfl
  | cons row rows ih =>
    rw [List.foldl_cons] at h ⊢
    have hrest := ih h
    rw [hrest] at h ⊢
    rcases g.improve_cases found row with ⟨hsame, -⟩ | ⟨_, -, -, -, hchanged, -⟩
    · exact hsame
    · rw [hchanged] at h
      cases h

section Stocked

variable (hstocked : ∀ sym, g.Stocked sym)

include hstocked

/-- The height of a body is that of a node over expansions. -/
theorem Attained.exists_children (h : g.Attained heights)
    (hheight : g.bodyHeight heights body = some height) (head : Symbol) :
    ∃ children, children.map Tree.label = body ∧ (∀ t ∈ children, g.Expansion t) ∧
      (Tree.node head children).height = height := by
  have hparts : ∀ part ∈ body, ∃ t, (g.Expansion t ∧ g.Knows heights t) ∧ t.label = part := by
    intro part hpart
    by_cases hrules : g.isNonterminal part = true
    · obtain ⟨listed, hlisted⟩ := exists_lookup_of_foldlM_raise hheight hpart hrules
      obtain ⟨-, t, ht, rfl, rfl⟩ := h part listed hlisted
      exact ⟨t, ⟨ht, ht.knows fun _ => hlisted⟩, rfl⟩
    · obtain ⟨word, hleaf⟩ := (hstocked part).exists_leaf (Bool.eq_false_iff.2 hrules)
      exact ⟨.leaf part word,
        ⟨hleaf.expansion, hleaf.expansion.knows fun hrules' => absurd hrules' hrules⟩, rfl⟩
  obtain ⟨children, rfl, hchildren⟩ := Tree.exists_forest hparts
  rw [bodyHeight_eq head fun t ht => (hchildren t ht).2, Option.some.injEq] at hheight
  exact ⟨children, rfl, fun t ht => (hchildren t ht).1, hheight⟩

/-- The height of an alternative is that of an expansion of its head. -/
theorem Attained.exists_expansion (h : g.Attained heights) (hrow : row ∈ g.rules.rows)
    (hbody : body ∈ row.2.toList) (hheight : g.bodyHeight heights body = some height) :
    ∃ t, g.Expansion t ∧ t.label = row.1 ∧ t.height = height := by
  rw [toList_of_mem_rows hrow] at hbody
  obtain ⟨children, rfl, hchildren, hnode⟩ := h.exists_children hstocked hheight row.1
  exact ⟨.node row.1 children, .node hbody hchildren, rfl, hnode⟩

/-- Improving a head keeps all listed heights those of expansions. -/
theorem Attained.improve (h : g.Attained found.1) (hrow : row ∈ g.rules.rows) :
    g.Attained (g.improve found row).1 := by
  rcases g.improve_cases found row with
    ⟨hsame, -⟩ | ⟨lower, ⟨body, hbody, hheight⟩, -, -, -, hlookup, hother⟩
  · rwa [hsame]
  · intro sym height hlisted
    by_cases hsym : sym = row.1
    · subst hsym
      obtain rfl : lower = height := Option.some.inj (hlookup.symm.trans hlisted)
      refine ⟨?_, h.exists_expansion hstocked hrow hbody hheight⟩
      rw [toList_of_mem_rows hrow] at hbody
      exact isNonterminal_of_mem_alternativesOf hbody
    · rw [hother sym hsym] at hlisted
      exact h sym height hlisted

/-- The height of a lowest expansion stays listed. -/
theorem lookup_improve_of_lowest (h : g.Attained found.1) (hrow : row ∈ g.rules.rows)
    (ht : g.Lowest t) (hlookup : found.1.lookup t.label = some t.height) :
    (g.improve found row).1.lookup t.label = some t.height := by
  obtain ⟨lower, hle, hlower⟩ := exists_lookup_improve (g := g) row hlookup
  have hge := (h.improve hstocked hrow).height_le ht hlower
  rw [hlower, Nat.le_antisymm hle hge]

/-- If the lowest expansions up to a bound are listed, improving a head lists its lowest expansion
if that is at most one higher. -/
theorem ListsUpTo.lookup_improve {bound : Nat} (hlists : g.ListsUpTo found.1 bound)
    (h : g.Attained found.1) (hrow : row ∈ g.rules.rows) (ht : g.Lowest t)
    (hlabel : t.label = row.1) (hrules : g.isNonterminal t.label = true)
    (hle : t.height ≤ bound + 1) : (g.improve found row).1.lookup t.label = some t.height := by
  obtain ⟨children, -, hheight, hbody, hchildren⟩ := ht.exists_children hrules
  have hall : Tree.heightAll children ≤ bound := by
    rw [← hheight] at hle
    exact Nat.le_of_succ_le_succ hle
  -- the parts of the lowest expansion are listed, so its body has its height
  have hknows : ∀ u ∈ children, g.Knows found.1 u := fun u hu =>
    (hchildren u hu).expansion.knows fun hrules' =>
      hlists u (hchildren u hu) hrules' (Nat.le_trans (Tree.height_le_heightAll hu) hall)
  have hbodyheight : g.bodyHeight found.1 (children.map Tree.label) = some t.height := by
    rw [bodyHeight_eq t.label hknows, hheight]
  rw [hlabel, ← toList_of_mem_rows hrow] at hbody
  have himproved := h.improve hstocked hrow
  rcases g.improve_cases found row with
    ⟨hsame, hlisted⟩ | ⟨lower, -, hleast, -, -, hlookup, -⟩
  · obtain ⟨old, hold, hlookup⟩ := hlisted _ hbody _ hbodyheight
    rw [← hlabel] at hlookup
    rw [hsame, hlookup, Nat.le_antisymm hold (h.height_le ht hlookup)]
  · have hlower := hleast _ hbody _ hbodyheight
    rw [← hlabel] at hlookup
    rw [hlookup, Nat.le_antisymm hlower (himproved.height_le ht hlookup)]

/-! ### One pass -/

theorem Attained.foldl_improve {rows : List (Symbol × OrderedSet (List Symbol))}
    (h : g.Attained found.1) (hrows : rows ⊆ g.rules.rows) :
    g.Attained (rows.foldl g.improve found).1 := by
  induction rows generalizing found with
  | nil => exact h
  | cons row rows ih =>
    obtain ⟨hrow, hrows⟩ := List.cons_subset.1 hrows
    exact ih (h.improve hstocked hrow) hrows

theorem lookup_foldl_improve_of_lowest {rows : List (Symbol × OrderedSet (List Symbol))}
    (h : g.Attained found.1) (hrows : rows ⊆ g.rules.rows) (ht : g.Lowest t)
    (hlookup : found.1.lookup t.label = some t.height) :
    (rows.foldl g.improve found).1.lookup t.label = some t.height := by
  induction rows generalizing found with
  | nil => exact hlookup
  | cons row rows ih =>
    obtain ⟨hrow, hrows⟩ := List.cons_subset.1 hrows
    exact ih (h.improve hstocked hrow) hrows (lookup_improve_of_lowest hstocked h hrow ht hlookup)

/-- A pass keeps all listed heights those of expansions. -/
theorem Attained.pass (h : g.Attained heights) : g.Attained (g.pass heights).1 :=
  Attained.foldl_improve hstocked h (List.Subset.refl _)

/-- A pass lists the lowest expansions that are one higher than those listed before. -/
theorem ListsUpTo.pass {bound : Nat} (hlists : g.ListsUpTo heights bound)
    (h : g.Attained heights) : g.ListsUpTo (g.pass heights).1 (bound + 1) := by
  intro t ht hrules hle
  obtain ⟨bodies, hrow⟩ := Table.mem_keys.1 (Table.contains_iff.1 hrules)
  obtain ⟨before, after, hsplit⟩ := List.append_of_mem hrow
  have hbefore : before ⊆ g.rules.rows := hsplit ▸ List.subset_append_left _ _
  have hafter : after ⊆ g.rules.rows := by
    rw [hsplit]
    exact fun row hmem => List.mem_append_right _ (List.mem_cons_of_mem _ hmem)
  have hattained : g.Attained (before.foldl g.improve (heights, false)).1 :=
    Attained.foldl_improve hstocked h hbefore
  -- the heads before that of `t` leave the lowest expansions listed, so its own turn lists it
  have hlisted : g.ListsUpTo (before.foldl g.improve (heights, false)).1 bound :=
    fun u hu hrules' hle' =>
      lookup_foldl_improve_of_lowest hstocked h hbefore hu (hlists u hu hrules' hle')
  have hturn := hlisted.lookup_improve hstocked hattained hrow ht rfl hrules hle
  rw [Grammar.pass, hsplit, List.foldl_append, List.foldl_cons]
  exact lookup_foldl_improve_of_lowest hstocked (hattained.improve hstocked hrow) hafter ht hturn

/-- Nothing is changed for a head when all lowest expansions are listed. -/
theorem Attained.improve_eq (h : g.Attained found.1)
    (hlists : ∀ bound, g.ListsUpTo found.1 bound) (hrow : row ∈ g.rules.rows) :
    g.improve found row = found := by
  rcases g.improve_cases found row with ⟨hsame, -⟩ | ⟨lower, ⟨body, hbody, hheight⟩, -, hlower, -⟩
  · exact hsame
  · -- an expansion of the new height is no lower than the lowest one, which is listed
    obtain ⟨t, ht, hlabel, rfl⟩ := h.exists_expansion hstocked hrow hbody hheight
    obtain ⟨u, hu, hulabel, hle⟩ := ht.exists_lowest
    rw [toList_of_mem_rows hrow] at hbody
    have hrules := isNonterminal_of_mem_alternativesOf hbody
    rw [← hlabel, ← hulabel] at hlower hrules
    have hlt := hlower _ (hlists u.height u hu hrules (Nat.le_refl _))
    exact absurd hle (Nat.not_le_of_lt hlt)

/-- A pass changes nothing when all lowest expansions are listed. -/
theorem Attained.foldl_improve_eq {rows : List (Symbol × OrderedSet (List Symbol))}
    (h : g.Attained found.1) (hlists : ∀ bound, g.ListsUpTo found.1 bound)
    (hrows : rows ⊆ g.rules.rows) : rows.foldl g.improve found = found := by
  induction rows with
  | nil => rfl
  | cons row rows ih =>
    obtain ⟨hrow, hrows⟩ := List.cons_subset.1 hrows
    rw [List.foldl_cons, h.improve_eq hstocked hlists hrow, ih hrows]

/-! ### All passes -/

/-- If enough passes may be made, one of them changes nothing, and the lowest expansions are listed
then. -/
theorem Attained.exists_settleWithin {bound limit : Nat} (h : g.Attained heights)
    (hlists : g.ListsUpTo heights bound) (hlimit : g.nonterminals.length ≤ bound + limit) :
    ∃ result, g.settleWithin (limit + 1) heights = some result ∧ g.Attained result ∧
      ∀ bound, g.ListsUpTo result bound := by
  induction limit generalizing heights bound with
  | zero =>
    have hall := hlists.of_length_le hlimit
    have hpass : g.pass heights = (heights, false) :=
      Attained.foldl_improve_eq hstocked h hall (List.Subset.refl _)
    rw [settleWithin, hpass]
    exact ⟨heights, rfl, h, hall⟩
  | succ limit ih =>
    rw [settleWithin]
    split
    · exact ih (h.pass hstocked) (hlists.pass hstocked h) (by omega)
    · next hsame =>
      have hpass : g.pass heights = (heights, false) :=
        foldl_improve_eq_of_snd (Bool.eq_false_iff.2 hsame)
      rw [hpass]
      refine ⟨heights, rfl, h, ?_⟩
      -- a pass lists what is one higher, so if it changes nothing, there is no bound
      intro bound
      induction bound with
      | zero => exact listsUpTo_zero
      | succ bound ih => simpa only [hpass] using ih.pass hstocked h

end Stocked

/-- The rules of a grammar, without its words. -/
def withoutWords (g : Grammar) : Grammar := { g with lexicon := ∅ }

/-- Without words, there are no parts of speech. -/
theorem stocked_withoutWords (g : Grammar) (sym : Symbol) : g.withoutWords.Stocked sym := by
  intro part _ _ hcategory
  rw [isCategory, Table.contains_iff] at hcategory
  obtain ⟨words, hrow⟩ := Table.mem_keys.1 hcategory
  cases hrow

/-- The words do not matter for heights. -/
theorem settleWithin_withoutWords (g : Grammar) (limit : Nat) (heights : Heights) :
    g.withoutWords.settleWithin limit heights = g.settleWithin limit heights := by
  induction limit generalizing heights with
  | zero => rfl
  | succ limit ih =>
    rw [settleWithin, ih]
    rfl

/-- Improving the heights in place comes to an end, with at most one pass more than there are heads,
and finds the heights that the rounds find. -/
theorem exists_settleWithin (g : Grammar) :
    ∃ heights, g.settleWithin (g.nonterminals.length + 1) [] = some heights ∧
      ∀ sym, heights.lookup sym = g.heights.lookup sym := by
  have hstocked := g.stocked_withoutWords
  obtain ⟨heights, hsettle, hattained, hlists⟩ :=
    (attained_nil (g := g.withoutWords)).exists_settleWithin hstocked listsUpTo_zero
      (Nat.le_of_eq (Nat.zero_add _).symm)
  rw [settleWithin_withoutWords] at hsettle
  refine ⟨heights, hsettle, ?_⟩
  intro sym
  refine Option.ext fun height => ?_
  rw [hattained.lookup_iff hlists]
  exact (lookup_heights (hstocked sym)).symm

end NaturalLanguage.Grammar

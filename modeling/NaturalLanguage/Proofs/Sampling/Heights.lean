import NaturalLanguage.Proofs.Grammar.Expansion
import NaturalLanguage.Sampling.Height

/-!
# Heights are those of lowest expansions

Every round finds the heights of the lowest expansions that are one higher than those of the round
before. As there are no more heights than symbols with rules, the rounds find them all. Parts of
speech without words have the height of a word nevertheless, so this holds of symbols that cannot
be rewritten into such a part of speech.

* `bodyHeight_eq`: the height of a body over trees whose heights are known.
* `lookup_nextHeights`: a round gives a symbol the least height of its alternatives.
* `lookup_heightsWithin`, `lookup_heights`: what some rounds and all rounds have found.
* `Lowest.of_mem_shallowest`: the alternatives that are as high as their head are those of lowest
  expansions.
-/

namespace NaturalLanguage.Grammar

variable {g : Grammar} {heights : Heights} {sym : Symbol} {body : List Symbol} {height : Nat}
  {t : Tree} {ts : List Tree}

/-! ### The height of a body -/

/-- A table of heights knows the height of a tree with this label: it lists the height, or the label
has no rules and the height is zero. -/
def Knows (g : Grammar) (heights : Heights) (t : Tree) : Prop :=
  if g.isNonterminal t.label then heights.lookup t.label = some t.height else t.height = 0

/-- The height of an expansion is known if it is listed or its label has no rules. -/
theorem Expansion.knows (h : g.Expansion t)
    (hlisted : g.isNonterminal t.label = true → heights.lookup t.label = some t.height) :
    g.Knows heights t := by
  unfold Knows
  split
  · next hrules => exact hlisted hrules
  · next hrules => exact h.height_eq_zero (Bool.eq_false_iff.2 hrules)

theorem raise_eq {low : Nat} (ht : g.Knows heights t) (hlow : 0 < low) :
    g.raise heights low t.label = some (max low (t.height + 1)) := by
  unfold Knows at ht
  unfold raise
  split at ht
  · next hsym => rw [if_pos hsym, ht, Option.map_some]
  · next hsym => rw [if_neg hsym, ht, Nat.zero_add, Nat.max_eq_left hlow]

theorem foldlM_raise_eq {low : Nat} (hts : ∀ t ∈ ts, g.Knows heights t) (hlow : 0 < low) :
    (ts.map Tree.label).foldlM (g.raise heights) low =
      some (max low (Tree.heightAll ts + 1)) := by
  induction ts generalizing low with
  | nil => exact congrArg some (Nat.max_eq_left hlow).symm
  | cons t ts ih =>
    obtain ⟨ht, hts⟩ := List.forall_mem_cons.1 hts
    have hnext : 0 < max low (t.height + 1) := Nat.lt_of_lt_of_le hlow (Nat.le_max_left _ _)
    rw [List.map_cons, List.foldlM_cons, raise_eq ht hlow]
    change (ts.map Tree.label).foldlM (g.raise heights) (max low (t.height + 1)) = _
    rw [ih hts hnext, Tree.heightAll]
    congr 1
    omega

/-- The height of a body is that of a node over trees whose heights are known. -/
theorem bodyHeight_eq (head : Symbol) (hts : ∀ t ∈ ts, g.Knows heights t) :
    g.bodyHeight heights (ts.map Tree.label) = some (Tree.node head ts).height := by
  rw [bodyHeight, foldlM_raise_eq hts Nat.one_pos, Tree.height,
    Nat.max_eq_right (Nat.le_add_left _ _)]

/-- Tables that list the same heights give the same heights to all bodies. -/
theorem bodyHeight_congr {other : Heights} (h : ∀ sym, heights.lookup sym = other.lookup sym) :
    g.bodyHeight heights = g.bodyHeight other := by
  have hraise : g.raise heights = g.raise other := by
    funext height sym
    rw [raise, raise, h]
  funext body
  rw [bodyHeight, bodyHeight, hraise]

/-- A body with a height has heights listed for all its symbols with rules. -/
theorem exists_lookup_of_foldlM_raise {low high : Nat}
    (h : body.foldlM (g.raise heights) low = some high) (hsym : sym ∈ body)
    (hrules : g.isNonterminal sym = true) : ∃ height, heights.lookup sym = some height := by
  induction body generalizing low with
  | nil => cases hsym
  | cons first body ih =>
    rw [List.foldlM_cons] at h
    obtain ⟨next, hnext, hrest⟩ := Option.bind_eq_some_iff.1 h
    rcases List.mem_cons.1 hsym with rfl | hsym
    · rw [raise, if_pos hrules] at hnext
      obtain ⟨height, hheight, -⟩ := Option.map_eq_some_iff.1 hnext
      exact ⟨height, hheight⟩
    · exact ih hrest hsym

/-! ### One round -/

/-- What a list with one row for every key gives for a key when its values are mapped, and dropped
if they are mapped to nothing. -/
theorem lookup_filterMap {α β : Type} (f : α → Option β) {rows : List (String × α)}
    (hrows : (rows.map Prod.fst).Nodup) (key : String) :
    (rows.filterMap fun row => (f row.2).map (row.1, ·)).lookup key = (rows.lookup key).bind f := by
  induction rows with
  | nil => rfl
  | cons row rows ih =>
    obtain ⟨name, a⟩ := row
    rw [List.map_cons, List.nodup_cons] at hrows
    obtain ⟨hname, hrows⟩ := hrows
    have hrest := ih hrows
    rw [List.filterMap_cons, List.lookup_cons]
    by_cases hkey : key = name
    · subst hkey
      -- no other row has the key
      have hnone : rows.lookup key = none := by
        rw [List.lookup_eq_none_iff]
        intro row hrow
        rw [bne_iff_ne]
        intro heq
        exact hname (List.mem_map.2 ⟨row, hrow, heq.symm⟩)
      rw [hnone] at hrest
      cases hf : f a with
      | none =>
        simpa only [hf, Option.map_none, beq_self_eq_true, Option.bind_some, Option.bind_none]
          using hrest
      | some b =>
        simp only [hf, Option.map_some, List.lookup_cons_self, beq_self_eq_true, Option.bind_some]
    · have hne := beq_false_of_ne hkey
      cases hf : f a with
      | none => simpa only [hf, Option.map_none, hne] using hrest
      | some b => simpa only [hf, Option.map_some, List.lookup_cons, hne] using hrest

/-- A round looks at the alternatives of every symbol once. -/
theorem lookup_nextHeights_eq (g : Grammar) (heights : Heights) (sym : Symbol) :
    (g.nextHeights heights).lookup sym =
      ((g.alternativesOf sym).filterMap (g.bodyHeight heights)).min? := by
  -- every head has one row of alternatives
  refine (lookup_filterMap (fun bodies : OrderedSet (List Symbol) =>
    (bodies.toList.filterMap (g.bodyHeight heights)).min?) g.rules.nodup_keys sym).trans ?_
  rw [alternativesOf, Table.get]
  cases g.rules.rows.lookup sym <;> rfl

/-- A round gives a symbol the least height of its alternatives. -/
theorem lookup_nextHeights (g : Grammar) (heights : Heights) (sym : Symbol) (height : Nat) :
    (g.nextHeights heights).lookup sym = some height ↔
      (∃ body ∈ g.alternativesOf sym, g.bodyHeight heights body = some height) ∧
        ∀ body ∈ g.alternativesOf sym, ∀ other, g.bodyHeight heights body = some other →
          height ≤ other := by
  rw [lookup_nextHeights_eq, List.min?_eq_some_iff]
  simp only [List.mem_filterMap, forall_exists_index, and_imp]
  refine and_congr_right fun _ => ?_
  constructor
  · intro h body hbody other hother
    exact h other body hbody hother
  · intro h other body hbody hother
    exact h body hbody other hother

/-! ### All rounds -/

/-- The heights after some rounds. -/
def heightsWithin (g : Grammar) (rounds : Nat) : Heights := Nat.repeat g.nextHeights rounds []

/-- `heights` lists the heights up to `rounds` of the lowest expansions of the parts of `sym`. -/
def ListsParts (g : Grammar) (heights : Heights) (rounds : Nat) (sym : Symbol) : Prop :=
  ∀ body ∈ g.alternativesOf sym, ∀ part ∈ body, ∀ height,
    heights.lookup part = some height ↔
      g.isNonterminal part = true ∧ height ≤ rounds ∧
        ∃ t, g.Lowest t ∧ t.label = part ∧ t.height = height

section Round

variable {rounds : Nat} (hparts : g.ListsParts heights rounds sym)

include hparts

/-- Lowest expansions that are not too high are known. -/
theorem ListsParts.knows (hbody : ts.map Tree.label ∈ g.alternativesOf sym)
    (hts : ∀ t ∈ ts, g.Lowest t) (hle : Tree.heightAll ts ≤ rounds) (ht : t ∈ ts) :
    g.Knows heights t := by
  refine (hts t ht).expansion.knows fun hrules => ?_
  refine (hparts _ hbody _ (List.mem_map_of_mem ht) _).2 ⟨hrules, ?_, t, hts t ht, rfl, rfl⟩
  exact Nat.le_trans (Tree.height_le_heightAll ht) hle

/-- A body with a height is that of a node over lowest expansions. -/
theorem ListsParts.exists_children (hsym : g.Stocked sym) (hbody : body ∈ g.alternativesOf sym)
    (h : g.bodyHeight heights body = some height) :
    ∃ children, children.map Tree.label = body ∧ (∀ t ∈ children, g.Lowest t) ∧
      (Tree.node sym children).height = height ∧ height ≤ rounds + 1 := by
  have hchildren : ∀ part ∈ body, ∃ t, (g.Lowest t ∧ g.Knows heights t ∧ t.height ≤ rounds) ∧
      t.label = part := by
    intro part hpart
    by_cases hrules : g.isNonterminal part = true
    · obtain ⟨height, hheight⟩ := exists_lookup_of_foldlM_raise h hpart hrules
      obtain ⟨-, hle, t, ht, rfl, rfl⟩ := (hparts body hbody part hpart height).1 hheight
      exact ⟨t, ⟨ht, ht.expansion.knows fun _ => hheight, hle⟩, rfl⟩
    · obtain ⟨word, hleaf⟩ := (hsym.of_mem hbody hpart).exists_leaf (Bool.eq_false_iff.2 hrules)
      exact ⟨.leaf part word,
        ⟨hleaf, hleaf.expansion.knows fun hrules' => absurd hrules' hrules, Nat.zero_le _⟩, rfl⟩
  -- the heights of these parts are known, so the height of the body is the one given
  obtain ⟨children, rfl, hgood⟩ := Tree.exists_forest hchildren
  rw [bodyHeight_eq sym fun t ht => (hgood t ht).2.1, Option.some.injEq] at h
  refine ⟨children, rfl, fun t ht => (hgood t ht).1, h, h ▸ Nat.succ_le_succ ?_⟩
  exact Tree.heightAll_le fun t ht => (hgood t ht).2.2

/-- A lowest expansion that is at most one higher shows up as the height of an alternative. -/
theorem ListsParts.exists_bodyHeight (ht : g.Lowest t) (hlabel : t.label = sym)
    (hrules : g.isNonterminal sym = true) (hle : t.height ≤ rounds + 1) :
    ∃ body ∈ g.alternativesOf sym, g.bodyHeight heights body = some t.height := by
  subst hlabel
  obtain ⟨children, -, hheight, hbody, hchildren⟩ := ht.exists_children hrules
  have hall : Tree.heightAll children ≤ rounds := by
    rw [← hheight] at hle
    exact Nat.le_of_succ_le_succ hle
  refine ⟨_, hbody, ?_⟩
  rw [bodyHeight_eq t.label fun u hu => hparts.knows hbody hchildren hall hu, hheight]

/-- A round finds the heights of lowest expansions that are at most one higher than those found
before. -/
theorem ListsParts.lookup_nextHeights (hsym : g.Stocked sym) :
    (g.nextHeights heights).lookup sym = some height ↔
      g.isNonterminal sym = true ∧ height ≤ rounds + 1 ∧
        ∃ t, g.Lowest t ∧ t.label = sym ∧ t.height = height := by
  rw [Grammar.lookup_nextHeights]
  constructor
  · rintro ⟨⟨body, hbody, hheight⟩, hleast⟩
    obtain ⟨children, rfl, hchildren, hnode, hle⟩ := hparts.exists_children hsym hbody hheight
    have hrules := isNonterminal_of_mem_alternativesOf hbody
    have hexpansion : g.Expansion (.node sym children) :=
      .node hbody fun t ht => (hchildren t ht).expansion
    refine ⟨hrules, hle, .node sym children, ⟨hexpansion, ?_⟩, rfl, hnode⟩
    intro u hu hlabel
    obtain ⟨v, hv, hvlabel, hvle⟩ := hu.exists_lowest
    rw [hnode]
    -- a lower expansion would have been found in this round as well
    by_cases hvround : v.height ≤ rounds + 1
    · obtain ⟨other, hother, hvheight⟩ :=
        hparts.exists_bodyHeight hv (hvlabel.trans hlabel) hrules hvround
      exact Nat.le_trans (hleast other hother _ hvheight) hvle
    · omega
  · rintro ⟨hrules, hle, t, ht, rfl, rfl⟩
    refine ⟨hparts.exists_bodyHeight ht rfl hrules hle, ?_⟩
    intro body hbody other hother
    obtain ⟨children, rfl, hchildren, rfl, -⟩ := hparts.exists_children hsym hbody hother
    have hexpansion : g.Expansion (.node t.label children) :=
      .node hbody fun u hu => (hchildren u hu).expansion
    exact ht.height_le hexpansion rfl

end Round

/-- Some rounds find the heights of lowest expansions that are at most as high as there were
rounds. -/
theorem lookup_heightsWithin (rounds : Nat) (hsym : g.Stocked sym) :
    (g.heightsWithin rounds).lookup sym = some height ↔
      g.isNonterminal sym = true ∧ height ≤ rounds ∧
        ∃ t, g.Lowest t ∧ t.label = sym ∧ t.height = height := by
  induction rounds generalizing sym height with
  | zero =>
    constructor
    · intro h
      cases h
    -- no expansion of a symbol with rules has height zero
    · rintro ⟨hrules, hle, t, ht, rfl, rfl⟩
      exact absurd (ht.expansion.height_pos hrules) (Nat.not_lt_of_le hle)
  | succ rounds ih =>
    have hparts : g.ListsParts (g.heightsWithin rounds) rounds sym := fun body hbody part hpart _ =>
      ih (hsym.of_mem hbody hpart)
    exact hparts.lookup_nextHeights hsym

/-- With as many rounds as symbols with rules, all heights of lowest expansions are found. -/
theorem lookup_heightsWithin_of_le {rounds : Nat} (hsym : g.Stocked sym)
    (hrounds : g.rules.rows.length ≤ rounds) :
    (g.heightsWithin rounds).lookup sym = some height ↔
      g.isNonterminal sym = true ∧ ∃ t, g.Lowest t ∧ t.label = sym ∧ t.height = height := by
  refine (lookup_heightsWithin rounds hsym).trans ?_
  -- no lowest expansion is higher than there are symbols with rules
  refine and_congr_right fun _ => and_iff_right_of_imp ?_
  rintro ⟨t, ht, rfl, rfl⟩
  have hle := ht.height_le_length
  rw [nonterminals, Table.toList_keys, List.length_map] at hle
  exact Nat.le_trans hle hrounds

/-- The heights are those of the lowest expansions. -/
theorem lookup_heights (hsym : g.Stocked sym) :
    g.heights.lookup sym = some height ↔
      g.isNonterminal sym = true ∧ ∃ t, g.Lowest t ∧ t.label = sym ∧ t.height = height :=
  lookup_heightsWithin_of_le hsym (Nat.le_refl _)

/-! ### Alternatives that are as high as their head -/

theorem knows_heights (hlabel : g.Stocked t.label) (ht : g.Lowest t) : g.Knows g.heights t :=
  ht.expansion.knows fun hrules => (lookup_heights hlabel).2 ⟨hrules, t, ht, rfl, rfl⟩

/-- A node over lowest expansions is lowest itself if its body is as high as its head. -/
theorem Lowest.of_mem_shallowest (hsym : g.Stocked sym) (hts : ∀ t ∈ ts, g.Lowest t)
    (hbody : ts.map Tree.label ∈ g.shallowest g.heights sym) : g.Lowest (.node sym ts) := by
  obtain ⟨height, hlookup, hmem, hheight⟩ := mem_shallowest_iff.1 hbody
  obtain ⟨-, t, ht, rfl, rfl⟩ := (lookup_heights hsym).1 hlookup
  have hknows : ∀ u ∈ ts, g.Knows g.heights u := fun u hu =>
    knows_heights (hsym.of_mem hmem (List.mem_map_of_mem hu)) (hts u hu)
  have hexpansion : g.Expansion (.node t.label ts) := .node hmem fun u hu =>
    (hts u hu).expansion
  rw [bodyHeight_eq t.label hknows, Option.some.injEq] at hheight
  exact ⟨hexpansion, fun hu hlabel => hheight ▸ ht.height_le hu hlabel⟩

end NaturalLanguage.Grammar

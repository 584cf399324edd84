import Mathlib.Order.Bounds.Basic
import NaturalLanguage.Grammar.Entry
import NaturalLanguage.Proofs.Sampling.Passes

/-!
# Heights are those of lowest outlines

An outline is a derivation tree in which the words are left open: every symbol that has rules is
rewritten, and the leaves are parts of speech and literals. A table of heights is settled if the
alternatives of every symbol, with the heights in the table itself, have the listed height as their
least one. In an alternative that is as high as its head, all symbols are lower, so a settled table
lists heights of outlines; and no outline is lower than listed. So there are no two settled tables,
also for symbols that only lead back to each other. The passes over the rules find this table.

* `Outline`, `Settled`: outlines, and tables that a further look at the rules does not change.
* `Settled.shallowest_ne_nil`, `exists_lookup_lt_of_mem_shallowest`: alternatives that are as high
  as their head.
* `Settled.exists_outline`, `Settled.exists_lookup_le`: what is listed is attained, and is least.
* `Settled.lookup_iff`, `Settled.lookup_eq`: a settled table lists the least heights of outlines.
* `heights_exact`: what the passes find.
-/

namespace NaturalLanguage.Grammar

variable {g : Grammar} {heights : Heights} {sym : Symbol} {body : List Symbol} {height : Nat}
  {t : Tree} {ts : List Tree}

/-- A derivation tree with its words left open: every symbol that has rules is rewritten, also one
that lists words, and it does not matter what words stand at the leaves, which are parts of speech
and literals. -/
inductive Outline (g : Grammar) : Tree → Prop
  | leaf {sym : Symbol} {word : Word} : g.isNonterminal sym = false → Outline g (.leaf sym word)
  | node {head : Symbol} {children : List Tree} :
      children.map Tree.label ∈ g.alternativesOf head → (∀ t ∈ children, Outline g t) →
      Outline g (.node head children)

/-- Every symbol is listed with the least height that its alternatives have by the table itself, and
is not listed if none of them has a height. -/
def Settled (g : Grammar) (heights : Heights) : Prop :=
  ∀ sym, heights.lookup sym = ((g.alternativesOf sym).filterMap (g.bodyHeight heights)).min?

/-! ### Alternatives that are as high as their head -/

/-- A symbol with rules in an alternative that is as high as its head is listed, with less. -/
theorem exists_lookup_lt_of_mem_shallowest {part : Symbol}
    (hlookup : heights.lookup sym = some height) (hbody : body ∈ g.shallowest heights sym)
    (hpart : part ∈ body) (hrules : g.isNonterminal part = true) :
    ∃ lower < height, heights.lookup part = some lower := by
  obtain ⟨_, -, hmem, hheight⟩ := mem_shallowest_iff.1 hbody
  obtain ⟨lower, hlower⟩ := exists_lookup_of_foldlM_raise hheight hpart hrules
  have hhead : g.isNonterminal sym = true := isNonterminal_of_mem_alternativesOf hmem
  have hlt := rank_lt_of_mem_shallowest hhead hbody hpart
  rw [rank, rank, if_pos hrules, if_pos hhead, hlower, hlookup] at hlt
  exact ⟨lower, hlt, hlower⟩

/-! ### Settled tables -/

/-- If symbols are listed with at most the heights of some trees, their body is at most as high as a
node over these trees. -/
theorem exists_foldlM_raise_le (low : Nat)
    (hts : ∀ t ∈ ts, g.isNonterminal t.label = true →
      ∃ height ≤ t.height, heights.lookup t.label = some height) :
    ∃ high ≤ max low (Tree.heightAll ts + 1),
      (ts.map Tree.label).foldlM (g.raise heights) low = some high := by
  induction ts generalizing low with
  | nil => exact ⟨low, Nat.le_max_left _ _, rfl⟩
  | cons t ts ih =>
    obtain ⟨ht, hts⟩ := List.forall_mem_cons.1 hts
    have hnext : ∃ next ≤ max low (t.height + 1), g.raise heights low t.label = some next := by
      unfold raise
      split
      · next hrules =>
        obtain ⟨height, hle, hheight⟩ := ht hrules
        rw [hheight, Option.map_some]
        exact ⟨_, max_le_max (Nat.le_refl low) (Nat.succ_le_succ hle), rfl⟩
      · exact ⟨low, Nat.le_max_left _ _, rfl⟩
    obtain ⟨next, hle, hnext⟩ := hnext
    obtain ⟨high, hhigh, hrest⟩ := ih next hts
    rw [List.map_cons, List.foldlM_cons, hnext, Tree.heightAll]
    exact ⟨high, by omega, hrest⟩

namespace Settled

variable (h : g.Settled heights)

include h

/-- The height of a listed symbol is that of one of its alternatives. -/
theorem exists_bodyHeight_eq (hlookup : heights.lookup sym = some height) :
    ∃ body ∈ g.alternativesOf sym, g.bodyHeight heights body = some height :=
  List.mem_filterMap.1 (List.min?_eq_some_iff.1 ((h sym).symm.trans hlookup)).1

theorem shallowest_ne_nil (hlookup : heights.lookup sym = some height) :
    g.shallowest heights sym ≠ [] := by
  obtain ⟨body, hbody, hheight⟩ := h.exists_bodyHeight_eq hlookup
  exact List.ne_nil_of_mem (mem_shallowest_iff.2 ⟨height, hlookup, hbody, hheight⟩)

/-- The height of an alternative is not less than that of its head, which is listed. -/
theorem exists_lookup_le_of_bodyHeight (hbody : body ∈ g.alternativesOf sym)
    (hheight : g.bodyHeight heights body = some height) :
    ∃ lower ≤ height, heights.lookup sym = some lower := by
  have hmem : height ∈ (g.alternativesOf sym).filterMap (g.bodyHeight heights) :=
    List.mem_filterMap.2 ⟨body, hbody, hheight⟩
  obtain ⟨lower, hlower⟩ := Option.isSome_iff_exists.1 (List.isSome_min?_of_mem hmem)
  exact ⟨lower, (List.min?_eq_some_iff.1 hlower).2 height hmem, (h sym).trans hlower⟩

/-- Every listed height is that of an outline. -/
theorem exists_outline (hlookup : heights.lookup sym = some height) :
    ∃ t, g.Outline t ∧ t.label = sym ∧ t.height = height := by
  -- by induction on the height: in an alternative that is as high as its head, all are lower
  induction height using Nat.strong_induction_on generalizing sym with
  | _ height ih =>
    obtain ⟨body, hbody, hheight⟩ := h.exists_bodyHeight_eq hlookup
    have hshallowest : body ∈ g.shallowest heights sym :=
      mem_shallowest_iff.2 ⟨height, hlookup, hbody, hheight⟩
    have hparts : ∀ part ∈ body, ∃ t, (g.Outline t ∧ g.Knows heights t) ∧ t.label = part := by
      intro part hpart
      by_cases hrules : g.isNonterminal part = true
      · obtain ⟨lower, hlt, hlower⟩ :=
          exists_lookup_lt_of_mem_shallowest hlookup hshallowest hpart hrules
        obtain ⟨t, ht, rfl, rfl⟩ := ih lower hlt hlower
        exact ⟨t, ⟨ht, (if_pos hrules).mpr hlower⟩, rfl⟩
      · exact ⟨.leaf part part, ⟨.leaf (Bool.eq_false_iff.2 hrules), (if_neg hrules).mpr rfl⟩, rfl⟩
    obtain ⟨children, rfl, hchildren⟩ := Tree.exists_forest hparts
    rw [bodyHeight_eq sym fun t ht => (hchildren t ht).2, Option.some.injEq] at hheight
    exact ⟨.node sym children, .node hbody fun t ht => (hchildren t ht).1, rfl, hheight⟩

/-- No outline is lower than listed. -/
theorem exists_lookup_le (ht : g.Outline t) (hrules : g.isNonterminal t.label = true) :
    ∃ height ≤ t.height, heights.lookup t.label = some height := by
  induction ht with
  | leaf hsym => exact absurd (hsym.symm.trans hrules) (by decide)
  | @node head children hbody _ ih =>
    obtain ⟨height, hle, hheight⟩ := exists_foldlM_raise_le 1 ih
    obtain ⟨lower, hlower, hlookup⟩ := h.exists_lookup_le_of_bodyHeight hbody hheight
    rw [Nat.max_eq_right (Nat.le_add_left _ _)] at hle
    exact ⟨lower, Nat.le_trans hlower hle, hlookup⟩

/-- A settled table lists the symbols with outlines, each with the least height of its outlines. -/
theorem lookup_iff :
    heights.lookup sym = some height ↔
      g.isNonterminal sym = true ∧
        IsLeast {n | ∃ t, g.Outline t ∧ t.label = sym ∧ t.height = n} height := by
  have hleast : ∀ listed, heights.lookup sym = some listed → g.isNonterminal sym = true →
      IsLeast {n | ∃ t, g.Outline t ∧ t.label = sym ∧ t.height = n} listed := by
    intro listed hlookup hrules
    refine ⟨h.exists_outline hlookup, ?_⟩
    rintro _ ⟨t, ht, rfl, rfl⟩
    obtain ⟨lower, hle, hlower⟩ := h.exists_lookup_le ht hrules
    obtain rfl : listed = lower := Option.some.inj (hlookup.symm.trans hlower)
    exact hle
  constructor
  · intro hlookup
    obtain ⟨body, hbody, -⟩ := h.exists_bodyHeight_eq hlookup
    have hrules := isNonterminal_of_mem_alternativesOf hbody
    exact ⟨hrules, hleast height hlookup hrules⟩
  · rintro ⟨hrules, hheight⟩
    obtain ⟨t, ht, rfl, -⟩ := hheight.1
    obtain ⟨listed, -, hlisted⟩ := h.exists_lookup_le ht hrules
    rw [hlisted, (hleast listed hlisted hrules).unique hheight]

/-- All settled tables list the same heights. -/
theorem lookup_eq {other : Heights} (hother : g.Settled other) (sym : Symbol) :
    heights.lookup sym = other.lookup sym :=
  Option.ext fun _ => h.lookup_iff.trans hother.lookup_iff.symm

/-- A symbol with rules is not listed if it has no outline. -/
theorem lookup_eq_none_iff (hrules : g.isNonterminal sym = true) :
    heights.lookup sym = none ↔ ¬∃ t, g.Outline t ∧ t.label = sym := by
  constructor
  · rintro hnone ⟨t, ht, rfl⟩
    obtain ⟨height, -, hlookup⟩ := h.exists_lookup_le ht hrules
    rw [hnone] at hlookup
    cases hlookup
  · intro hnone
    cases hlookup : heights.lookup sym with
    | none => rfl
    | some height =>
      obtain ⟨t, ht, hlabel, -⟩ := h.exists_outline hlookup
      exact absurd ⟨t, ht, hlabel⟩ hnone

theorem congr {other : Heights} (hother : ∀ sym, other.lookup sym = heights.lookup sym) :
    g.Settled other := by
  intro sym
  rw [hother, h sym, bodyHeight_congr hother]

end Settled

/-! ### Rounds and passes settle -/

/-- The heights that the rounds find are settled. -/
theorem settled_heights (g : Grammar) : g.Settled g.heights := by
  intro sym
  rw [← lookup_nextHeights_eq]
  have hstocked := g.stocked_withoutWords sym
  -- the words do not matter for heights, and one round more finds no other heights
  exact Option.ext fun _ => (lookup_heightsWithin_of_le hstocked (Nat.le_refl _)).trans
    (lookup_heightsWithin_of_le hstocked (Nat.le_succ _)).symm

end NaturalLanguage.Grammar

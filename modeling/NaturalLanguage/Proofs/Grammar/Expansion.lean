import Mathlib.Data.Finset.Card
import Mathlib.Logic.Relation
import Mathlib.Order.Interval.Finset.Nat
import NaturalLanguage.Proofs.Grammar.Cyclic

/-!
# Expansions and their heights

An expansion is a derivation tree in which every symbol that has rules is rewritten: its leaves are
words of parts of speech without rules, and literals. Among the expansions of a symbol some are
lowest. The parts of a lowest expansion may be taken to be lowest themselves, so a lowest expansion
of height `n` has parts of all heights below, and these have different symbols at their roots.

* `Tree.height`, `Tree.subtreesAt`: rewrites on the longest path, and subtrees by their depth.
* `Expansion`, `Lowest`: expansions, and those of least height for the symbol at their root.
* `Lowest.exists_children`: a lowest expansion with lowest parts.
* `Lowest.height_le_length`: lowest expansions are no higher than there are symbols with rules.
* `Reaches`, `Productive`, `Stocked`: symbols that rewriting leads to, and that they all have
  expansions or words.
-/

namespace NaturalLanguage

namespace Tree

mutual
/-- The number of rewrites on the longest path from the root. -/
def height : Tree → Nat
  | .leaf _ _ => 0
  | .node _ children => heightAll children + 1

/-- The greatest height of several trees. -/
def heightAll : List Tree → Nat
  | [] => 0
  | t :: ts => max t.height (heightAll ts)
end

/-- The subtrees below a number of rewrites. -/
def subtreesAt : (depth : Nat) → Tree → List Tree
  | 0, t => [t]
  | _ + 1, .leaf _ _ => []
  | depth + 1, .node _ children => children.flatMap (subtreesAt depth)

theorem height_le_heightAll {t : Tree} {ts : List Tree} (ht : t ∈ ts) :
    t.height ≤ heightAll ts := by
  induction ts with
  | nil => cases ht
  | cons u ts ih =>
    rw [heightAll]
    rcases List.mem_cons.1 ht with rfl | ht
    · exact Nat.le_max_left _ _
    · exact Nat.le_trans (ih ht) (Nat.le_max_right _ _)

theorem heightAll_le {bound : Nat} {ts : List Tree} (h : ∀ t ∈ ts, t.height ≤ bound) :
    heightAll ts ≤ bound := by
  induction ts with
  | nil => exact Nat.zero_le _
  | cons t ts ih =>
    obtain ⟨ht, hts⟩ := List.forall_mem_cons.1 h
    exact Nat.max_le.2 ⟨ht, ih hts⟩

/-- The greatest height of several trees is that of one of them, unless it is zero. -/
theorem exists_height_eq {ts : List Tree} (h : 0 < heightAll ts) :
    ∃ t ∈ ts, t.height = heightAll ts := by
  induction ts with
  | nil => cases h
  | cons t ts ih =>
    rw [heightAll] at h ⊢
    by_cases hle : heightAll ts ≤ t.height
    · exact ⟨t, List.mem_cons_self, (Nat.max_eq_left hle).symm⟩
    · have hlt : t.height < heightAll ts := Nat.lt_of_not_le hle
      rw [Nat.max_eq_right (Nat.le_of_lt hlt)]
      obtain ⟨u, hu, hheight⟩ := ih (Nat.lt_of_le_of_lt (Nat.zero_le _) hlt)
      exact ⟨u, List.mem_cons_of_mem t hu, hheight⟩

/-- If every symbol of a list is the label of some tree, the list is that of the labels of some
trees. -/
theorem exists_forest {body : List Symbol} {good : Tree → Prop}
    (h : ∀ sym ∈ body, ∃ t, good t ∧ t.label = sym) :
    ∃ ts : List Tree, ts.map label = body ∧ ∀ t ∈ ts, good t := by
  induction body with
  | nil => exact ⟨[], rfl, nofun⟩
  | cons sym body ih =>
    obtain ⟨⟨t, ht, rfl⟩, hbody⟩ := List.forall_mem_cons.1 h
    obtain ⟨ts, rfl, hts⟩ := ih hbody
    exact ⟨t :: ts, rfl, List.forall_mem_cons.2 ⟨ht, hts⟩⟩

/-- If every one of several trees can be replaced by one that is no higher, so can all of them. -/
theorem exists_forest_le {ts : List Tree} {good : Tree → Prop}
    (h : ∀ t ∈ ts, ∃ u, good u ∧ u.label = t.label ∧ u.height ≤ t.height) :
    ∃ us : List Tree, us.map label = ts.map label ∧ (∀ u ∈ us, good u) ∧
      heightAll us ≤ heightAll ts := by
  induction ts with
  | nil => exact ⟨[], rfl, nofun, Nat.le_refl _⟩
  | cons t ts ih =>
    obtain ⟨⟨u, hu, hlabel, hle⟩, hts⟩ := List.forall_mem_cons.1 h
    obtain ⟨us, hlabels, hus, hles⟩ := ih hts
    refine ⟨u :: us, ?_, List.forall_mem_cons.2 ⟨hu, hus⟩, ?_⟩
    · rw [List.map_cons, List.map_cons, hlabel, hlabels]
    · rw [heightAll, heightAll]
      exact max_le_max hle hles

end Tree

namespace Grammar

/-! ### Expansions -/

/-- A derivation tree in which every symbol that has rules is rewritten. -/
inductive Expansion (g : Grammar) : Tree → Prop
  | leaf {sym : Symbol} {word : Word} : g.isNonterminal sym = false → g.accepts sym word = true →
      Expansion g (.leaf sym word)
  | node {head : Symbol} {children : List Tree} :
      children.map Tree.label ∈ g.alternativesOf head → (∀ t ∈ children, Expansion g t) →
      Expansion g (.node head children)

/-- An expansion that is no higher than the others of the symbol at its root. -/
structure Lowest (g : Grammar) (t : Tree) : Prop where
  expansion : g.Expansion t
  height_le {u : Tree} : g.Expansion u → u.label = t.label → t.height ≤ u.height

variable {g : Grammar} {t u : Tree} {head sym : Symbol} {word : Word}

theorem accepts_of_mem_wordsOf (h : word ∈ g.wordsOf sym) : g.accepts sym word = true := by
  rw [accepts, isA_iff.2 h, Bool.true_or]

/-- A literal accepts the word that is spelled like it. -/
theorem accepts_self (hrules : g.isNonterminal sym = false) (hcategory : g.isCategory sym = false) :
    g.accepts sym sym = true := by
  rw [accepts, isLiteral, hrules, hcategory, beq_self_eq_true, Bool.not_false, Bool.and_self,
    Bool.and_self, Bool.or_true]

/-- A symbol without rules accepts some word, unless it is a part of speech without words. -/
theorem exists_accepts (hsym : g.isNonterminal sym = false)
    (hwords : g.isCategory sym = true → g.wordsOf sym ≠ []) :
    ∃ word, g.accepts sym word = true := by
  by_cases hcategory : g.isCategory sym = true
  · obtain ⟨word, hword⟩ := List.exists_mem_of_ne_nil _ (hwords hcategory)
    exact ⟨word, accepts_of_mem_wordsOf hword⟩
  · exact ⟨sym, accepts_self hsym (Bool.eq_false_iff.2 hcategory)⟩

namespace Expansion

theorem derives (h : g.Expansion t) : g.derives t = true := by
  induction h with
  | leaf _ haccepts => exact haccepts
  | node hbody _ ih => exact derives_node.2 ⟨hbody, ih⟩

/-- An expansion of a symbol with rules is a node over one of its alternatives. -/
theorem exists_children (h : g.Expansion t) (hsym : g.isNonterminal t.label = true) :
    ∃ children, t = .node t.label children ∧
      children.map Tree.label ∈ g.alternativesOf t.label ∧ ∀ u ∈ children, g.Expansion u := by
  cases h with
  | leaf hleaf _ => exact absurd (hleaf.symm.trans hsym) (by decide)
  | node hbody hchildren => exact ⟨_, rfl, hbody, hchildren⟩

/-- An expansion of a symbol without rules is a leaf. -/
theorem height_eq_zero (h : g.Expansion t) (hsym : g.isNonterminal t.label = false) :
    t.height = 0 := by
  cases h with
  | leaf => rfl
  | @node head children hbody _ =>
    have hhead : g.isNonterminal head = true := isNonterminal_of_mem_alternativesOf hbody
    exact absurd (hsym.symm.trans hhead) (by decide)

theorem height_pos (h : g.Expansion t) (hsym : g.isNonterminal t.label = true) : 0 < t.height := by
  obtain ⟨children, ht, -⟩ := h.exists_children hsym
  rw [ht]
  exact Nat.succ_pos _

/-- A symbol with an expansion has a lowest one. -/
theorem exists_lowest (h : g.Expansion t) :
    ∃ u, g.Lowest u ∧ u.label = t.label ∧ u.height ≤ t.height := by
  classical
  have hheights : ∃ n u, g.Expansion u ∧ u.label = t.label ∧ u.height = n := ⟨_, t, h, rfl, rfl⟩
  obtain ⟨u, hu, hlabel, hheight⟩ := Nat.find_spec hheights
  have hle : ∀ {v}, g.Expansion v → v.label = t.label → u.height ≤ v.height := fun {v} hv heq =>
    Nat.le_trans (Nat.le_of_eq hheight) (Nat.find_min' hheights ⟨v, hv, heq, rfl⟩)
  exact ⟨u, ⟨hu, fun hv heq => hle hv (heq.trans hlabel)⟩, hlabel, hle h rfl⟩

end Expansion

/-! ### Lowest expansions -/

namespace Lowest

theorem of_accepts (hsym : g.isNonterminal sym = false) (haccepts : g.accepts sym word = true) :
    g.Lowest (.leaf sym word) :=
  ⟨.leaf hsym haccepts, fun _ _ => Nat.zero_le _⟩

theorem height_eq (ht : g.Lowest t) (hu : g.Lowest u) (h : t.label = u.label) :
    t.height = u.height :=
  Nat.le_antisymm (ht.height_le hu.expansion h.symm) (hu.height_le ht.expansion h)

/-- A symbol with rules has a lowest expansion whose parts are lowest expansions, too. -/
theorem exists_children (h : g.Lowest t) (hsym : g.isNonterminal t.label = true) :
    ∃ children, g.Lowest (.node t.label children) ∧
      (Tree.node t.label children).height = t.height ∧
      children.map Tree.label ∈ g.alternativesOf t.label ∧ ∀ u ∈ children, g.Lowest u := by
  obtain ⟨before, ht, hbody, hbefore⟩ := h.expansion.exists_children hsym
  obtain ⟨children, hlabels, hchildren, hle⟩ :=
    Tree.exists_forest_le fun u hu => (hbefore u hu).exists_lowest
  rw [← hlabels] at hbody
  have hnode : g.Expansion (.node t.label children) :=
    .node hbody fun u hu => (hchildren u hu).expansion
  -- the parts were replaced by lower ones, but the whole cannot become lower
  have hheight : (Tree.node t.label children).height = t.height := by
    apply Nat.le_antisymm
    · rw [ht]
      exact Nat.succ_le_succ hle
    · exact h.height_le hnode rfl
  exact ⟨children, ⟨hnode, fun hu heq => hheight ▸ h.height_le hu heq⟩, hheight, hbody, hchildren⟩

/-- Below a lowest expansion there are lowest expansions of all smaller heights. -/
theorem exists_height_eq (h : g.Lowest t) {height : Nat} (hpos : 0 < height)
    (hle : height ≤ t.height) :
    ∃ u, g.Lowest u ∧ g.isNonterminal u.label = true ∧ u.height = height := by
  induction hn : t.height generalizing t with
  | zero => exact absurd (hn ▸ hle) (Nat.not_le_of_gt hpos)
  | succ n ih =>
    have hsym : g.isNonterminal t.label = true := by
      by_contra hsym
      have hzero := h.expansion.height_eq_zero (Bool.eq_false_iff.2 hsym)
      exact absurd (hn.symm.trans hzero) (Nat.succ_ne_zero n)
    by_cases heq : t.height = height
    · exact ⟨t, h, hsym, heq⟩
    · -- one of the lowest parts is one rewrite lower than the whole
      obtain ⟨children, -, hheight, -, hchildren⟩ := h.exists_children hsym
      have hall : Tree.heightAll children = n := Nat.succ.inj (hheight.trans hn)
      have hlt : height ≤ n := by omega
      have hpos' : 0 < Tree.heightAll children := by omega
      obtain ⟨u, hu, huheight⟩ := Tree.exists_height_eq hpos'
      exact ih (hchildren u hu) (by omega) (huheight.trans hall)

/-- A lowest expansion is no higher than there are symbols with rules. -/
theorem height_le_length (h : g.Lowest t) : t.height ≤ g.nonterminals.length := by
  -- the lowest expansions of the heights up to that of `t` have different symbols at their roots
  have hlowest : ∀ n ∈ Finset.Icc 1 t.height,
      ∃ u, g.Lowest u ∧ g.isNonterminal u.label = true ∧ u.height = n := by
    intro n hn
    obtain ⟨hpos, hle⟩ := Finset.mem_Icc.1 hn
    exact h.exists_height_eq hpos hle
  choose! tree hlow hsym hheight using hlowest
  have hcard : (Finset.Icc 1 t.height).card ≤ g.nonterminals.toFinset.card := by
    refine Finset.card_le_card_of_injOn (fun n => (tree n).label) ?_ ?_
    · intro n hn
      exact List.mem_toFinset.2 (mem_nonterminals_iff.2 (hsym n hn))
    · intro m hm n hn heq
      rw [← hheight m hm, ← hheight n hn]
      exact (hlow m hm).height_eq (hlow n hn) heq
  rw [Nat.card_Icc, Nat.add_sub_cancel] at hcard
  exact Nat.le_trans hcard (List.toFinset_card_le _)

end Lowest

/-! ### Symbols that rewriting leads to -/

/-- `part` is mentioned in an alternative of `head`. -/
def Mentions (g : Grammar) (head part : Symbol) : Prop :=
  ∃ body ∈ g.alternativesOf head, part ∈ body

/-- Rewriting leads from a symbol to another. -/
def Reaches (g : Grammar) : Symbol → Symbol → Prop := Relation.ReflTransGen g.Mentions

/-- Every symbol with rules that rewriting leads to has an expansion. -/
def Productive (g : Grammar) (sym : Symbol) : Prop :=
  ∀ part, g.Reaches sym part → g.isNonterminal part = true → ∃ t, g.Expansion t ∧ t.label = part

/-- Every part of speech that rewriting leads to, and that has no rules, has words. -/
def Stocked (g : Grammar) (sym : Symbol) : Prop :=
  ∀ part, g.Reaches sym part → g.isNonterminal part = false → g.isCategory part = true →
    g.wordsOf part ≠ []

theorem Productive.of_mem {part : Symbol} (h : g.Productive sym)
    (hbody : body ∈ g.alternativesOf sym) (hpart : part ∈ body) : g.Productive part :=
  fun _ hother => h _ (.head ⟨body, hbody, hpart⟩ hother)

theorem Stocked.of_mem {body : List Symbol} {part : Symbol} (h : g.Stocked sym)
    (hbody : body ∈ g.alternativesOf sym) (hpart : part ∈ body) : g.Stocked part :=
  fun _ hother => h _ (.head ⟨body, hbody, hpart⟩ hother)

/-- A symbol without rules has a leaf as its lowest expansion. -/
theorem Stocked.exists_leaf (h : g.Stocked sym) (hsym : g.isNonterminal sym = false) :
    ∃ word, g.Lowest (.leaf sym word) := by
  obtain ⟨word, haccepts⟩ := exists_accepts hsym (h sym .refl hsym)
  exact ⟨word, .of_accepts hsym haccepts⟩

/-- If no symbol that rewriting leads to has both rules and words, all derivation trees are
expansions. -/
theorem expansion_of_derives
    (hseparate : ∀ sym, g.Reaches head sym → g.isNonterminal sym = true → g.isCategory sym = false)
    (hreach : g.Reaches head t.label) (h : g.derives t = true) : g.Expansion t := by
  induction t using Tree.induction with
  | leaf sym word =>
    refine .leaf ?_ h
    by_contra hsym
    rw [Bool.not_eq_false] at hsym
    -- a symbol with rules is no literal, so it would have to list the word
    rw [derives_leaf, accepts, isLiteral, hsym] at h
    simp only [Bool.not_true, Bool.false_and, Bool.or_false, isA_iff] at h
    have hcategory : g.isCategory sym = true := Table.contains_of_mem_get h
    exact absurd ((hseparate sym hreach hsym).symm.trans hcategory) (by decide)
  | node sym children ih =>
    obtain ⟨hbody, hchildren⟩ := derives_node.1 h
    refine .node hbody ?_
    intro t ht
    exact ih t ht (hreach.tail ⟨_, hbody, List.mem_map_of_mem ht⟩) (hchildren t ht)

end Grammar

end NaturalLanguage

import NaturalLanguage.Grammar.Basic

/-!
# Heights of derivations

The height of a nonterminal is the least height of a derivation of it: one more than the greatest
height among the nonterminals of a body, for the body that keeps it least. Words and literals have
no height. A nonterminal without a finite derivation has no entry.

Heights are found in rounds. The first round finds the nonterminals of height one, and every
further round those that are one higher; a grammar with `n` heads has no height above `n`.

* `lt_of_bodyHeight`: every nonterminal of a body is lower than the body.
-/

namespace NaturalLanguage

/-- Heights of some nonterminals. -/
abbrev Heights := List (Symbol × Nat)

namespace Grammar

variable (g : Grammar)

/-- The height of a body with one more symbol, given its height without it. -/
def raise (heights : Heights) (height : Nat) (sym : Symbol) : Option Nat :=
  if g.isNonterminal sym then (heights.lookup sym).map fun h => max height (h + 1)
  else some height

/-- The height of a body: one, or one more than the greatest height of its nonterminals. -/
def bodyHeight (heights : Heights) (body : List Symbol) : Option Nat :=
  body.foldlM (g.raise heights) 1

/-- The heights that follow from the heights of a round before. -/
def nextHeights (heights : Heights) : Heights :=
  g.rules.rows.filterMap fun (head, bodies) =>
    ((bodies.toList.filterMap (g.bodyHeight heights)).min?).map fun height => (head, height)

/-- The height of every nonterminal with a finite derivation. -/
def heights : Heights := Nat.repeat g.nextHeights g.rules.rows.length []

/-- The alternatives of a symbol that are as high as the symbol itself. -/
def shallowest (heights : Heights) (sym : Symbol) : List (List Symbol) :=
  match heights.lookup sym with
  | none => []
  | some height => (g.alternativesOf sym).filter fun body => g.bodyHeight heights body = some height

/-- The height of a nonterminal, zero for all that has none. -/
def rank (heights : Heights) (sym : Symbol) : Nat :=
  if g.isNonterminal sym then (heights.lookup sym).getD 0 else 0

variable {g}

theorem le_of_foldlM_raise {heights : Heights} {body : List Symbol} {low high : Nat}
    (h : body.foldlM (g.raise heights) low = some high) : low ≤ high := by
  induction body generalizing low with
  | nil => simp at h; omega
  | cons sym body ih =>
    rw [List.foldlM_cons] at h
    obtain ⟨mid, hmid, hrest⟩ := Option.bind_eq_some_iff.1 h
    have := ih hrest
    unfold raise at hmid
    split at hmid
    · obtain ⟨k, -, rfl⟩ := Option.map_eq_some_iff.1 hmid; omega
    · cases hmid; exact this

theorem rank_lt_of_foldlM_raise {heights : Heights} {body : List Symbol} {low high : Nat}
    (hlow : 0 < low) (h : body.foldlM (g.raise heights) low = some high) {sym : Symbol}
    (hsym : sym ∈ body) : g.rank heights sym < high := by
  induction body generalizing low with
  | nil => simp at hsym
  | cons first body ih =>
    rw [List.foldlM_cons] at h
    obtain ⟨mid, hmid, hrest⟩ := Option.bind_eq_some_iff.1 h
    have hle := le_of_foldlM_raise hrest
    have hmid' : low ≤ mid ∧ g.rank heights first < mid := by
      unfold raise at hmid
      unfold rank
      split at hmid
      · next hn =>
        obtain ⟨k, hk, rfl⟩ := Option.map_eq_some_iff.1 hmid
        simp only [hn, hk, if_true, Option.getD_some]
        omega
      · next hn => cases hmid; simp [hn, hlow]
    rcases List.mem_cons.1 hsym with rfl | hrest'
    · omega
    · exact ih (by omega) hrest hrest'

theorem mem_shallowest_iff {heights : Heights} {head : Symbol} {body : List Symbol} :
    body ∈ g.shallowest heights head ↔
      ∃ height, heights.lookup head = some height ∧ body ∈ g.alternativesOf head ∧
        g.bodyHeight heights body = some height := by
  unfold shallowest
  cases heights.lookup head with
  | none => simp
  | some height => simp

/-- The nonterminals of a shallowest alternative are lower than its head. -/
theorem rank_lt_of_mem_shallowest {heights : Heights} {head sym : Symbol} {body : List Symbol}
    (hhead : g.isNonterminal head = true) (hbody : body ∈ g.shallowest heights head)
    (hsym : sym ∈ body) : g.rank heights sym < g.rank heights head := by
  obtain ⟨height, hheight, -, hb⟩ := mem_shallowest_iff.1 hbody
  have := rank_lt_of_foldlM_raise Nat.one_pos hb hsym
  simpa [rank, hhead, hheight] using this

end Grammar

end NaturalLanguage

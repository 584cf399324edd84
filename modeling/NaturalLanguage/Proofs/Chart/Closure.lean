import NaturalLanguage.Chart.Parse
import Mathlib.Order.Bounds.Defs

/-!
# The edges that a sentence calls for

Prediction, scanning and completion are rules that lead from edges to edges. A set of edges is
closed when no rule leads out of it, and the edges that the rules reach from the seed are the least
closed set. Nothing here depends on the order in which a parser finds them.

* `SeededRule`, `SeedUnused`: the rules of a grammar with the rule of the seed, and grammars that do
  not mention it.
* `Closed`: a set of edges that holds the seed and all that its members lead to.
* `Derivable`: the edges that the rules reach; `derivable_isLeast` says that they are the least
  closed set.
* `Derivable.seededRule`: the body of a derivable edge is one that its head may have there.
* `Derivable.take_stop`: a derivable edge has found the words between its two positions.
* `Derivable.of_part`: the parts of a derivable edge are finished derivable edges inside its span.
-/

namespace NaturalLanguage.Chart

open Edge

/-- The bodies that `head` may have at `position`: its alternatives, and at the beginning the start
symbol as the body of the seed. -/
def SeededRule (g : Grammar) (start : Symbol) (position : Nat) (head : Symbol)
    (body : List Symbol) : Prop :=
  body ∈ g.alternativesOf head ∨ position = 0 ∧ head = Run.seedHead ∧ body = [start]

/-- No rule of the grammar mentions the head of the seed. -/
def SeedUnused (g : Grammar) : Prop :=
  ∀ head, ∀ body ∈ g.alternativesOf head, Run.seedHead ∉ body

variable (g : Grammar) (words : List Word) (start : Symbol)

/-- A set of edges that no rule leads out of. -/
structure Closed (edges : Set Edge) : Prop where
  /-- The seed is in the set. -/
  seed : Run.seed start ∈ edges
  /-- All alternatives of an expected symbol are predicted where the edge stops. -/
  predict {e : Edge} {sym : Symbol} {body : List Symbol} : e ∈ edges → e.next? = some sym →
    body ∈ g.alternativesOf sym → .predict e.stop sym body ∈ edges
  /-- An expected symbol that accepts the next word is scanned. -/
  scan {e : Edge} {sym : Symbol} {word : Word} : e ∈ edges → e.next? = some sym →
    words[e.stop]? = some word → g.accepts sym word = true →
    e.advance (.word sym word) (e.stop + 1) ∈ edges
  /-- Every finished edge advances every edge that waits for it where it begins. -/
  complete {e part : Edge} : e ∈ edges → part ∈ edges → part.isComplete = true →
    e.stop = part.start → e.next? = some part.head → e.advance (.part part) part.stop ∈ edges

/-- The edges that are reached from the seed by prediction, scanning and completion. -/
inductive Derivable : Edge → Prop
  | seed : Derivable (Run.seed start)
  | predict {e : Edge} {sym : Symbol} {body : List Symbol} : Derivable e → e.next? = some sym →
      body ∈ g.alternativesOf sym → Derivable (.predict e.stop sym body)
  | scan {e : Edge} {sym : Symbol} {word : Word} : Derivable e → e.next? = some sym →
      words[e.stop]? = some word → g.accepts sym word = true →
      Derivable (e.advance (.word sym word) (e.stop + 1))
  | complete {e part : Edge} : Derivable e → Derivable part → part.isComplete = true →
      e.stop = part.start → e.next? = some part.head →
      Derivable (e.advance (.part part) part.stop)

variable {g words start}

/-- A closed set holds every derivable edge. -/
theorem Derivable.mem_of_closed {edges : Set Edge} (hclosed : Closed g words start edges)
    {e : Edge} (h : Derivable g words start e) : e ∈ edges := by
  induction h with
  | seed => exact hclosed.seed
  | predict _ hnext hbody ih => exact hclosed.predict ih hnext hbody
  | scan _ hnext hword haccepts ih => exact hclosed.scan ih hnext hword haccepts
  | complete _ _ hpart hstop hnext ih ihpart =>
    exact hclosed.complete ih ihpart hpart hstop hnext

/-- The derivable edges are the least closed set. -/
theorem derivable_isLeast :
    IsLeast {edges : Set Edge | Closed g words start edges} {e | Derivable g words start e} := by
  refine ⟨?_, ?_⟩
  · exact ⟨.seed, .predict, .scan, .complete⟩
  · -- the rules are the constructors, so a closed set cannot miss any derivable edge
    intro edges hclosed e he
    exact Derivable.mem_of_closed hclosed he

namespace Derivable

variable {e : Edge}

/-- What a derivable edge has found and still expects is a body that its head may have where the
edge starts. -/
theorem seededRule (h : Derivable g words start e) :
    SeededRule g start e.start e.head (e.found.map labelOf ++ e.expects) := by
  induction h with
  | seed => exact .inr ⟨rfl, rfl, rfl⟩
  | predict _ _ hbody _ => exact .inl hbody
  | scan _ hnext _ _ ih =>
    rw [labels_advance hnext]
    exact ih
  | complete _ _ _ _ hnext ih _ =>
    rw [labels_advance hnext]
    exact ih

/-- A derivable edge stops as many words after its start as it has found. -/
theorem stop_eq (h : Derivable g words start e) : e.stop = e.start + e.leaves.length := by
  induction h with
  | seed => rfl
  | predict => simp
  | scan _ _ _ _ ih => simp [leavesFound, ← Nat.add_assoc, ← ih]
  | complete _ _ _ hstop _ ih ihpart =>
    simp [leavesFound, ← Nat.add_assoc, ← ih, hstop, ← ihpart]

theorem start_le_stop (h : Derivable g words start e) : e.start ≤ e.stop := by
  rw [h.stop_eq]
  exact Nat.le_add_right _ _

theorem stop_le_length (h : Derivable g words start e) : e.stop ≤ words.length := by
  induction h with
  | seed => exact Nat.zero_le _
  | predict _ _ _ ih => exact ih
  | scan _ _ hword _ _ => exact (List.getElem?_eq_some_iff.1 hword).1
  | complete _ _ _ _ _ _ ihpart => exact ihpart

/-- The words up to the end of a derivable edge are those up to its start followed by those that it
has found. -/
theorem take_stop (h : Derivable g words start e) :
    words.take e.stop = words.take e.start ++ e.leaves := by
  induction h with
  | seed => rw [Run.seed, leaves_predict, List.append_nil, stop_predict, start_predict]
  | predict => rw [leaves_predict, List.append_nil, stop_predict, start_predict]
  | scan _ _ hword _ ih =>
    rw [stop_advance, start_advance, leaves_advance, ← List.append_assoc, ← ih, List.take_add_one,
      hword]
    rfl
  | complete _ _ _ hstop _ ih ihpart =>
    rw [stop_advance, start_advance, leaves_advance, ← List.append_assoc, ← ih, hstop]
    exact ihpart

/-- The parts of a derivable edge are finished derivable edges inside its span. -/
theorem of_part (h : Derivable g words start e) {part : Edge} (hmem : .part part ∈ e.found) :
    Derivable g words start part ∧ part.isComplete = true ∧ e.start ≤ part.start ∧
      part.stop ≤ e.stop := by
  induction h with
  | seed => simp [Run.seed] at hmem
  | predict => simp at hmem
  | scan h _ _ _ ih =>
    rw [found_advance, List.mem_append] at hmem
    rcases hmem with hmem | hmem
    · obtain ⟨hpart, hcomplete, hstart, hstop⟩ := ih hmem
      exact ⟨hpart, hcomplete, hstart, Nat.le_succ_of_le hstop⟩
    · simp at hmem
  | @complete e last h hlast hcomplete hstop _ ih _ =>
    -- the part is an earlier one, which lies before the last one, or the last one itself
    rw [found_advance, List.mem_append] at hmem
    rcases hmem with hmem | hmem
    · obtain ⟨hpart, hcomplete', hstart, hstop'⟩ := ih hmem
      exact ⟨hpart, hcomplete', hstart, Nat.le_trans hstop' (hstop ▸ hlast.start_le_stop)⟩
    · simp only [List.mem_singleton, Found.part.injEq] at hmem
      subst hmem
      exact ⟨hlast, hcomplete, hstop ▸ h.start_le_stop, Nat.le_refl _⟩

end Derivable

end NaturalLanguage.Chart

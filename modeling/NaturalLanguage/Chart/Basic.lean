import NaturalLanguage.Chart.Edge
import NaturalLanguage.OrderedSet

/-!
# Charts

A chart over a sentence has one slot for every position, before the first word to after the last.
A slot holds the edges that stop there, each once, in the order in which they were inserted.

* `Chart.insert`: insertion into the slot where an edge stops.
* `Chart.insert_of_contains`: inserting an edge again changes nothing.
* `Chart.size_insert`: insertion keeps the number of slots.
-/

namespace NaturalLanguage

/-- The edges that stop at one position, in the order of insertion. -/
abbrev Slot := OrderedSet Edge

/-- One slot for every position of a sentence. -/
structure Chart where
  slots : Array Slot

namespace Chart

/-- The chart without edges for a sentence of `words` words. -/
def empty (words : Nat) : Chart := ⟨Array.replicate (words + 1) ∅⟩

/-- The number of slots. -/
def size (c : Chart) : Nat := c.slots.size

/-- The edges of all slots, slot by slot. -/
def edges (c : Chart) : List Edge := c.slots.toList.flatMap (·.toList)

/-- The number of edges in all slots. -/
def numEdges (c : Chart) : Nat := c.edges.length

/-- The slot of a position. -/
def slot (c : Chart) (position : Nat) : Except ChartError Slot :=
  match c.slots[position]? with
  | some slot => .ok slot
  | none => .error (.noSlot position)

/-- Whether an edge is in the slot where it stops. -/
def contains (c : Chart) (e : Edge) : Bool :=
  match c.slots[e.stop]? with
  | some slot => e ∈ slot
  | none => false

/-- Insert an edge into the slot where it stops. -/
def insert (c : Chart) (e : Edge) : Except ChartError Chart :=
  if e.stop < c.size then .ok ⟨c.slots.modify e.stop (·.insert e)⟩ else .error (.noSlot e.stop)

/-- The finished edges of `sym` over the whole sentence. -/
def completeParses (c : Chart) (sym : Symbol) : List Edge :=
  (c.slots.back?.getD ∅).toList.filter fun e => e.start == 0 && e.head == sym && e.isComplete

@[simp] theorem size_empty (words : Nat) : (empty words).size = words + 1 := by
  simp [empty, size]

theorem size_insert {c c' : Chart} {e : Edge} (h : c.insert e = .ok c') : c'.size = c.size := by
  unfold insert at h
  split at h
  · cases h; simp [size]
  · cases h

theorem insert_of_contains {c : Chart} {e : Edge} (h : c.contains e = true) : c.insert e = .ok c := by
  unfold contains at h
  split at h
  · next slot hslot =>
    obtain ⟨hlt, rfl⟩ := Array.getElem?_eq_some_iff.1 hslot
    have hmem := of_decide_eq_true h
    rw [insert, if_pos (show e.stop < c.size from hlt)]
    congr 2
    -- the slot already holds `e`, so rewriting it gives the same slot
    apply Array.ext
    · simp
    · intro i hi hi'
      rw [Array.getElem_modify]
      split
      · next hie => subst hie; exact OrderedSet.insert_of_mem hmem
      · rfl
  · cases h

theorem insert_eq_error_iff {c : Chart} {e : Edge} {cause : ChartError} :
    c.insert e = .error cause ↔ c.size ≤ e.stop ∧ cause = .noSlot e.stop := by
  unfold insert
  split
  · next h => simp; omega
  · next h => simp [eq_comm]; omega

end Chart

end NaturalLanguage

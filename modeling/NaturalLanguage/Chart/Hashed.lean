import Mathlib.Data.List.Basic
import NaturalLanguage.Chart.Basic

/-!
# Charts with hash sets

A slot can keep its edges twice, in an array in the order in which they were inserted, and in a hash
set that knows which edges have been inserted before. Then an edge is compared with the edges of its
hash only, and by value, its parts included.

An insertion changes the chart and answers with the edge if it was new. At a missing slot it fails
and nothing changes.

* `HashedSlot.insert`, `HashedChart.insert`: insertion of an edge.
* `HashedChart.insertAll`: insertions one after the other, some of which may fail.
* `HashedChart.numEdges`, `HashedChart.completeParses`: what is read from a chart.
-/

namespace NaturalLanguage

namespace Edge

mutual
/-- The hash of an edge, parts included. -/
def hashCode : Edge → UInt64
  | ⟨start, stop, head, found, expects⟩ =>
    mixHash (mixHash (hash start) (hash stop))
      (mixHash (hash head) (mixHash (hashAll found) (hash expects)))

/-- The hash of a list of items. -/
def hashAll : List (Found Edge) → UInt64
  | [] => 7
  | item :: items => mixHash (hashFound item) (hashAll items)

/-- The hash of an item. -/
def hashFound : Found Edge → UInt64
  | .word category word => mixHash (hash category) (hash word)
  | .part e => mixHash 11 e.hashCode
end

instance : Hashable Edge := ⟨hashCode⟩

end Edge

/-- The edges that stop at one position, once in order and once as a set. -/
structure HashedSlot where
  /-- The edges, oldest first. -/
  order : Array Edge
  /-- The edges that have been inserted. -/
  members : Std.HashSet Edge

namespace HashedSlot

/-- The slot without edges. -/
def empty : HashedSlot := ⟨#[], ∅⟩

/-- Insert an edge and give it back if it is new. -/
def insert (s : HashedSlot) (e : Edge) : Option Edge × HashedSlot :=
  if s.members.contains e then (none, s) else (some e, ⟨s.order.push e, s.members.insert e⟩)

end HashedSlot

/-- One slot for every position of a sentence. -/
structure HashedChart where
  slots : Array HashedSlot

namespace HashedChart

/-- The chart without edges for a sentence of `words` words. -/
def empty (words : Nat) : HashedChart := ⟨Array.replicate (words + 1) .empty⟩

/-- Insert an edge into the slot where it stops and give it back if it is new. -/
def insert (c : HashedChart) (e : Edge) : Except ChartError (Option Edge) × HashedChart :=
  match c.slots[e.stop]? with
  | some slot =>
    let (new, slot) := slot.insert e
    (.ok new, ⟨c.slots.setIfInBounds e.stop slot⟩)
  | none => (.error (.noSlot e.stop), c)

/-- Insert some edges, first to last, whether or not insertions fail. -/
def insertAll (c : HashedChart) (edges : List Edge) : HashedChart :=
  edges.foldl (fun c e => (c.insert e).2) c

/-- Whether an edge is in the slot where it stops. -/
def contains (c : HashedChart) (e : Edge) : Bool :=
  match c.slots[e.stop]? with
  | some slot => slot.members.contains e
  | none => false

/-- The edges of the slot of a position, oldest first. -/
def edgesAt (c : HashedChart) (position : Nat) : List Edge :=
  (c.slots[position]?.getD .empty).order.toList

/-- The number of edges in all slots. -/
def numEdges (c : HashedChart) : Nat := c.slots.foldl (fun n slot => n + slot.order.size) 0

/-- The finished edges of `sym` over the whole sentence. -/
def completeParses (c : HashedChart) (sym : Symbol) : List Edge :=
  (c.slots.back?.getD .empty).order.toList.filter fun e =>
    e.start == 0 && e.head == sym && e.isComplete

theorem insert_of_slot {c : HashedChart} {e : Edge} {slot : HashedSlot}
    (h : c.slots[e.stop]? = some slot) :
    c.insert e =
      (.ok (slot.insert e).1, ⟨c.slots.setIfInBounds e.stop (slot.insert e).2⟩) := by
  rw [insert, h]

theorem insert_of_no_slot {c : HashedChart} {e : Edge} (h : c.slots[e.stop]? = none) :
    c.insert e = (.error (.noSlot e.stop), c) := by
  rw [insert, h]

end HashedChart

end NaturalLanguage

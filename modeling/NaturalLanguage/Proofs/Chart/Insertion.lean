import Mathlib.Data.List.Basic
import Mathlib.Data.Option.Basic
import NaturalLanguage.Chart.Hashed
import NaturalLanguage.Proofs.Chart.Storing
import NaturalLanguage.Proofs.Chart.Trace
import NaturalLanguage.Proofs.Grammar.Building

/-!
# A chart is a family of sets that remember their order

Edges may be inserted into a chart in any order, again and again, and also where the chart has no
slot. Every slot then has the edges that stop at its position, each once and where it was given
first. With hash sets the list and the set of a slot have the same edges at every moment, so a chart
with hash sets is a chart without them.

* `Chart.getElem?_insertAll`: the slots after some insertions.
* `HashedSlot.Represents`, `HashedChart.Represents`: the chart for which a chart with hash sets
  stands, and `Represents.insert`, what one insertion does to both.
* `HashedChart.Holds`: the chart of some edges.
* `HashedChart.insertAll_exact`: what a chart holds after any insertions.
-/

namespace NaturalLanguage

namespace Chart

/-- Insert an edge. A chart that has no slot for it stays as it is. -/
def insertOrKeep (c : Chart) (e : Edge) : Chart := (c.insert e).toOption.getD c

/-- Insert some edges, first to last, whether or not insertions fail. -/
def insertAll (c : Chart) (edges : List Edge) : Chart := edges.foldl insertOrKeep c

variable {c : Chart} {e : Edge} {position words : ℕ} {given : List Edge}

/-- An edge goes into the slot where it stops, if there is one, and into no other slot. -/
theorem getElem?_insertOrKeep (c : Chart) (e : Edge) (position : ℕ) :
    (c.insertOrKeep e).slots[position]? =
      if e.stop = position then c.slots[position]?.map (·.insert e) else c.slots[position]? := by
  unfold insertOrKeep Chart.insert
  by_cases hlt : e.stop < c.size
  · rw [if_pos hlt]
    exact Array.getElem?_modify
  · rw [if_neg hlt]
    show c.slots[position]? = _
    split
    · next hstop =>
      -- there is no slot into which the edge could go
      rw [Array.getElem?_eq_none (hstop ▸ Nat.le_of_not_lt hlt)]
      rfl
    · rfl

/-- Every slot takes the edges that stop at its position, first to last. -/
theorem getElem?_insertAll (c : Chart) (given : List Edge) (position : ℕ) :
    (c.insertAll given).slots[position]? =
      c.slots[position]?.map (·.insertAll (given.filter (·.stop = position))) := by
  induction given generalizing c with
  | nil => simp [insertAll]
  | cons e given ih =>
    show ((c.insertOrKeep e).insertAll given).slots[position]? = _
    rw [ih, getElem?_insertOrKeep]
    split
    · next hstop =>
      rw [Option.map_map, List.filter_cons, if_pos (decide_eq_true hstop)]
      rfl
    · next hstop =>
      -- an edge that stops elsewhere passes this slot by
      rw [List.filter_cons, if_neg (by simpa using hstop)]

theorem size_insertAll (c : Chart) (given : List Edge) : (c.insertAll given).size = c.size := by
  have hsize : ∀ d : Chart, ∀ e : Edge, (d.insertOrKeep e).size = d.size := by
    intro d e
    unfold insertOrKeep
    cases hinsert : d.insert e with
    | ok d' => exact size_insert hinsert
    | error cause => rfl
  induction given generalizing c with
  | nil => rfl
  | cons e given ih => exact (ih _).trans (hsize c e)

/-- A slot has the edges that stop at its position, each where it was given first. -/
theorem edgesAt_insertAll (given : List Edge) (h : position ≤ words) :
    ((empty words).insertAll given).edgesAt position =
      (given.filter (·.stop = position)).eraseDups := by
  have hslot : (empty words).slots[position]? = some ∅ := by
    rw [empty, Array.getElem?_replicate, if_pos (Nat.lt_succ_of_le h)]
  rw [edgesAt, getElem?_insertAll, hslot, ← OrderedSet.toList_ofList]
  rfl

theorem edgesAt_insertAll_of_lt (given : List Edge) (h : words < position) :
    ((empty words).insertAll given).edgesAt position = [] := by
  have hslot : (empty words).slots[position]? = none := by
    refine Array.getElem?_eq_none ?_
    rw [empty, Array.size_replicate]
    exact h
  rw [edgesAt, getElem?_insertAll, hslot]
  rfl

theorem mem_edgesAt_insertAll_iff : e ∈ ((empty words).insertAll given).edgesAt position ↔
    e ∈ given ∧ e.stop = position ∧ position ≤ words := by
  obtain hlt | hle := Nat.lt_or_ge words position
  · rw [edgesAt_insertAll_of_lt given hlt]
    simp [Nat.not_le.2 hlt]
  · rw [edgesAt_insertAll given hle, List.mem_eraseDups]
    simp [hle]

theorem aligned_insertAll (words : ℕ) (given : List Edge) :
    ((empty words).insertAll given).Aligned :=
  fun _ _ he => (mem_edgesAt_insertAll_iff.1 he).2.1

/-- The edges of the chart are those that were given and had a slot. -/
theorem contains_insertAll_iff :
    ((empty words).insertAll given).contains e = true ↔ e ∈ given ∧ e.stop ≤ words := by
  rw [Chart.contains_iff, mem_edgesAt_insertAll_iff]
  simp

/-- No edge is in two slots, so the edges of all slots are as many as there are different ones. -/
theorem numEdges_insertAll (words : ℕ) (given : List Edge) :
    ((empty words).insertAll given).numEdges =
      (given.filter (·.stop ≤ words)).eraseDups.length := by
  have hdistinct : (given.filter (·.stop ≤ words)).eraseDups.Nodup := by
    rw [← OrderedSet.toList_ofList]
    exact OrderedSet.nodup _
  have haligned := aligned_insertAll words given
  -- neither list has repeats, so they are equally long if they have the same members
  refine ((List.perm_ext_iff_of_nodup (nodup_edges haligned) hdistinct).2 fun e => ?_).length_eq
  rw [mem_edges_iff haligned, contains_insertAll_iff, List.mem_eraseDups]
  simp

theorem completeParses_insertAll (words : ℕ) (given : List Edge) (sym : Symbol) :
    ((empty words).insertAll given).completeParses sym =
      (given.filter (·.stop = words)).eraseDups.filter fun e =>
        e.start == 0 && e.head == sym && e.isComplete := by
  rw [completeParses_eq, size_insertAll, size_empty, Nat.add_sub_cancel,
    edgesAt_insertAll given le_rfl]

end Chart

/-! ### Lists and sets side by side -/

/-- The list and the set of a slot both have the edges of an ordered set. -/
structure HashedSlot.Represents (s : HashedSlot) (slot : Slot) : Prop where
  toList_order : s.order.toList = slot.toList
  mem_members_iff (e : Edge) : e ∈ s.members ↔ e ∈ slot

namespace HashedSlot.Represents

variable {s : HashedSlot} {slot : Slot}

theorem empty : HashedSlot.empty.Represents ∅ where
  toList_order := rfl
  mem_members_iff e := by simp [HashedSlot.empty]

theorem contains_iff (h : s.Represents slot) {e : Edge} :
    s.members.contains e = true ↔ e ∈ slot := by
  rw [Std.HashSet.contains_iff_mem, h.mem_members_iff]

/-- The set is asked whether an edge is new, and then list and set both get it. -/
theorem insert (h : s.Represents slot) (e : Edge) :
    (s.insert e).1 = (if e ∈ slot then none else some e) ∧
      (s.insert e).2.Represents (slot.insert e) := by
  unfold HashedSlot.insert
  by_cases he : e ∈ slot
  · rw [if_pos (h.contains_iff.2 he), if_pos he, OrderedSet.insert_of_mem he]
    exact ⟨rfl, h⟩
  · rw [if_neg (he ∘ h.contains_iff.1), if_neg he]
    refine ⟨rfl, ?_, fun d => ?_⟩
    · rw [OrderedSet.toList_insert_of_not_mem he, ← h.toList_order, Array.toList_push]
    · rw [Std.HashSet.mem_insert, h.mem_members_iff, OrderedSet.mem_insert, or_comm, beq_iff_eq,
        eq_comm]

end HashedSlot.Represents

namespace HashedChart

/-- Slot by slot, the chart stands for a chart without hash sets. -/
def Represents (t : HashedChart) (c : Chart) : Prop :=
  ∀ position : ℕ, Option.Rel HashedSlot.Represents t.slots[position]? c.slots[position]?

namespace Represents

variable {t : HashedChart} {c : Chart} {e : Edge} {position : ℕ}

theorem empty (words : ℕ) : (HashedChart.empty words).Represents (Chart.empty words) := by
  intro position
  rw [HashedChart.empty, Chart.empty, Array.getElem?_replicate, Array.getElem?_replicate]
  split
  · exact .some .empty
  · exact .none

/-- The slots of a position, if there are any. -/
theorem slot_cases (h : t.Represents c) (position : ℕ) :
    (∃ s slot, t.slots[position]? = some s ∧ c.slots[position]? = some slot ∧
      s.Represents slot) ∨ t.slots[position]? = none ∧ c.slots[position]? = none := by
  have hrel := h position
  generalize t.slots[position]? = left, c.slots[position]? = right at hrel ⊢
  cases hrel with
  | some hrepresents => exact .inl ⟨_, _, rfl, rfl, hrepresents⟩
  | none => exact .inr ⟨rfl, rfl⟩

/-- Where there is no slot, the insertion fails and the chart is the one before. -/
theorem insert_of_le (h : t.Represents c) (hstop : c.size ≤ e.stop) :
    t.insert e = (.error (.noSlot e.stop), t) := by
  have hnone : c.slots[e.stop]? = none := Array.getElem?_eq_none hstop
  obtain ⟨s, slot, -, hslot, -⟩ | ⟨hs, -⟩ := h.slot_cases e.stop
  · rw [hnone] at hslot
    cases hslot
  · exact insert_of_no_slot hs

/-- Where there is a slot, the answer is the edge if it is new there. -/
theorem insert_fst (h : t.Represents c) (hstop : e.stop < c.size) :
    (t.insert e).1 = .ok (if c.contains e then none else some e) := by
  obtain ⟨s, slot, hs, hslot, hrepresents⟩ | ⟨-, hslot⟩ := h.slot_cases e.stop
  · have hcontains : c.contains e = decide (e ∈ slot) := by rw [Chart.contains, hslot]
    rw [insert_of_slot hs, (hrepresents.insert e).1, hcontains]
    simp only [decide_eq_true_eq]
  · rw [Array.getElem?_eq_getElem hstop] at hslot
    cases hslot

/-- The chart after an insertion stands for the other chart after the same insertion, whether or not
it fails. -/
theorem insert (h : t.Represents c) (e : Edge) :
    (t.insert e).2.Represents (c.insertOrKeep e) := by
  intro position
  rw [Chart.getElem?_insertOrKeep]
  obtain ⟨s, slot, hs, hslot, hrepresents⟩ | ⟨hs, hslot⟩ := h.slot_cases e.stop
  · have hlt := (Array.getElem?_eq_some_iff.1 hs).1
    rw [insert_of_slot hs, Array.getElem?_setIfInBounds]
    by_cases hstop : e.stop = position
    · rw [if_pos hstop, if_pos hlt, if_pos hstop, ← hstop, hslot]
      exact .some (hrepresents.insert e).2
    · rw [if_neg hstop, if_neg hstop]
      exact h position
  · rw [insert_of_no_slot hs]
    split
    · next hstop =>
      -- no slot has changed, since there is none
      rw [← hstop, hs, hslot]
      exact .none
    · exact h position

theorem insertAll (h : t.Represents c) (given : List Edge) :
    (t.insertAll given).Represents (c.insertAll given) := by
  induction given generalizing t c with
  | nil => exact h
  | cons e given ih => exact ih (h.insert e)

theorem map_slots_eq (h : t.Represents c) :
    t.slots.toList.map (·.order.toList) = c.slots.toList.map (·.toList) := by
  refine List.ext_getElem? fun position => ?_
  rw [List.getElem?_map, List.getElem?_map, Array.getElem?_toList, Array.getElem?_toList]
  obtain ⟨s, slot, hs, hslot, hrepresents⟩ | ⟨hs, hslot⟩ := h.slot_cases position
  · rw [hs, hslot, Option.map_some, Option.map_some, hrepresents.toList_order]
  · rw [hs, hslot]
    rfl

theorem size_eq (h : t.Represents c) : t.slots.size = c.size := by
  have hlength := congrArg List.length h.map_slots_eq
  rwa [List.length_map, List.length_map, Array.length_toList, Array.length_toList] at hlength

theorem contains_eq (h : t.Represents c) (e : Edge) : t.contains e = c.contains e := by
  obtain ⟨s, slot, hs, hslot, hrepresents⟩ | ⟨hs, hslot⟩ := h.slot_cases e.stop
  · rw [HashedChart.contains, hs, Chart.contains, hslot, Bool.eq_iff_iff]
    exact hrepresents.contains_iff.trans decide_eq_true_iff.symm
  · rw [HashedChart.contains, hs, Chart.contains, hslot]

theorem edgesAt_eq (h : t.Represents c) (position : ℕ) :
    t.edgesAt position = c.edgesAt position := by
  obtain ⟨s, slot, hs, hslot, hrepresents⟩ | ⟨hs, hslot⟩ := h.slot_cases position
  · rw [HashedChart.edgesAt, hs, Chart.edgesAt, hslot]
    exact hrepresents.toList_order
  · rw [HashedChart.edgesAt, hs, Chart.edgesAt, hslot]
    rfl

theorem numEdges_eq (h : t.Represents c) : t.numEdges = c.numEdges := by
  have hsizes : t.numEdges = ((t.slots.toList.map (·.order.toList)).map List.length).sum := by
    rw [List.map_map, List.sum_eq_foldl, List.foldl_map, HashedChart.numEdges, ← Array.foldl_toList]
    rfl
  rw [hsizes, h.map_slots_eq, List.map_map, Chart.numEdges, Chart.edges, List.length_flatMap]
  rfl

theorem completeParses_eq (h : t.Represents c) (sym : Symbol) :
    t.completeParses sym = c.completeParses sym := by
  rw [HashedChart.completeParses, Array.back?, h.size_eq, Chart.completeParses_eq, ← h.edgesAt_eq]
  rfl

/-- An edge that is in the chart changes nothing. -/
theorem insert_snd_of_contains (h : t.Represents c) (he : c.contains e = true) :
    (t.insert e).2 = t := by
  obtain ⟨s, slot, hs, hslot, hrepresents⟩ | ⟨hs, -⟩ := h.slot_cases e.stop
  · have hmem : e ∈ slot := by
      rw [Chart.contains, hslot] at he
      exact of_decide_eq_true he
    obtain ⟨hlt, rfl⟩ := Array.getElem?_eq_some_iff.1 hs
    -- the slot is put back where it was
    rw [insert_of_slot hs, HashedSlot.insert, if_pos (hrepresents.contains_iff.2 hmem),
      Array.setIfInBounds_def, dif_pos hlt, Array.set_getElem_self]
  · rw [insert_of_no_slot hs]

/-- In every slot the list and the set have the same edges, and the list has each of them once. -/
theorem slot_inStep (h : t.Represents c) {s : HashedSlot} (hs : s ∈ t.slots) :
    s.order.toList.Nodup ∧ ∀ e, e ∈ s.members ↔ e ∈ s.order := by
  obtain ⟨position, hposition⟩ := Array.mem_iff_getElem?.1 hs
  obtain ⟨s', slot, hs', -, hrepresents⟩ | ⟨hs', -⟩ := h.slot_cases position
  · obtain rfl : s = s' := Option.some.inj (hposition.symm.trans hs')
    refine ⟨hrepresents.toList_order ▸ slot.nodup, fun e => ?_⟩
    rw [hrepresents.mem_members_iff, OrderedSet.mem_def, ← hrepresents.toList_order,
      Array.mem_toList_iff]
  · rw [hs'] at hposition
    cases hposition

end Represents

/-! ### The chart after any insertions -/

/-- The chart is what a chart for `words` words has to be after the edges of a list were given to it
in this order. -/
structure Holds (t : HashedChart) (words : ℕ) (given : List Edge) : Prop where
  size_eq : t.slots.size = words + 1
  /-- An edge that stops behind the last slot is refused, and the chart stays as it is. -/
  insert_of_lt (e : Edge) : words < e.stop → t.insert e = (.error (.noSlot e.stop), t)
  /-- Any other edge is given back exactly if no equal edge was given before. -/
  insert_fst (e : Edge) : e.stop ≤ words →
    (t.insert e).1 = .ok (if e ∈ given then none else some e)
  /-- An edge that was given before changes nothing. -/
  insert_snd_of_mem (e : Edge) : e ∈ given → (t.insert e).2 = t
  /-- A slot has the different edges that stop at its position, where they were given first. -/
  edgesAt_eq (position : ℕ) : position ≤ words →
    t.edgesAt position = (given.filter (·.stop = position)).eraseDups
  contains_iff (e : Edge) : t.contains e = true ↔ e ∈ given ∧ e.stop ≤ words
  numEdges_eq : t.numEdges = (given.filter (·.stop ≤ words)).eraseDups.length
  completeParses_eq (sym : Symbol) : t.completeParses sym = (t.edgesAt words).filter fun e =>
    e.start = 0 ∧ e.head = sym ∧ e.expects = []
  /-- The list and the set of every slot have the same edges, and the list has each of them once. -/
  slot_inStep : ∀ s ∈ t.slots, s.order.toList.Nodup ∧ ∀ e, e ∈ s.members ↔ e ∈ s.order

/-- The chart says the same of all edges as the other one, and so do the charts after one more
insertion. -/
structure Agrees (t : HashedChart) (c : Chart) : Prop where
  size_eq : t.slots.size = c.size
  insert_fst (e : Edge) :
    (t.insert e).1 = (c.insert e).map fun _ => if c.contains e then none else some e
  edgesAt_insert (e : Edge) (position : ℕ) :
    (t.insert e).2.edgesAt position = (c.insertOrKeep e).edgesAt position
  edgesAt_eq (position : ℕ) : t.edgesAt position = c.edgesAt position
  contains_eq (e : Edge) : t.contains e = c.contains e
  numEdges_eq : t.numEdges = c.numEdges
  completeParses_eq (sym : Symbol) : t.completeParses sym = c.completeParses sym

theorem Represents.agrees {t : HashedChart} {c : Chart} (h : t.Represents c) : t.Agrees c where
  size_eq := h.size_eq
  insert_fst e := by
    obtain hlt | hle := Nat.lt_or_ge e.stop c.size
    · rw [h.insert_fst hlt, Chart.insert, if_pos hlt]
      rfl
    · rw [h.insert_of_le hle, Chart.insert, if_neg (Nat.not_lt.2 hle)]
      rfl
  edgesAt_insert e position := (h.insert e).edgesAt_eq position
  edgesAt_eq := h.edgesAt_eq
  contains_eq := h.contains_eq
  numEdges_eq := h.numEdges_eq
  completeParses_eq := h.completeParses_eq

/-- After any insertions, of edges that are given again or stop behind the last slot as well, a
chart has exactly the different edges that have a slot, and it agrees with the chart without hash
sets. -/
theorem insertAll_exact (words : ℕ) (given : List Edge) :
    ((empty words).insertAll given).Holds words given ∧
      ((empty words).insertAll given).Agrees ((Chart.empty words).insertAll given) := by
  have h := (Represents.empty words).insertAll given
  have hsize : ((Chart.empty words).insertAll given).size = words + 1 := by
    rw [Chart.size_insertAll, Chart.size_empty]
  refine ⟨?_, h.agrees⟩
  exact {
    size_eq := h.size_eq.trans hsize
    insert_of_lt := fun e he => h.insert_of_le (hsize ▸ he)
    insert_fst := fun e he => by
      rw [h.insert_fst (hsize ▸ Nat.lt_succ_of_le he)]
      simp only [Chart.contains_insertAll_iff, he, and_true]
    insert_snd_of_mem := fun e he => by
      obtain hlt | hle := Nat.lt_or_ge words e.stop
      · rw [h.insert_of_le (hsize ▸ hlt)]
      · exact h.insert_snd_of_contains (Chart.contains_insertAll_iff.2 ⟨he, hle⟩)
    edgesAt_eq := fun position hle => by
      rw [h.edgesAt_eq, Chart.edgesAt_insertAll given hle]
    contains_iff := fun e => by rw [h.contains_eq, Chart.contains_insertAll_iff]
    numEdges_eq := by rw [h.numEdges_eq, Chart.numEdges_insertAll]
    completeParses_eq := fun sym => by
      rw [h.completeParses_eq, Chart.completeParses_insertAll, h.edgesAt_eq,
        Chart.edgesAt_insertAll given le_rfl]
      refine List.filter_congr fun e _ => ?_
      rw [Bool.eq_iff_iff]
      simp [and_assoc]
    slot_inStep := fun s hs => h.slot_inStep hs }

end HashedChart

end NaturalLanguage

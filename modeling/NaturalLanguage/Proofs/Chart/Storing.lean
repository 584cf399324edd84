import NaturalLanguage.Chart.Parse

/-!
# Storing edges in a run

What a run has stored is read off slot by slot. Storing edges appends those that are new, in order,
to the slots where they stop, to the agenda and to the log, and it fails only at a missing slot.

* `Chart.edgesAt`: the edges of a slot as a list, and `Chart.Aligned`: every edge is in the slot
  where it stops.
* `Chart.mem_edges_iff`, `Chart.mem_completeParses_iff`: aligned charts through `Chart.contains`.
* `Run.Stores`: one run is another one after some fresh edges were stored.
* `Run.exists_addAll`, `Run.exists_addAll_mapM`: storing edges that have a slot succeeds.
-/

namespace NaturalLanguage

namespace Chart

/-- The edges of the slot of a position, oldest first; a position without a slot has none. -/
def edgesAt (c : Chart) (position : Nat) : List Edge := (c.slots[position]?.getD ∅).toList

/-- Every edge is in the slot where it stops. -/
def Aligned (c : Chart) : Prop := ∀ position, ∀ e ∈ c.edgesAt position, e.stop = position

variable {c c' : Chart} {e : Edge} {position : Nat}

theorem nodup_edgesAt (c : Chart) (position : Nat) : (c.edgesAt position).Nodup :=
  OrderedSet.nodup _

theorem edgesAt_of_slot {slot : Slot} (h : c.slots[position]? = some slot) :
    c.edgesAt position = slot.toList := by
  rw [edgesAt, h, Option.getD_some]

@[simp] theorem edgesAt_empty (words position : Nat) : (empty words).edgesAt position = [] := by
  rw [edgesAt, empty, Array.getElem?_replicate]
  split <;> rfl

/-- A position within the chart has a slot. -/
theorem exists_slot (h : position < c.size) :
    ∃ slot, c.slot position = .ok slot ∧ slot.toList = c.edgesAt position := by
  have hslot : c.slots[position]? = some c.slots[position] := Array.getElem?_eq_getElem h
  refine ⟨c.slots[position], ?_, (edgesAt_of_slot hslot).symm⟩
  rw [slot, hslot]

theorem contains_iff : c.contains e = true ↔ e ∈ c.edgesAt e.stop := by
  unfold contains edgesAt
  cases c.slots[e.stop]? with
  | none => simp
  | some slot => simp [OrderedSet.mem_def]

theorem mem_edgesAt_iff (hc : c.Aligned) :
    e ∈ c.edgesAt position ↔ c.contains e = true ∧ e.stop = position := by
  rw [contains_iff]
  constructor
  · intro he
    have hstop := hc position e he
    exact ⟨hstop ▸ he, hstop⟩
  · rintro ⟨he, rfl⟩
    exact he

/-- The edges of an aligned chart are those that it contains. -/
theorem mem_edges_iff (hc : c.Aligned) : e ∈ c.edges ↔ c.contains e = true := by
  rw [edges, List.mem_flatMap]
  constructor
  · rintro ⟨slot, hslot, he⟩
    obtain ⟨position, hposition⟩ := Array.mem_iff_getElem?.1 (Array.mem_toList_iff.1 hslot)
    rw [← edgesAt_of_slot hposition] at he
    exact ((mem_edgesAt_iff hc).1 he).1
  · intro he
    unfold contains at he
    split at he
    · next slot hslot =>
      exact ⟨slot, Array.mem_toList_iff.2 (Array.mem_of_getElem? hslot), of_decide_eq_true he⟩
    · cases he

theorem completeParses_eq (c : Chart) (sym : Symbol) :
    c.completeParses sym = (c.edgesAt (c.size - 1)).filter fun e =>
      e.start == 0 && e.head == sym && e.isComplete := by
  rw [completeParses, edgesAt, Array.back?]
  rfl

theorem nodup_completeParses (c : Chart) (sym : Symbol) : (c.completeParses sym).Nodup := by
  rw [completeParses_eq]
  exact (c.nodup_edgesAt _).filter _

theorem mem_completeParses_iff {words : Nat} {sym : Symbol} (hc : c.Aligned)
    (hsize : c.size = words + 1) :
    e ∈ c.completeParses sym ↔ c.contains e = true ∧ e.stop = words ∧ e.start = 0 ∧
      e.head = sym ∧ e.isComplete = true := by
  rw [completeParses_eq, List.mem_filter, mem_edgesAt_iff hc, hsize, Nat.add_sub_cancel]
  simp only [Bool.and_eq_true, beq_iff_eq, and_assoc]

/-- A new edge comes last in its slot, and the other slots stay as they are. -/
theorem edgesAt_insert (h : c.insert e = .ok c') (hnew : c.contains e = false) (position : Nat) :
    c'.edgesAt position = c.edgesAt position ++ [e].filter (·.stop == position) := by
  unfold insert at h
  split at h
  · next hlt =>
    cases h
    rw [edgesAt, Array.getElem?_modify]
    by_cases hstop : e.stop = position
    · subst hstop
      have hslot : c.slots[e.stop]? = some c.slots[e.stop] := Array.getElem?_eq_getElem hlt
      have hmem : ¬ e ∈ c.slots[e.stop] := by
        intro hmem
        rw [Bool.eq_false_iff, ne_eq, contains_iff, edgesAt_of_slot hslot] at hnew
        exact hnew hmem
      rw [if_pos rfl, edgesAt_of_slot hslot, hslot]
      simpa using OrderedSet.toList_insert_of_not_mem hmem
    · simp [hstop, edgesAt]
  · cases h

end Chart

namespace Chart.Run

/-- `run'` is `run` after the edges of `fresh` were stored in this order. -/
structure Stores (run : Run) (fresh : List Edge) (run' : Run) : Prop where
  /-- The chart has the same slots. -/
  size : run'.chart.size = run.chart.size
  /-- Every slot grows by the fresh edges that stop there. -/
  edgesAt (position : Nat) : run'.chart.edgesAt position =
    run.chart.edgesAt position ++ fresh.filter (·.stop == position)
  /-- The fresh edges wait behind those that waited before. -/
  agenda : run'.agenda = run.agenda ++ fresh
  /-- The fresh edges are logged. -/
  log : run'.log.toList = run.log.toList ++ fresh
  /-- No fresh edge was stored before. -/
  new {e : Edge} : e ∈ fresh → run.chart.contains e = false
  /-- No edge is fresh twice. -/
  nodup : fresh.Nodup

namespace Stores

variable {run run' run'' : Run} {fresh fresh' : List Edge} {e : Edge}

theorem refl (run : Run) : Stores run [] run :=
  ⟨rfl, by simp, by simp, by simp, by simp, .nil⟩

theorem contains_iff (h : Stores run fresh run') :
    run'.chart.contains e = true ↔ run.chart.contains e = true ∨ e ∈ fresh := by
  rw [Chart.contains_iff, Chart.contains_iff, h.edgesAt, List.mem_append]
  simp

theorem contains_of_contains (h : Stores run fresh run') (he : run.chart.contains e = true) :
    run'.chart.contains e = true :=
  h.contains_iff.2 (.inl he)

theorem aligned (h : Stores run fresh run') (hc : run.chart.Aligned) : run'.chart.Aligned := by
  intro position e he
  rw [h.edgesAt, List.mem_append, List.mem_filter, beq_iff_eq] at he
  rcases he with he | he
  · exact hc position e he
  · exact he.2

theorem trans (h : Stores run fresh run') (h' : Stores run' fresh' run'') :
    Stores run (fresh ++ fresh') run'' where
  size := h'.size.trans h.size
  edgesAt position := by
    rw [h'.edgesAt, h.edgesAt, List.filter_append, List.append_assoc]
  agenda := by rw [h'.agenda, h.agenda, List.append_assoc]
  log := by rw [h'.log, h.log, List.append_assoc]
  new {e} he := by
    rcases List.mem_append.1 he with he | he
    · exact h.new he
    · have hnew := h'.new he
      rw [Bool.eq_false_iff] at hnew ⊢
      exact fun hc => hnew (h.contains_of_contains hc)
  nodup := by
    refine List.nodup_append.2 ⟨h.nodup, h'.nodup, ?_⟩
    rintro e he _ he' rfl
    have hstored := h.contains_iff.2 (.inr he)
    rw [h'.new he'] at hstored
    cases hstored

end Stores

variable {run : Run}

/-- Applying an operation to every member of a list succeeds if it does for each of them. -/
private theorem mapM_eq_ok {α β ε : Type} {f : α → Except ε β} {value : α → β} {items : List α}
    (h : ∀ a ∈ items, f a = .ok (value a)) : items.mapM f = .ok (items.map value) := by
  induction items with
  | nil => rfl
  | cons a items ih =>
    rw [List.mapM_cons, h a List.mem_cons_self, ih fun b hb => h b (List.mem_cons_of_mem a hb)]
    rfl

/-- Storing an edge that has a slot succeeds, and only an edge that is new is fresh. -/
theorem exists_add {e : Edge} (h : e.stop < run.chart.size) :
    ∃ fresh run', run.add e = .ok run' ∧ Stores run fresh run' ∧ fresh ⊆ [e] ∧
      run'.chart.contains e = true := by
  by_cases hc : run.chart.contains e = true
  · refine ⟨[], run, ?_, .refl run, List.nil_subset _, hc⟩
    rw [add, if_pos hc]
    rfl
  · have hnew : run.chart.contains e = false := by simpa using hc
    obtain ⟨chart, hchart⟩ : ∃ chart, run.chart.insert e = .ok chart := ⟨_, if_pos h⟩
    have hstores : Stores run [e] ⟨chart, run.agenda ++ [e], run.log.push e⟩ :=
      { size := size_insert hchart
        edgesAt := edgesAt_insert hchart hnew
        agenda := rfl
        log := by simp
        new := by simpa using hnew
        nodup := by simp }
    refine ⟨[e], _, ?_, hstores, List.Subset.refl _, hstores.contains_iff.2 (.inr (by simp))⟩
    rw [add, if_neg hc, hchart]
    rfl

/-- Storing edges that have a slot succeeds, and all of them are in the chart afterwards. -/
theorem exists_addAll {run : Run} {edges : List Edge}
    (h : ∀ e ∈ edges, e.stop < run.chart.size) :
    ∃ fresh run', run.addAll edges = .ok run' ∧ Stores run fresh run' ∧ fresh ⊆ edges ∧
      ∀ e ∈ edges, run'.chart.contains e = true := by
  induction edges generalizing run with
  | nil => exact ⟨[], run, rfl, .refl run, List.Subset.refl _, by simp⟩
  | cons e edges ih =>
    obtain ⟨fresh₁, run₁, hadd, hstores₁, hfresh₁, he⟩ := exists_add (h e List.mem_cons_self)
    have hslots : ∀ d ∈ edges, d.stop < run₁.chart.size := by
      intro d hd
      rw [hstores₁.size]
      exact h d (List.mem_cons_of_mem e hd)
    obtain ⟨fresh₂, run₂, hall, hstores₂, hfresh₂, hedges⟩ := ih hslots
    refine ⟨fresh₁ ++ fresh₂, run₂, ?_, hstores₁.trans hstores₂, ?_, ?_⟩
    · rw [addAll, List.foldlM_cons, hadd]
      exact hall
    · intro d hd
      rcases List.mem_append.1 hd with hd | hd
      · exact List.mem_cons.2 (.inl (List.mem_singleton.1 (hfresh₁ hd)))
      · exact List.mem_cons_of_mem e (hfresh₂ hd)
    · intro d hd
      rcases List.mem_cons.1 hd with rfl | hd
      · exact hstores₂.contains_of_contains he
      · exact hedges d hd

/-- Advancing the edges that some items stand for and storing the results succeeds if every advance
fits and has a slot. -/
theorem exists_addAll_mapM {α : Type} {items : List α} {advanced : α → Except ChartError Edge}
    {value : α → Edge} (hadvanced : ∀ a ∈ items, advanced a = .ok (value a))
    (h : ∀ a ∈ items, (value a).stop < run.chart.size) :
    ∃ fresh run', items.mapM advanced >>= run.addAll = .ok run' ∧ Stores run fresh run' ∧
      (∀ e ∈ fresh, ∃ a ∈ items, value a = e) ∧
      ∀ a ∈ items, run'.chart.contains (value a) = true := by
  have hslots : ∀ e ∈ items.map value, e.stop < run.chart.size := by
    intro e he
    obtain ⟨a, ha, rfl⟩ := List.mem_map.1 he
    exact h a ha
  obtain ⟨fresh, run', hadd, hstores, hfresh, hall⟩ := exists_addAll hslots
  refine ⟨fresh, run', ?_, hstores, ?_, ?_⟩
  · rw [mapM_eq_ok hadvanced]
    exact hadd
  · intro e he
    exact List.mem_map.1 (hfresh he)
  · intro a ha
    exact hall _ (List.mem_map_of_mem ha)

end Chart.Run

end NaturalLanguage

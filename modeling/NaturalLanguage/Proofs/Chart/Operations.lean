import NaturalLanguage.Proofs.Chart.Storing

/-!
# What the operations of a parse store

Every operation reads a slot, advances some of its edges and stores the results. In an aligned chart
with the slots that are needed it succeeds. What is fresh afterwards are advances of stored edges,
and every advance that the operation is about is stored.

* `mem_predictions_iff`, `mem_emptyParts_iff`, `mem_waiting_iff`, `mem_scannable_iff`: what is read.
* `exists_addAll_predictions`, `exists_addAll_emptyParts`: the two halves of `predict`.
* `exists_complete`, `exists_scan`: advances over a finished edge and over a word.
-/

namespace NaturalLanguage.Chart.Run

open Edge

/-! ### What the operations read -/

variable {g : Grammar} {run : Run} {slot : Slot} {e part : Edge} {word : Word}

theorem mem_predictions_iff {d : Edge} : d ∈ predictions g e ↔
    ∃ sym, e.next? = some sym ∧ ∃ body ∈ g.alternativesOf sym, .predict e.stop sym body = d := by
  unfold predictions
  cases e.next? with
  | none => simp
  | some sym => simp

theorem mem_emptyParts_iff : part ∈ emptyParts slot e ↔
    part ∈ slot.toList ∧ part.isComplete = true ∧ part.start = e.stop ∧
      e.next? = some part.head := by
  simp only [emptyParts, List.mem_filter, Bool.and_eq_true, beq_iff_eq, and_assoc,
    eq_comm (b := e.next?)]

theorem mem_waiting_iff :
    e ∈ waiting slot part ↔ e ∈ slot.toList ∧ e.next? = some part.head := by
  rw [waiting, List.mem_filter, beq_iff_eq]

theorem mem_scannable_iff {sym : Symbol} : (e, sym) ∈ scannable g slot word ↔
    e ∈ slot.toList ∧ e.next? = some sym ∧ g.accepts sym word = true := by
  simp only [scannable, List.mem_filterMap, Option.map_eq_some_iff, Option.filter_eq_some_iff,
    Prod.mk.injEq]
  constructor
  · rintro ⟨d, hd, s, ⟨hnext, haccepts⟩, rfl, rfl⟩
    exact ⟨hd, hnext, haccepts⟩
  · rintro ⟨he, hnext, haccepts⟩
    exact ⟨e, he, sym, ⟨hnext, haccepts⟩, rfl, rfl⟩

/-! ### What the operations store -/

/-- Storing predictions succeeds. Afterwards every alternative of the expected symbol has an
edge. -/
theorem exists_addAll_predictions (h : e.stop < run.chart.size) :
    ∃ fresh run', run.addAll (predictions g e) = .ok run' ∧ Stores run fresh run' ∧
      (∀ d ∈ fresh, ∃ sym, e.next? = some sym ∧
        ∃ body ∈ g.alternativesOf sym, .predict e.stop sym body = d) ∧
      ∀ sym body, e.next? = some sym → body ∈ g.alternativesOf sym →
        run'.chart.contains (.predict e.stop sym body) = true := by
  have hslots : ∀ d ∈ predictions g e, d.stop < run.chart.size := by
    intro d hd
    obtain ⟨sym, -, body, -, rfl⟩ := mem_predictions_iff.1 hd
    exact h
  obtain ⟨fresh, run', hadd, hstores, hfresh, hall⟩ := exists_addAll hslots
  refine ⟨fresh, run', hadd, hstores, ?_, ?_⟩
  · intro d hd
    exact mem_predictions_iff.1 (hfresh hd)
  · intro sym body hnext hbody
    exact hall _ (mem_predictions_iff.2 ⟨sym, hnext, body, hbody, rfl⟩)

/-- Advancing an edge over the finished empty parts of its slot succeeds. -/
theorem exists_addAll_emptyParts (hc : run.chart.Aligned) (h : e.stop < run.chart.size) :
    ∃ fresh run', (run.chart.slot e.stop >>= fun slot =>
        (emptyParts slot e).mapM e.extend >>= run.addAll) = .ok run' ∧ Stores run fresh run' ∧
      (∀ d ∈ fresh, ∃ part, run.chart.contains part = true ∧ part.stop = e.stop ∧
        part.isComplete = true ∧ e.stop = part.start ∧ e.next? = some part.head ∧
        e.advance (.part part) part.stop = d) ∧
      ∀ part, run.chart.contains part = true → part.stop = e.stop → part.isComplete = true →
        e.stop = part.start → e.next? = some part.head →
        run'.chart.contains (e.advance (.part part) part.stop) = true := by
  obtain ⟨slot, hslot, hlist⟩ := exists_slot h
  have hempty : ∀ part, part ∈ emptyParts slot e ↔
      (run.chart.contains part = true ∧ part.stop = e.stop) ∧ part.isComplete = true ∧
        part.start = e.stop ∧ e.next? = some part.head := by
    intro part
    rw [mem_emptyParts_iff, hlist, mem_edgesAt_iff hc]
  have hextend : ∀ part ∈ emptyParts slot e,
      e.extend part = .ok (e.advance (.part part) part.stop) := by
    intro part hpart
    obtain ⟨-, hcomplete, hstart, hnext⟩ := (hempty part).1 hpart
    exact extend_eq_ok hcomplete hstart.symm hnext
  have hslots : ∀ part ∈ emptyParts slot e,
      (e.advance (.part part) part.stop).stop < run.chart.size := by
    intro part hpart
    rw [stop_advance, ((hempty part).1 hpart).1.2]
    exact h
  obtain ⟨fresh, run', hadd, hstores, hfresh, hall⟩ := exists_addAll_mapM hextend hslots
  refine ⟨fresh, run', ?_, hstores, ?_, ?_⟩
  · rw [hslot]
    exact hadd
  · intro d hd
    obtain ⟨part, hpart, hadvance⟩ := hfresh d hd
    obtain ⟨⟨hstored, hstop⟩, hcomplete, hstart, hnext⟩ := (hempty part).1 hpart
    exact ⟨part, hstored, hstop, hcomplete, hstart.symm, hnext, hadvance⟩
  · intro part hstored hstop hcomplete hstart hnext
    exact hall part ((hempty part).2 ⟨⟨hstored, hstop⟩, hcomplete, hstart.symm, hnext⟩)

/-- Advancing the edges that wait for a finished edge succeeds. -/
theorem exists_complete (hc : run.chart.Aligned) (hpart : part.isComplete = true)
    (hstart : part.start < run.chart.size) (hstop : part.stop < run.chart.size) :
    ∃ fresh run', run.complete part = .ok run' ∧ Stores run fresh run' ∧
      (∀ d ∈ fresh, ∃ e, run.chart.contains e = true ∧ e.stop = part.start ∧
        e.next? = some part.head ∧ e.advance (.part part) part.stop = d) ∧
      ∀ e, run.chart.contains e = true → e.stop = part.start → e.next? = some part.head →
        run'.chart.contains (e.advance (.part part) part.stop) = true := by
  obtain ⟨slot, hslot, hlist⟩ := exists_slot hstart
  have hwaiting : ∀ e, e ∈ waiting slot part ↔
      (run.chart.contains e = true ∧ e.stop = part.start) ∧ e.next? = some part.head := by
    intro e
    rw [mem_waiting_iff, hlist, mem_edgesAt_iff hc]
  have hextend : ∀ e ∈ waiting slot part,
      e.extend part = .ok (e.advance (.part part) part.stop) := by
    intro e he
    obtain ⟨⟨-, hstop⟩, hnext⟩ := (hwaiting e).1 he
    exact extend_eq_ok hpart hstop hnext
  obtain ⟨fresh, run', hadd, hstores, hfresh, hall⟩ :=
    exists_addAll_mapM hextend fun _ _ => hstop
  refine ⟨fresh, run', ?_, hstores, ?_, ?_⟩
  · rw [complete, hslot]
    exact hadd
  · intro d hd
    obtain ⟨e, he, hadvance⟩ := hfresh d hd
    obtain ⟨⟨hstored, hstop⟩, hnext⟩ := (hwaiting e).1 he
    exact ⟨e, hstored, hstop, hnext, hadvance⟩
  · intro e hstored hstop hnext
    exact hall e ((hwaiting e).2 ⟨⟨hstored, hstop⟩, hnext⟩)

/-- Advancing the edges of a slot over a word succeeds. -/
theorem exists_scan {position : Nat} (hc : run.chart.Aligned)
    (h : position + 1 < run.chart.size) (word : Word) :
    ∃ fresh run', run.scan g position word = .ok run' ∧ Stores run fresh run' ∧
      (∀ d ∈ fresh, ∃ e sym, run.chart.contains e = true ∧ e.stop = position ∧
        e.next? = some sym ∧ g.accepts sym word = true ∧
        e.advance (.word sym word) (e.stop + 1) = d) ∧
      ∀ e sym, run.chart.contains e = true → e.stop = position → e.next? = some sym →
        g.accepts sym word = true →
        run'.chart.contains (e.advance (.word sym word) (e.stop + 1)) = true := by
  obtain ⟨slot, hslot, hlist⟩ := exists_slot (Nat.lt_of_succ_lt h)
  have hscannable : ∀ item : Edge × Symbol, item ∈ scannable g slot word ↔
      (run.chart.contains item.1 = true ∧ item.1.stop = position) ∧
        item.1.next? = some item.2 ∧ g.accepts item.2 word = true := by
    rintro ⟨e, sym⟩
    rw [mem_scannable_iff, hlist, mem_edgesAt_iff hc]
  have hscan : ∀ item ∈ scannable g slot word, item.1.scan item.2 word =
      .ok (item.1.advance (.word item.2 word) (item.1.stop + 1)) := by
    intro item hitem
    exact scan_eq_ok ((hscannable item).1 hitem).2.1 word
  have hslots : ∀ item ∈ scannable g slot word,
      (item.1.advance (.word item.2 word) (item.1.stop + 1)).stop < run.chart.size := by
    intro item hitem
    rw [stop_advance, ((hscannable item).1 hitem).1.2]
    exact h
  obtain ⟨fresh, run', hadd, hstores, hfresh, hall⟩ := exists_addAll_mapM hscan hslots
  refine ⟨fresh, run', ?_, hstores, ?_, ?_⟩
  · rw [scan, hslot]
    exact hadd
  · intro d hd
    obtain ⟨⟨e, sym⟩, hitem, hadvance⟩ := hfresh d hd
    obtain ⟨⟨hstored, hstop⟩, hnext, haccepts⟩ := (hscannable _).1 hitem
    exact ⟨e, sym, hstored, hstop, hnext, haccepts, hadvance⟩
  · intro e sym hstored hstop hnext haccepts
    exact hall (e, sym) ((hscannable _).2 ⟨⟨hstored, hstop⟩, hnext, haccepts⟩)

end NaturalLanguage.Chart.Run

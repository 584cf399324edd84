import NaturalLanguage.Proofs.Chart.Moments
import NaturalLanguage.Proofs.Chart.Saturation

/-!
# Charts are well formed at every moment

Whatever a parse has stored so far, every edge lies in the slot where it stops, has the body of a
rule, and is laid out over the words of its span: its words and parts follow one another without a
gap, and every part is a finished edge of the same chart.

* `Tiles`: items that follow one another from one position to another.
* `Derivable.tiles`: what a derivable edge has found lies between its two positions.
* `WellFormed`: all that holds of an edge in a slot.
* `Moment.passes_of_reachable`: the states between two dispatches are moments.
* `edges_wellFormed`: the edges of every slot are well formed at every moment of every parse.
-/

namespace NaturalLanguage.Chart

open Edge

variable {g : Grammar} {words : List Word} {sym : Symbol} {c : Chart}

/-! ### Items that follow one another -/

/-- Items follow one another from `position` to `stop`: an item is the accepted word of one
position, or a finished edge that begins there and is in the slot where it stops. -/
def Tiles (g : Grammar) (words : List Word) (c : Chart) (stop : Nat) :
    Nat → List (Found Edge) → Prop
  | position, [] => position = stop
  | position, .word category word :: items =>
    words[position]? = some word ∧ g.accepts category word = true ∧
      Tiles g words c stop (position + 1) items
  | position, .part part :: items =>
    part.isComplete = true ∧ part.start = position ∧ part ∈ c.edgesAt part.stop ∧
      Tiles g words c stop part.stop items

theorem tiles_append {items more : List (Found Edge)} {position stop : Nat} :
    Tiles g words c stop position (items ++ more) ↔
      ∃ middle, Tiles g words c middle position items ∧ Tiles g words c stop middle more := by
  induction items generalizing position with
  | nil => simp [Tiles]
  | cons item items ih =>
    cases item with
    | word category word => simp only [List.cons_append, Tiles, ih, exists_and_left, and_assoc]
    | part part => simp only [List.cons_append, Tiles, ih, exists_and_left, and_assoc]

/-- What a derivable edge has found lies between its two positions, if its parts are stored. -/
theorem Derivable.tiles {e : Edge} (h : Derivable g words sym e)
    (hparts : ∀ part, .part part ∈ e.found → c.contains part = true) :
    Tiles g words c e.stop e.start e.found := by
  induction h with
  | seed => rfl
  | predict => rfl
  | scan _ _ hword haccepts ih =>
    have hbefore := ih fun part hpart => hparts part (List.mem_append_left _ hpart)
    rw [found_advance, tiles_append]
    exact ⟨_, hbefore, hword, haccepts, rfl⟩
  | @complete e part _ _ hcomplete hstop _ ih _ =>
    have hbefore := ih fun part hpart => hparts part (List.mem_append_left _ hpart)
    have hstored : c.contains part = true :=
      hparts part (List.mem_append_right _ (List.mem_singleton_self _))
    rw [found_advance, tiles_append]
    exact ⟨_, hbefore, hcomplete, hstop.symm, Chart.contains_iff.1 hstored, rfl⟩

/-- A derivable edge has found the words of its span. -/
theorem Derivable.leaves_eq {e : Edge} (h : Derivable g words sym e) :
    e.leaves = (words.take e.stop).drop e.start := by
  have hlength : (words.take e.start).length = e.start :=
    List.length_take_of_le (Nat.le_trans h.start_le_stop h.stop_le_length)
  rw [h.take_stop, List.drop_left' hlength]

/-! ### Well-formed edges -/

/-- All that holds of an edge in the slot of `position`. -/
structure WellFormed (g : Grammar) (words : List Word) (sym : Symbol) (c : Chart) (position : Nat)
    (e : Edge) : Prop where
  stop_eq : e.stop = position
  start_le : e.start ≤ position
  position_le : position ≤ words.length
  /-- What was found and what is expected is an alternative of the head, or the edge is the seed. -/
  rule : SeededRule g sym e.start e.head (e.found.map labelOf ++ e.expects)
  tiles : Tiles g words c position e.start e.found
  leaves_eq : e.leaves = (words.take position).drop e.start
  tree_leaves_eq : e.tree.leaves = (words.take position).drop e.start

/-- A supported edge is well formed in the slot where it stops. -/
theorem Moment.Supported.wellFormed {e : Edge} (h : Moment.Supported g words sym c e) :
    WellFormed g words sym c e.stop e where
  stop_eq := rfl
  start_le := h.derivable.start_le_stop
  position_le := h.derivable.stop_le_length
  rule := h.derivable.seededRule
  tiles := h.derivable.tiles fun _ => h.parts
  leaves_eq := h.derivable.leaves_eq
  tree_leaves_eq := e.leaves_tree.trans h.derivable.leaves_eq

/-- The states between two dispatches of a parse, whether it ends or not, are moments of it. -/
theorem Moment.passes_of_reachable {position : Nat} {run : Run}
    (h : Run.Reachable g words sym position run) :
    Moment.Passes g words sym ⟨position, run, [], none⟩ := by
  induction h with
  | seed hadd => exact .single (.store hadd)
  | dispatch _ hagenda hdispatch ih => exact ih.trans (Moment.steps_dispatch hagenda hdispatch)
  | scan _ hagenda hword hscan ih => exact ih.trans (Moment.steps_scan hagenda hword hscan)

/-- At every moment of a parse, be it one that ends or not, no slot holds an edge twice, and the
edges of every slot are well formed. The states between two dispatches and the result of a parse
that ends are such moments. -/
theorem edges_wellFormed (g : Grammar) (words : List Word) (sym : Symbol) :
    (∀ m : Moment, m.Passes g words sym → ∀ position,
      (m.run.chart.edgesAt position).Nodup ∧
        ∀ e ∈ m.run.chart.edgesAt position, WellFormed g words sym m.run.chart position e) ∧
    (∀ position run, Run.Reachable g words sym position run →
      Moment.Passes g words sym ⟨position, run, [], none⟩) ∧
    ∀ limit run, Run.parseWithin limit g words sym = .ok run →
      Moment.Passes g words sym ⟨words.length, run, [], none⟩ := by
  refine ⟨?_, ?_, ?_⟩
  · intro m hm position
    refine ⟨m.run.chart.nodup_edgesAt position, ?_⟩
    intro e he
    obtain ⟨hstored, rfl⟩ := (mem_edgesAt_iff hm.sound.aligned).1 he
    exact (hm.sound.supported hstored).wellFormed
  · intro position run h
    exact Moment.passes_of_reachable h
  · intro limit run hparse
    exact (Moment.passes_of_parseWithin hparse).1

theorem edges_wellFormed_lateEmpty :
    ∃ run, Run.parseWithin 8 Run.lateEmpty ["b"] "S" = .ok run ∧
      run.chart.completeParses "S" ≠ [] ∧
      Moment.Passes Run.lateEmpty ["b"] "S" ⟨1, run, [], none⟩ ∧
      ∀ position, (run.chart.edgesAt position).Nodup ∧
        ∀ e ∈ run.chart.edgesAt position,
          WellFormed Run.lateEmpty ["b"] "S" run.chart position e := by
  have hparses : ((Run.parseWithin 8 Run.lateEmpty ["b"] "S").map fun run =>
      (run.chart.completeParses "S").length).toOption = some 1 := by
    decide +kernel
  obtain ⟨hmoments, -, hlast⟩ := edges_wellFormed Run.lateEmpty ["b"] "S"
  obtain ⟨run, hparse, hlength⟩ := Run.exists_of_toOption_map hparses
  have hpasses := hlast 8 run hparse
  exact ⟨run, hparse, List.ne_nil_of_length_eq_add_one hlength, hpasses, hmoments _ hpasses⟩

end NaturalLanguage.Chart

import Mathlib.Data.List.Nodup
import NaturalLanguage.Chart.Report
import NaturalLanguage.Chart.Tracing
import NaturalLanguage.Proofs.Chart.Appending

/-!
# The trace of a parse is its chart

A parse reports its edges in the order in which it stores them, all positions together, and a chart
keeps them slot by slot. Both orders are the same, because an edge is only stored into the slot of
the current position: the earlier slots are finished, and the later ones are empty. Reporting does
not touch the chart or the agenda, so it makes no difference to what is parsed.

* `Chart.edges_eq_flatMap_range`: the edges of a chart, position by position.
* `Moment.Passes.log_eq_edges`: at every moment the report so far is the chart so far.
* `Tracing.parseWithin_eq`: a parse with or without a trace is an ordinary one, up to the report.
* `trace_eq_slots`: the trace of a parse that ends.
-/

namespace NaturalLanguage.Chart

/-! ### Edges by positions -/

/-- The edges of a chart are those of its positions, one position after the other. -/
theorem edges_eq_flatMap_range (c : Chart) : c.edges = (List.range c.size).flatMap c.edgesAt := by
  have hslots : c.slots.toList =
      (List.range c.size).map fun position => c.slots[position]?.getD ∅ := by
    apply List.ext_getElem
    · simp [size]
    · intro position hleft hright
      have hlt : position < c.slots.size := hleft
      simp [Array.getElem?_eq_getElem hlt]
  rw [edges, hslots, List.flatMap_map]
  rfl

/-- What is appended at one position comes last if there is nothing at later positions. -/
theorem flatMap_range_append {α : Type} {slots : Nat → List α} {fresh : List α} {position : Nat}
    (hlater : ∀ later, position < later → slots later = []) {size : Nat} (h : position < size) :
    (List.range size).flatMap
        (fun current => slots current ++ if current = position then fresh else []) =
      (List.range size).flatMap slots ++ fresh := by
  induction size with
  | zero => cases h
  | succ size ih =>
    rw [List.range_succ, List.flatMap_append, List.flatMap_append, List.flatMap_singleton,
      List.flatMap_singleton]
    by_cases hlast : size = position
    · -- the last position is the one where the list grows
      subst hlast
      have hbefore : (List.range size).flatMap
          (fun current => slots current ++ if current = size then fresh else []) =
            (List.range size).flatMap slots := by
        apply List.flatMap_congr
        intro current hcurrent
        rw [if_neg (Nat.ne_of_lt (List.mem_range.1 hcurrent)), List.append_nil]
      rw [hbefore, if_pos rfl, List.append_assoc]
    · have hlt : position < size := by omega
      rw [ih hlt, if_neg hlast, hlater size hlt, List.append_nil, List.append_nil, List.append_nil]

/-! ### The report at every moment -/

namespace Moment

variable {g : Grammar} {words : List Word} {sym : Symbol} {m m' : Moment}

/-- Storing an edge at the current position adds it to the report and to the end of the chart. -/
theorem Sound.edges_of_stores {position : Nat} {run run' : Run} {rest fresh : List Edge}
    {predicting : Option Edge} (h : Sound g words sym ⟨position, run, rest, predicting⟩)
    (hposition : position < run.chart.size) (hstores : Run.Stores run fresh run')
    (hfresh : ∀ e ∈ fresh, e.stop = position) :
    run'.chart.edges = run.chart.edges ++ fresh := by
  have hslots : ∀ current, run'.chart.edgesAt current =
      run.chart.edgesAt current ++ if current = position then fresh else [] := by
    intro current
    rw [hstores.edgesAt]
    congr 1
    split
    · next hcurrent =>
      rw [List.filter_eq_self]
      intro e he
      rw [beq_iff_eq, hfresh e he, hcurrent]
    · next hcurrent =>
      rw [List.filter_eq_nil_iff]
      intro e he
      rw [beq_iff_eq, hfresh e he]
      exact fun heq => hcurrent heq.symm
  have hlater : ∀ later, position < later → run.chart.edgesAt later = [] := fun _ hlt =>
    h.edgesAt_eq_nil hlt
  rw [edges_eq_flatMap_range, edges_eq_flatMap_range, hstores.size, funext hslots,
    flatMap_range_append hlater hposition]

/-- If the report is the chart at a moment, it is the chart at the next one. -/
theorem Sound.log_eq_edges_of_step (h : Sound g words sym m) (hstep : Step g words m m')
    (hlog : m.run.log.toList = m.run.chart.edges) : m'.run.log.toList = m'.run.chart.edges := by
  cases hstep with
  | @store position run run' e rest predicting hadd =>
    obtain ⟨hsupported, hstop⟩ := h.rest List.mem_cons_self
    have hlt : e.stop < run.chart.size := h.stop_lt_size hsupported.derivable
    obtain ⟨fresh, next, hnext, hstores, hfresh, -⟩ := Run.exists_add hlt
    obtain rfl : run' = next := Except.ok.inj (hadd.symm.trans hnext)
    have hcurrent : ∀ d ∈ fresh, d.stop = position := by
      intro d hd
      rw [List.mem_singleton.1 (hfresh hd)]
      exact hstop
    have hlt' : position < run.chart.size := Nat.lt_of_le_of_lt (Nat.le_of_eq hstop.symm) hlt
    have hlog' : run.log.toList = run.chart.edges := hlog
    change run'.log.toList = run'.chart.edges
    rw [hstores.log, hlog', h.edges_of_stores hlt' hstores hcurrent]
  | _ => exact hlog

/-- At every moment of a parse, the edges reported so far are those of the chart, slot by slot. -/
theorem Passes.log_eq_edges (h : Passes g words sym m) :
    m.run.log.toList = m.run.chart.edges := by
  induction h with
  | refl =>
    change [] = (Chart.empty words.length).edges
    simp [edges_eq_flatMap_range]
  | tail hbefore hstep ih => exact Sound.log_eq_edges_of_step (Passes.sound hbefore) hstep ih

end Moment

/-- No edge of an aligned chart is listed twice. -/
theorem nodup_edges {c : Chart} (hc : c.Aligned) : c.edges.Nodup := by
  rw [edges_eq_flatMap_range, List.nodup_flatMap]
  refine ⟨fun position _ => c.nodup_edgesAt position, ?_⟩
  refine List.pairwise_lt_range.imp ?_
  intro position later hlt e he he'
  -- an edge stops at one position only
  have heq : position = later := (hc position e he).symm.trans (hc later e he')
  exact absurd heq (Nat.ne_of_lt hlt)

/-! ### Parses with and without a trace -/

/-- Computations that go on alike from the same result. -/
theorem bind_eq_map {ε α β γ : Type} {first : Except ε α} {next : α → Except ε β}
    {next' : α → Except ε γ} {f : β → γ} (h : ∀ a, next' a = (next a).map f) :
    first >>= next' = (first >>= next).map f := by
  cases first with
  | error cause => rfl
  | ok a => exact h a

/-- Computations that go on alike from results that differ by a function. -/
theorem map_bind_eq_map {ε α β γ δ : Type} {first : Except ε α} {before : α → β}
    {next : α → Except ε γ} {next' : β → Except ε δ} {f : γ → δ}
    (h : ∀ a, next' (before a) = (next a).map f) :
    first.map before >>= next' = (first >>= next).map f := by
  cases first with
  | error cause => rfl
  | ok a => exact h a

@[simp] theorem Run.chart_reporting (run : Run) (trace : Bool) :
    (run.reporting trace).chart = run.chart := by
  cases trace <;> rfl

@[simp] theorem Run.agenda_reporting (run : Run) (trace : Bool) :
    (run.reporting trace).agenda = run.agenda := by
  cases trace <;> rfl

theorem Run.take_reporting (run : Run) (trace : Bool) (rest : List Edge) :
    { run.reporting trace with agenda := rest } =
      ({ run with agenda := rest } : Run).reporting trace := by
  cases trace <;> rfl

namespace Tracing

variable {trace : Bool} {g : Grammar} {run : Run} {limit : Nat}

theorem add_reporting (e : Edge) :
    add trace (run.reporting trace) e = (run.add e).map (·.reporting trace) := by
  rw [add, Run.add, Run.chart_reporting]
  split
  · rfl
  · refine bind_eq_map fun chart => ?_
    cases trace <;> rfl

theorem addAll_reporting (edges : List Edge) :
    addAll trace (run.reporting trace) edges = (run.addAll edges).map (·.reporting trace) := by
  induction edges generalizing run with
  | nil => rfl
  | cons e edges ih =>
    rw [addAll, Run.addAll, List.foldlM_cons, List.foldlM_cons, add_reporting]
    exact map_bind_eq_map fun next => ih

theorem predict_reporting (e : Edge) :
    predict trace g (run.reporting trace) e = (run.predict g e).map (·.reporting trace) := by
  rw [predict, Run.predict, addAll_reporting]
  refine map_bind_eq_map fun predicted => ?_
  rw [Run.chart_reporting]
  exact bind_eq_map fun slot => bind_eq_map fun edges => addAll_reporting edges

theorem complete_reporting (e : Edge) :
    complete trace (run.reporting trace) e = (run.complete e).map (·.reporting trace) := by
  rw [complete, Run.complete, Run.chart_reporting]
  exact bind_eq_map fun slot => bind_eq_map fun edges => addAll_reporting edges

theorem dispatch_reporting (e : Edge) :
    dispatch trace g (run.reporting trace) e = (run.dispatch g e).map (·.reporting trace) := by
  unfold dispatch Run.dispatch
  split
  · exact complete_reporting e
  · exact predict_reporting e

theorem scan_reporting (position : Nat) (word : Word) :
    scan trace g (run.reporting trace) position word =
      (run.scan g position word).map (·.reporting trace) := by
  rw [scan, Run.scan, Run.chart_reporting]
  exact bind_eq_map fun slot => bind_eq_map fun edges => addAll_reporting edges

theorem closeWithin_reporting :
    closeWithin trace g limit (run.reporting trace) =
      (run.closeWithin g limit).map (·.reporting trace) := by
  induction limit generalizing run with
  | zero =>
    unfold closeWithin Run.closeWithin
    rw [Run.agenda_reporting]
    cases run.agenda <;> rfl
  | succ limit ih =>
    unfold closeWithin Run.closeWithin
    rw [Run.agenda_reporting]
    cases run.agenda with
    | nil => rfl
    | cons e rest =>
      change (dispatch trace g { run.reporting trace with agenda := rest } e >>= _) = _
      rw [Run.take_reporting, dispatch_reporting]
      exact map_bind_eq_map fun next => ih

theorem foldlM_reporting (words : List (Word × Nat)) :
    words.foldlM (consumeWithin trace g limit) (run.reporting trace) =
      (words.foldlM (Run.consumeWithin g limit) run).map (·.reporting trace) := by
  induction words generalizing run with
  | nil => rfl
  | cons word words ih =>
    rw [List.foldlM_cons, List.foldlM_cons, consumeWithin, Run.consumeWithin, scan_reporting,
      map_bind_eq_map fun scanned => closeWithin_reporting]
    exact map_bind_eq_map fun closed => ih

/-- A parse does the same with or without a trace, except that it reports nothing without one. -/
theorem parseWithin_eq (trace : Bool) (limit : Nat) (g : Grammar) (words : List Word)
    (sym : Symbol) :
    parseWithin trace limit g words sym =
      (Run.parseWithin limit g words sym).map (·.reporting trace) := by
  have hstart : Run.start words.length = (Run.start words.length).reporting trace := by
    cases trace <;> rfl
  rw [parseWithin, Run.parseWithin, hstart, add_reporting, ← hstart]
  refine map_bind_eq_map fun seeded => ?_
  rw [closeWithin_reporting]
  exact map_bind_eq_map fun closed => foldlM_reporting _

end Tracing

/-- The trace of a parse that ends is its chart: the edges of the slots of all positions from the
first to the last, in the order of insertion, each edge once. Without a trace the parse ends with
the same chart, and so with the same parses, and reports nothing. -/
theorem trace_eq_slots {limit : Nat} {g : Grammar} {words : List Word} {sym : Symbol}
    (hlimit : Run.parseWithin limit g words sym ≠ .error .limitReached) :
    ∃ traced silent, Tracing.parseWithin true limit g words sym = .ok traced ∧
      Tracing.parseWithin false limit g words sym = .ok silent ∧
      silent.chart = traced.chart ∧ silent.traceLines = [] ∧
      traced.chart.size = words.length + 1 ∧
      traced.log.toList = (List.range (words.length + 1)).flatMap traced.chart.edgesAt ∧
      traced.traceLines = (List.range (words.length + 1)).flatMap (fun position =>
        (traced.chart.edgesAt position).map fun e => "Chart: added " ++ e.dotted) ∧
      traced.log.toList.Nodup ∧ ∀ e, e ∈ traced.log.toList ↔ traced.chart.contains e = true := by
  obtain ⟨run, hparse, -, -⟩ := Run.exists_of_parseWithin hlimit
  have hpasses := (Moment.passes_of_parseWithin hparse).1
  have hlog : run.log.toList = run.chart.edges := hpasses.log_eq_edges
  have hsize : run.chart.size = words.length + 1 := hpasses.sound.size
  have haligned : run.chart.Aligned := hpasses.sound.aligned
  have hslots : run.log.toList = (List.range (words.length + 1)).flatMap run.chart.edgesAt := by
    rw [hlog, edges_eq_flatMap_range, hsize]
  refine ⟨run, { run with log := #[] }, ?_, ?_, rfl, rfl, hsize, hslots, ?_, ?_, ?_⟩
  · rw [Tracing.parseWithin_eq, hparse]
    rfl
  · rw [Tracing.parseWithin_eq, hparse]
    rfl
  · rw [Run.traceLines, hslots, List.map_flatMap]
  · rw [hlog]
    exact nodup_edges haligned
  · intro e
    rw [hlog]
    exact mem_edges_iff haligned

theorem trace_eq_slots_lateEmpty :
    Run.parseWithin 8 Run.lateEmpty ["b"] "S" ≠ .error .limitReached ∧
      ∃ traced silent, Tracing.parseWithin true 8 Run.lateEmpty ["b"] "S" = .ok traced ∧
        Tracing.parseWithin false 8 Run.lateEmpty ["b"] "S" = .ok silent ∧
        silent.chart = traced.chart ∧ silent.traceLines = [] ∧
        traced.log.toList = traced.chart.edgesAt 0 ++ traced.chart.edgesAt 1 ∧
        traced.log.toList.Nodup := by
  have hlimit : Run.parseWithin 8 Run.lateEmpty ["b"] "S" ≠ .error .limitReached :=
    Run.ne_limitReached_of_isOk (by decide +kernel)
  obtain ⟨traced, silent, htraced, hsilent, hchart, hlines, -, hlog, -, hnodup, -⟩ :=
    trace_eq_slots hlimit
  refine ⟨hlimit, traced, silent, htraced, hsilent, hchart, hlines, ?_, hnodup⟩
  rw [hlog]
  exact congrArg (_ ++ ·) (List.append_nil _)

end NaturalLanguage.Chart

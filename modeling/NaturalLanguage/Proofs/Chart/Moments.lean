import Mathlib.Logic.Relation
import NaturalLanguage.Proofs.Chart.Closure
import NaturalLanguage.Proofs.Chart.Operations
import NaturalLanguage.Proofs.Grammar.Entries

/-!
# A parse, edge by edge

An operation of a parse stores its edges one after the other. A moment of a parse lies between two
of these additions: some words were scanned, some edges are stored, and the operation under way has
the rest of its edges still to store. Pending edges may be dispatched in any order.

* `Moment.Step`: one addition, or the beginning of an operation.
* `Moment.Passes`: the moments of a parse, whether the parse ends or not.
* `Moment.steps_closeWithin`, `Moment.steps_foldlM`, `Moment.passes_of_parseWithin`: the operations
  of a run are sequences of steps.
* `Moment.Sound`, `Moment.Passes.sound`: what holds at every moment.
-/

namespace NaturalLanguage

/-! ### Computations that succeed -/

/-- If a computation in two parts succeeds, both parts do. -/
theorem exists_of_bind_eq_ok {ε α β : Type} {first : Except ε α} {second : α → Except ε β} {b : β}
    (h : first >>= second = .ok b) : ∃ a, first = .ok a ∧ second a = .ok b := by
  cases first with
  | error cause => cases h
  | ok a => exact ⟨a, rfl, h⟩

/-- Every result of an operation that succeeds for a list is the result for one of its members. -/
theorem exists_of_mem_of_mapM_eq_ok {ε α β : Type} {f : α → Except ε β} {xs : List α} {ys : List β}
    (h : xs.mapM f = .ok ys) {y : β} (hy : y ∈ ys) : ∃ x ∈ xs, f x = .ok y := by
  rw [mapM_eq_ok_iff] at h
  induction h with
  | nil => cases hy
  | cons hx _ ih =>
    rcases List.mem_cons.1 hy with rfl | hy
    · exact ⟨_, List.mem_cons_self, hx⟩
    · obtain ⟨x, hmem, hfx⟩ := ih hy
      exact ⟨x, List.mem_cons_of_mem _ hmem, hfx⟩

namespace Edge

/-- An edge that is scanned expects the category. -/
theorem of_scan_eq_ok {e d : Edge} {category : Symbol} {word : Word}
    (h : e.scan category word = .ok d) :
    e.next? = some category ∧ d = e.advance (.word category word) (e.stop + 1) := by
  unfold scan at h
  split at h
  · next hnext => exact ⟨hnext, (Except.ok.inj h).symm⟩
  · cases h

/-- An edge is extended by a finished part that begins where it stops and that it expects. -/
theorem of_extend_eq_ok {e part d : Edge} (h : e.extend part = .ok d) :
    part.isComplete = true ∧ e.stop = part.start ∧ e.next? = some part.head ∧
      d = e.advance (.part part) part.stop := by
  unfold extend at h
  split at h
  · cases h
  · next hactive =>
    split at h
    · cases h
    · next hstop =>
      split at h
      · cases h
      · next hnext =>
        refine ⟨?_, of_not_not hstop, of_not_not hnext, (Except.ok.inj h).symm⟩
        rw [isActive, Bool.not_eq_true, Bool.not_eq_false'] at hactive
        exact hactive

end Edge

namespace Chart

open Edge

/-- Without dispatches left, a pending edge cannot be dispatched. -/
theorem Run.closeWithin_zero_of_cons {g : Grammar} {run : Run} {e : Edge} {rest : List Edge}
    (h : run.agenda = e :: rest) : run.closeWithin g 0 = .error .limitReached := by
  rw [closeWithin, h]

/-! ### Moments and steps -/

/-- A parse between two additions of an edge. -/
structure Moment where
  /-- The number of words whose scan has begun: the position of the slot that is being filled. -/
  position : Nat
  run : Run
  /-- The edges that the operation under way has still to store. -/
  rest : List Edge
  /-- The edge that advances over empty parts as soon as all its predictions are stored. -/
  predicting : Option Edge

namespace Moment

open Run

/-- The moment before the seed is stored. -/
def first (words : List Word) (sym : Symbol) : Moment :=
  ⟨0, Run.start words.length, [Run.seed sym], none⟩

/-- The next moment of a parse: an edge was stored, or an operation has begun and knows the edges
that it will store. -/
inductive Step (g : Grammar) (words : List Word) : Moment → Moment → Prop
  /-- One more edge is stored. -/
  | store {position : Nat} {run run' : Run} {e : Edge} {rest : List Edge}
      {predicting : Option Edge} : run.add e = .ok run' →
      Step g words ⟨position, run, e :: rest, predicting⟩ ⟨position, run', rest, predicting⟩
  /-- An edge that expects a symbol is dispatched: its predictions come first. -/
  | predict {position : Nat} {run : Run} {e : Edge} {before after : List Edge} :
      run.agenda = before ++ e :: after → e.isComplete = false →
      Step g words ⟨position, run, [], none⟩
        ⟨position, { run with agenda := before ++ after }, predictions g e, some e⟩
  /-- After its predictions, the edge advances over the empty parts that are in its slot now. -/
  | advance {position : Nat} {run : Run} {e : Edge} {slot : Slot} {edges : List Edge} :
      run.chart.slot e.stop = .ok slot → (emptyParts slot e).mapM e.extend = .ok edges →
      Step g words ⟨position, run, [], some e⟩ ⟨position, run, edges, none⟩
  /-- A finished edge is dispatched: it advances the edges that wait for it. -/
  | complete {position : Nat} {run : Run} {e : Edge} {before after : List Edge} {slot : Slot}
      {edges : List Edge} :
      run.agenda = before ++ e :: after → e.isComplete = true →
      run.chart.slot e.start = .ok slot → (waiting slot e).mapM (·.extend e) = .ok edges →
      Step g words ⟨position, run, [], none⟩
        ⟨position, { run with agenda := before ++ after }, edges, none⟩
  /-- The scan of the next word begins when no edge is pending. -/
  | scan {position : Nat} {run : Run} {word : Word} {slot : Slot} {edges : List Edge} :
      run.agenda = [] → words[position]? = some word → run.chart.slot position = .ok slot →
      (scannable g slot word).mapM (fun (e, sym) => e.scan sym word) = .ok edges →
      Step g words ⟨position, run, [], none⟩ ⟨position + 1, run, edges, none⟩

/-- Later moments of a parse that has come to a moment. -/
def Leads (g : Grammar) (words : List Word) : Moment → Moment → Prop :=
  Relation.ReflTransGen (Step g words)

/-- The moments that a parse passes through, whether it ends or not. -/
def Passes (g : Grammar) (words : List Word) (sym : Symbol) (m : Moment) : Prop :=
  Leads g words (first words sym) m

/-! ### Operations are sequences of steps -/

section Operations

variable {g : Grammar} {words : List Word} {sym : Symbol} {position : Nat} {run run' : Run}

/-- Storing edges is a sequence of steps. -/
theorem steps_addAll {edges : List Edge} {predicting : Option Edge}
    (h : run.addAll edges = .ok run') :
    Leads g words ⟨position, run, edges, predicting⟩ ⟨position, run', [], predicting⟩ := by
  induction edges generalizing run with
  | nil =>
    cases h
    exact .refl
  | cons e edges ih =>
    rw [addAll, List.foldlM_cons] at h
    obtain ⟨next, hadd, hrest⟩ := exists_of_bind_eq_ok h
    exact .head (.store hadd) (ih hrest)

/-- A dispatch is a sequence of steps. -/
theorem steps_dispatch {e : Edge} {before after : List Edge}
    (hagenda : run.agenda = before ++ e :: after)
    (h : ({ run with agenda := before ++ after } : Run).dispatch g e = .ok run') :
    Leads g words ⟨position, run, [], none⟩ ⟨position, run', [], none⟩ := by
  unfold dispatch at h
  split at h
  · next hcomplete =>
    obtain ⟨slot, hslot, h⟩ := exists_of_bind_eq_ok h
    obtain ⟨edges, hedges, h⟩ := exists_of_bind_eq_ok h
    exact .head (.complete hagenda hcomplete hslot hedges) (steps_addAll h)
  · next hactive =>
    rw [Bool.not_eq_true] at hactive
    obtain ⟨predicted, hpredicted, h⟩ := exists_of_bind_eq_ok h
    obtain ⟨slot, hslot, h⟩ := exists_of_bind_eq_ok h
    obtain ⟨edges, hedges, h⟩ := exists_of_bind_eq_ok h
    -- the slot is read again when the predictions are stored
    have hadvance : Leads g words ⟨position, predicted, [], some e⟩ ⟨position, run', [], none⟩ :=
      .head (.advance hslot hedges) (steps_addAll h)
    exact .head (.predict hagenda hactive) ((steps_addAll hpredicted).trans hadvance)

/-- A scan is a sequence of steps. -/
theorem steps_scan {word : Word} (hagenda : run.agenda = [])
    (hword : words[position]? = some word) (h : run.scan g position word = .ok run') :
    Leads g words ⟨position, run, [], none⟩ ⟨position + 1, run', [], none⟩ := by
  obtain ⟨slot, hslot, h⟩ := exists_of_bind_eq_ok h
  obtain ⟨edges, hedges, h⟩ := exists_of_bind_eq_ok h
  exact .head (.scan hagenda hword hslot hedges) (steps_addAll h)

/-- Closing a slot is a sequence of steps that leaves no edge pending. -/
theorem steps_closeWithin {limit : Nat} (h : run.closeWithin g limit = .ok run') :
    Leads g words ⟨position, run, [], none⟩ ⟨position, run', [], none⟩ ∧ run'.agenda = [] := by
  induction limit generalizing run with
  | zero =>
    cases hagenda : run.agenda with
    | nil =>
      rw [closeWithin_of_agenda_nil hagenda] at h
      cases h
      exact ⟨.refl, hagenda⟩
    | cons e rest =>
      rw [closeWithin_zero_of_cons hagenda] at h
      cases h
  | succ limit ih =>
    cases hagenda : run.agenda with
    | nil =>
      rw [closeWithin_of_agenda_nil hagenda] at h
      cases h
      exact ⟨.refl, hagenda⟩
    | cons e rest =>
      rw [closeWithin_cons hagenda] at h
      obtain ⟨next, hdispatch, h⟩ := exists_of_bind_eq_ok h
      obtain ⟨hsteps, hclosed⟩ := ih h
      -- first in, first out: nothing is pending before the edge that is dispatched
      have hfirst : run.agenda = [] ++ e :: rest := hagenda
      exact ⟨(steps_dispatch hfirst hdispatch).trans hsteps, hclosed⟩

/-- Consuming some of the words is a sequence of steps that leaves no edge pending. -/
theorem steps_foldlM {limit : Nat} {rest after : List Word} :
    ∀ {before : List Word} {run : Run}, words = before ++ rest ++ after → run.agenda = [] →
      (rest.zipIdx before.length).foldlM (consumeWithin g limit) run = .ok run' →
      Leads g words ⟨before.length, run, [], none⟩ ⟨(before ++ rest).length, run', [], none⟩ ∧
        run'.agenda = [] := by
  induction rest with
  | nil =>
    intro before run _ hagenda h
    cases h
    rw [List.append_nil]
    exact ⟨.refl, hagenda⟩
  | cons word rest ih =>
    intro before run hwords hagenda h
    have hword : words[before.length]? = some word := by simp [hwords]
    have hlength : (before ++ [word]).length = before.length + 1 := by simp
    have happend : before ++ word :: rest = (before ++ [word]) ++ rest := by simp
    rw [happend] at hwords
    rw [List.zipIdx_cons, List.foldlM_cons] at h
    obtain ⟨closed, hconsume, h⟩ := exists_of_bind_eq_ok h
    obtain ⟨scanned, hscan, hclose⟩ := exists_of_bind_eq_ok hconsume
    obtain ⟨hsteps, hclosed⟩ := steps_closeWithin hclose
    rw [← hlength] at h
    obtain ⟨hrest, hagenda'⟩ := ih hwords hclosed h
    rw [hlength, ← happend] at hrest
    exact ⟨((steps_scan hagenda hword hscan).trans hsteps).trans hrest, hagenda'⟩

/-- Storing the seed and closing the first slot is a sequence of steps. -/
theorem passes_of_close {limit : Nat} {seeded closed : Run}
    (hadd : (start words.length).add (seed sym) = .ok seeded)
    (hclose : seeded.closeWithin g limit = .ok closed) :
    Passes g words sym ⟨0, closed, [], none⟩ ∧ closed.agenda = [] := by
  obtain ⟨hsteps, hclosed⟩ := steps_closeWithin hclose
  exact ⟨.head (.store hadd) hsteps, hclosed⟩

/-- A parse that ends is a sequence of steps that leaves no edge pending. -/
theorem passes_of_parseWithin {limit : Nat} (h : parseWithin limit g words sym = .ok run) :
    Passes g words sym ⟨words.length, run, [], none⟩ ∧ run.agenda = [] := by
  obtain ⟨seeded, hadd, h⟩ := exists_of_bind_eq_ok h
  obtain ⟨closed, hclose, h⟩ := exists_of_bind_eq_ok h
  obtain ⟨hfirst, hclosed⟩ := passes_of_close hadd hclose
  have hwords : words = [] ++ words ++ [] := by simp
  obtain ⟨hrest, hagenda⟩ := steps_foldlM hwords hclosed h
  exact ⟨hfirst.trans hrest, hagenda⟩

end Operations

/-! ### What holds at every moment -/

/-- An edge may be stored in a chart: it is derivable, and its parts are stored. -/
structure Supported (g : Grammar) (words : List Word) (sym : Symbol) (c : Chart) (e : Edge) :
    Prop where
  derivable : Derivable g words sym e
  parts {part : Edge} : .part part ∈ e.found → c.contains part = true

/-- What holds at every moment of a parse. -/
structure Sound (g : Grammar) (words : List Word) (sym : Symbol) (m : Moment) : Prop where
  /-- There is a slot before every word and one after the last. -/
  size : m.run.chart.size = words.length + 1
  /-- Every edge is in the slot where it stops. -/
  aligned : m.run.chart.Aligned
  /-- Stored edges are supported. -/
  supported {e : Edge} : m.run.chart.contains e = true → Supported g words sym m.run.chart e
  /-- Later slots are empty. -/
  stop_le {e : Edge} : m.run.chart.contains e = true → e.stop ≤ m.position
  /-- Pending edges are stored and stop at the current position. -/
  pending {e : Edge} : e ∈ m.run.agenda →
    m.run.chart.contains e = true ∧ e.stop = m.position
  /-- Edges that have still to be stored are supported and stop at the current position. -/
  rest {e : Edge} : e ∈ m.rest → Supported g words sym m.run.chart e ∧ e.stop = m.position
  /-- The edge that is predicting is stored and stops at the current position. -/
  predicting {e : Edge} : m.predicting = some e →
    m.run.chart.contains e = true ∧ e.stop = m.position

section Sound

variable {g : Grammar} {words : List Word} {sym : Symbol} {c c' : Chart} {e part : Edge}
  {m m' : Moment}

theorem Supported.mono (h : Supported g words sym c e)
    (hc : ∀ {d}, c.contains d = true → c'.contains d = true) : Supported g words sym c' e :=
  ⟨h.derivable, fun hpart => hc (h.parts hpart)⟩

/-- Advancing over one more supported part keeps an edge supported. -/
theorem Supported.advance (he : Supported g words sym c e) (hpart : Supported g words sym c part)
    (hstored : c.contains part = true) {d : Edge} (h : e.extend part = .ok d) :
    Supported g words sym c d := by
  obtain ⟨hcomplete, hstop, hnext, rfl⟩ := of_extend_eq_ok h
  refine ⟨.complete he.derivable hpart.derivable hcomplete hstop hnext, ?_⟩
  intro other hother
  rw [found_advance, List.mem_append, List.mem_singleton, Found.part.injEq] at hother
  rcases hother with hother | rfl
  · exact he.parts hother
  · exact hstored

/-- Scanning the next word keeps an edge supported. -/
theorem Supported.scan (he : Supported g words sym c e) {category : Symbol} {word : Word}
    (hword : words[e.stop]? = some word) (haccepts : g.accepts category word = true) {d : Edge}
    (h : e.scan category word = .ok d) : Supported g words sym c d := by
  obtain ⟨hnext, rfl⟩ := of_scan_eq_ok h
  refine ⟨.scan he.derivable hnext hword haccepts, ?_⟩
  intro other hother
  rw [found_advance, List.mem_append] at hother
  apply he.parts
  exact hother.resolve_right (by simp)

theorem Sound.stop_lt_size (h : Sound g words sym m) (he : Derivable g words sym e) :
    e.stop < m.run.chart.size := by
  rw [h.size]
  exact Nat.lt_succ_of_le he.stop_le_length

/-- Edges read from a slot are stored and stop there. -/
theorem Sound.of_mem_slot (h : Sound g words sym m) {position : Nat} {slot : Slot}
    (hslot : m.run.chart.slot position = .ok slot) (he : e ∈ slot.toList) :
    m.run.chart.contains e = true ∧ e.stop = position := by
  rw [← mem_edgesAt_iff h.aligned, edgesAt]
  unfold Chart.slot at hslot
  split at hslot
  · next slot' heq =>
    cases hslot
    rwa [heq]
  · cases hslot

/-- Before the seed is stored, nothing is. -/
theorem sound_first : Sound g words sym (first words sym) := by
  have hempty : ∀ {e}, (first words sym).run.chart.contains e ≠ true := by
    intro e he
    rw [Chart.contains_iff, first, Run.start, edgesAt_empty] at he
    cases he
  exact {
    size := size_empty _
    aligned := fun position e he => by
      rw [first, Run.start, edgesAt_empty] at he
      cases he
    supported := fun he => absurd he hempty
    stop_le := fun he => absurd he hempty
    pending := fun he => by cases he
    rest := fun he => by
      obtain rfl := List.mem_singleton.1 he
      exact ⟨⟨.seed, fun hpart => by cases hpart⟩, rfl⟩
    predicting := fun he => by cases he }

/-- Storing the next edge keeps what holds. -/
theorem Sound.store {position : Nat} {run run' : Run} {rest : List Edge}
    {predicting : Option Edge} (h : Sound g words sym ⟨position, run, e :: rest, predicting⟩)
    (hadd : run.add e = .ok run') : Sound g words sym ⟨position, run', rest, predicting⟩ := by
  obtain ⟨hsupported, hstop⟩ := h.rest List.mem_cons_self
  obtain ⟨fresh, next, hnext, hstores, hfresh, -⟩ :=
    exists_add (h.stop_lt_size hsupported.derivable)
  obtain rfl : run' = next := Except.ok.inj (hadd.symm.trans hnext)
  -- what is stored now was stored before, or it is the one edge
  have hcases : ∀ {d}, run'.chart.contains d = true → run.chart.contains d = true ∨ d = e :=
    fun hd => (hstores.contains_iff.1 hd).imp_right fun hd => List.mem_singleton.1 (hfresh hd)
  have hmono : ∀ {d}, run.chart.contains d = true → run'.chart.contains d = true :=
    hstores.contains_of_contains
  exact {
    size := hstores.size.trans h.size
    aligned := hstores.aligned h.aligned
    supported := fun {d} hd => by
      rcases hcases hd with hd | rfl
      · exact (h.supported hd).mono hmono
      · exact hsupported.mono hmono
    stop_le := fun {d} hd => by
      rcases hcases hd with hd | rfl
      · exact h.stop_le hd
      · exact Nat.le_of_eq hstop
    pending := fun {d} hd => by
      rw [show run'.agenda = run.agenda ++ fresh from hstores.agenda, List.mem_append] at hd
      rcases hd with hd | hd
      · exact (h.pending hd).imp_left hmono
      · obtain rfl := List.mem_singleton.1 (hfresh hd)
        exact ⟨hstores.contains_iff.2 (.inr hd), hstop⟩
    rest := fun hd => (h.rest (List.mem_cons_of_mem e hd)).imp_left (·.mono hmono)
    predicting := fun hd => (h.predicting hd).imp_left hmono }

/-- Taking a pending edge from the agenda keeps what holds, if the edges that are to be stored for
it are supported and stop at the current position. -/
theorem Sound.take {position : Nat} {run : Run} {before after edges : List Edge}
    {predicting : Option Edge} (h : Sound g words sym ⟨position, run, [], none⟩)
    (hagenda : run.agenda = before ++ e :: after)
    (hedges : ∀ d ∈ edges, Supported g words sym run.chart d ∧ d.stop = position)
    (hpredicting : ∀ d, predicting = some d → run.chart.contains d = true ∧ d.stop = position) :
    Sound g words sym ⟨position, { run with agenda := before ++ after }, edges, predicting⟩ where
  size := h.size
  aligned := h.aligned
  supported := h.supported
  stop_le := h.stop_le
  pending {d} hd := by
    apply h.pending
    rw [hagenda]
    exact List.mem_append.2 ((List.mem_append.1 hd).imp_right (List.mem_cons_of_mem e))
  rest := hedges _
  predicting := hpredicting _

/-- Every step of a parse keeps what holds at a moment. -/
theorem Sound.step (h : Sound g words sym m) (hstep : Step g words m m') :
    Sound g words sym m' := by
  cases hstep with
  | store hadd => exact h.store hadd
  | @predict position run e before after hagenda hactive =>
    obtain ⟨hstored, hstop⟩ := h.pending (hagenda ▸ List.mem_append_right _ List.mem_cons_self)
    refine h.take hagenda ?_ ?_
    · intro d hd
      obtain ⟨next, hnext, body, hbody, rfl⟩ := mem_predictions_iff.1 hd
      exact ⟨⟨.predict (h.supported hstored).derivable hnext hbody, fun hpart => by cases hpart⟩,
        hstop⟩
    · rintro d ⟨⟩
      exact ⟨hstored, hstop⟩
  | @advance position run e slot edges hslot hedges =>
    obtain ⟨hstored, hstop⟩ := h.predicting rfl
    refine { h with rest := fun {d} hd => ?_, predicting := fun hd => by cases hd }
    obtain ⟨part, hpart, hextend⟩ := exists_of_mem_of_mapM_eq_ok hedges hd
    obtain ⟨hslot', -, -, -⟩ := mem_emptyParts_iff.1 hpart
    obtain ⟨hpart, hpartstop⟩ := h.of_mem_slot hslot hslot'
    refine ⟨(h.supported hstored).advance (h.supported hpart) hpart hextend, ?_⟩
    rw [(of_extend_eq_ok hextend).2.2.2]
    exact hpartstop.trans hstop
  | @complete position run e before after slot edges hagenda hcomplete hslot hedges =>
    obtain ⟨hstored, hstop⟩ := h.pending (hagenda ▸ List.mem_append_right _ List.mem_cons_self)
    refine h.take hagenda ?_ (fun d hd => by cases hd)
    intro d hd
    obtain ⟨w, hw, hextend⟩ := exists_of_mem_of_mapM_eq_ok hedges hd
    obtain ⟨hw, -⟩ := h.of_mem_slot hslot (mem_waiting_iff.1 hw).1
    refine ⟨(h.supported hw).advance (h.supported hstored) hstored hextend, ?_⟩
    rw [(of_extend_eq_ok hextend).2.2.2]
    exact hstop
  | @scan position run word slot edges hagenda hword hslot hedges =>
    have hpending : ∀ {d}, d ∉ run.agenda := fun hd => by
      rw [hagenda] at hd
      cases hd
    refine { h with
      stop_le := fun hd => Nat.le_succ_of_le (h.stop_le hd)
      pending := fun hd => absurd hd hpending
      rest := fun {d} hd => ?_
      predicting := fun hd => by cases hd }
    obtain ⟨⟨w, category⟩, hw, hscan⟩ := exists_of_mem_of_mapM_eq_ok hedges hd
    obtain ⟨hmem, -, haccepts⟩ := mem_scannable_iff.1 hw
    obtain ⟨hw, hwstop⟩ := h.of_mem_slot hslot hmem
    refine ⟨(h.supported hw).scan (hwstop ▸ hword) haccepts hscan, ?_⟩
    rw [(of_scan_eq_ok hscan).2, stop_advance, hwstop]

theorem Sound.leads (h : Sound g words sym m) (hleads : Leads g words m m') :
    Sound g words sym m' := by
  induction hleads with
  | refl => exact h
  | tail _ hstep ih => exact ih.step hstep

/-- At every moment of a parse, the stored edges and those to be stored are supported, and nothing
is stored beyond the current position. -/
theorem Passes.sound (h : Passes g words sym m) : Sound g words sym m :=
  sound_first.leads h

end Sound

end Moment

end Chart

end NaturalLanguage

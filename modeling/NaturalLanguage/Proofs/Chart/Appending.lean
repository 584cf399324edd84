import NaturalLanguage.Proofs.Chart.Moments
import NaturalLanguage.Proofs.Chart.Saturation

/-!
# More words leave the slots of the first words as they are

A parse fills its slots from left to right. Every edge that an operation stores stops at the current
position, also if it advances an edge of an older slot, so a slot is finished when the next word is
scanned. The parse of a longer sentence therefore begins like the parse of the shorter one: until
the shorter one ends, the two runs differ in the number of slots only.

* `Moment.Leads.edgesAt_eq`: slots before the current position do not change.
* `Moment.Sound.edgesAt_eq_nil`: slots after the current position are empty.
* `Chart.upTo`, `Run.upTo`: a chart or a run with the slots up to a position.
* `Run.closeWithin_upTo`, `Run.foldlM_upTo`: the operations do not read or write later slots.
* `slots_of_append`: the slots of a sentence after more words were appended.
-/

namespace NaturalLanguage.Chart

open Edge

variable {g : Grammar} {words : List Word} {sym : Symbol}

/-! ### Finished and empty slots -/

namespace Moment

variable {m m' : Moment} {position : Nat}

theorem Step.position_le (h : Step g words m m') : m.position ≤ m'.position := by
  cases h with
  | scan => exact Nat.le_succ _
  | _ => exact Nat.le_refl _

/-- A step stores nothing before the current position. -/
theorem Sound.edgesAt_eq_of_step (h : Sound g words sym m) (hstep : Step g words m m')
    (hlt : position < m.position) :
    m'.run.chart.edgesAt position = m.run.chart.edgesAt position := by
  cases hstep with
  | @store current run run' e rest predicting hadd =>
    obtain ⟨hsupported, hstop⟩ := h.rest List.mem_cons_self
    obtain ⟨fresh, next, hnext, hstores, hfresh, -⟩ :=
      Run.exists_add (h.stop_lt_size hsupported.derivable)
    obtain rfl : run' = next := Except.ok.inj (hadd.symm.trans hnext)
    -- the one edge that may be new stops at the current position
    have hnone : fresh.filter (·.stop == position) = [] := by
      rw [List.filter_eq_nil_iff]
      intro d hd
      obtain rfl := List.mem_singleton.1 (hfresh hd)
      rw [beq_iff_eq, hstop]
      exact Nat.ne_of_gt hlt
    change run'.chart.edgesAt position = run.chart.edgesAt position
    rw [hstores.edgesAt, hnone, List.append_nil]
  | _ => rfl

/-- The slots before the current position do not change any more. -/
theorem Leads.edgesAt_eq (hleads : Leads g words m m') (h : Sound g words sym m)
    (hlt : position < m.position) :
    m'.run.chart.edgesAt position = m.run.chart.edgesAt position ∧ m.position ≤ m'.position := by
  induction hleads with
  | refl => exact ⟨rfl, Nat.le_refl _⟩
  | tail hbefore hstep ih =>
    obtain ⟨hedges, hle⟩ := ih
    refine ⟨?_, Nat.le_trans hle hstep.position_le⟩
    rw [(h.leads hbefore).edgesAt_eq_of_step hstep (Nat.lt_of_lt_of_le hlt hle), hedges]

/-- The slots after the current position are empty. -/
theorem Sound.edgesAt_eq_nil (h : Sound g words sym m) (hlt : m.position < position) :
    m.run.chart.edgesAt position = [] := by
  rw [List.eq_nil_iff_forall_not_mem]
  intro e he
  obtain ⟨hstored, rfl⟩ := (mem_edgesAt_iff h.aligned).1 he
  exact absurd (h.stop_le hstored) (Nat.not_le_of_gt hlt)

/-- When no edge is pending, the slot of the current position is finished, too: the only step is to
scan the next word. -/
theorem Leads.edgesAt_eq_of_closed {current : Nat} {run : Run}
    (hleads : Leads g words ⟨current, run, [], none⟩ m')
    (h : Sound g words sym ⟨current, run, [], none⟩) (hagenda : run.agenda = [])
    (hle : position ≤ current) :
    m'.run.chart.edgesAt position = run.chart.edgesAt position := by
  rcases Relation.ReflTransGen.cases_head hleads with rfl | ⟨next, hstep, hrest⟩
  · rfl
  · have hnext := h.step hstep
    cases hstep with
    | predict hpending _ => simp [hagenda] at hpending
    | complete hpending _ _ _ => simp [hagenda] at hpending
    | scan => exact (Leads.edgesAt_eq hrest hnext (Nat.lt_succ_of_le hle)).1

end Moment

/-! ### Charts with fewer slots -/

/-- The slots of the positions up to `last`. -/
def upTo (c : Chart) (last : Nat) : Chart := ⟨c.slots.take (last + 1)⟩

section UpTo

variable {c c' : Chart} {last position : Nat} {e : Edge}

theorem size_upTo (h : last < c.size) : (c.upTo last).size = last + 1 := by
  rw [upTo, size, Array.size_extract_of_le h, Nat.sub_zero]

theorem getElem?_upTo (h : position ≤ last) :
    (c.upTo last).slots[position]? = c.slots[position]? := by
  rw [upTo, Array.getElem?_extract]
  simp only [Nat.zero_add]
  split
  · rfl
  · next hge => rw [Array.getElem?_eq_none (by omega)]

theorem slot_upTo (h : position ≤ last) : (c.upTo last).slot position = c.slot position := by
  rw [slot, slot, getElem?_upTo h]

theorem contains_upTo (h : e.stop ≤ last) : (c.upTo last).contains e = c.contains e := by
  rw [contains, contains, getElem?_upTo h]

/-- A chart with the same slots up to `last` and no others. -/
theorem eq_upTo (hsize : c'.size = last + 1) (hlast : last < c.size)
    (h : ∀ position ≤ last, c'.slots[position]? = c.slots[position]?) : c' = c.upTo last := by
  suffices hslots : c'.slots = (c.upTo last).slots by
    cases c'
    exact congrArg Chart.mk hslots
  apply Array.ext_getElem?
  intro position
  by_cases hposition : position ≤ last
  · rw [h position hposition, getElem?_upTo hposition]
  · have hge : last + 1 ≤ position := Nat.lt_of_not_le hposition
    rw [Array.getElem?_eq_none (Nat.le_trans (Nat.le_of_eq hsize) hge),
      Array.getElem?_eq_none (Nat.le_trans (Nat.le_of_eq (size_upTo hlast)) hge)]

/-- Inserting an edge that stops up to `last` concerns the slots up to `last` only. -/
theorem insert_upTo (h : e.stop ≤ last) (hlast : last < c.size) :
    (c.upTo last).insert e = (c.insert e).map (·.upTo last) := by
  have hstop : e.stop < (c.upTo last).size := by
    rw [size_upTo hlast]
    exact Nat.lt_succ_of_le h
  rw [insert, insert, if_pos hstop, if_pos (Nat.lt_of_le_of_lt h hlast)]
  refine congrArg Except.ok (eq_upTo ?_ ?_ ?_)
  · rw [size, Array.size_modify]
    exact size_upTo hlast
  · rwa [size, Array.size_modify]
  · intro position hposition
    rw [Array.getElem?_modify, Array.getElem?_modify, getElem?_upTo hposition]

/-- Charts of one size that hold the same edges up to `last` have the same slots there. -/
theorem upTo_eq_upTo (hsize : c'.size = c.size) (hlast : last < c.size)
    (h : ∀ position ≤ last, c'.edgesAt position = c.edgesAt position) :
    c'.upTo last = c.upTo last := by
  refine eq_upTo (size_upTo (hsize ▸ hlast)) hlast ?_
  intro position hposition
  have hlt : position < c.slots.size := Nat.lt_of_le_of_lt hposition hlast
  have hlt' : position < c'.slots.size := Nat.lt_of_lt_of_eq hlt hsize.symm
  have hedges := h position hposition
  rw [edgesAt_of_slot (Array.getElem?_eq_getElem hlt),
    edgesAt_of_slot (Array.getElem?_eq_getElem hlt')] at hedges
  rw [getElem?_upTo hposition, Array.getElem?_eq_getElem hlt, Array.getElem?_eq_getElem hlt',
    OrderedSet.ext hedges]

/-- The empty chart of fewer words. -/
theorem empty_eq_upTo {fewer words : Nat} (h : fewer ≤ words) :
    empty fewer = (empty words).upTo fewer := by
  refine eq_upTo (size_empty _) ?_ ?_
  · rw [size_empty]
    exact Nat.lt_succ_of_le h
  · intro position hposition
    rw [empty, empty, Array.getElem?_replicate, Array.getElem?_replicate,
      if_pos (Nat.lt_succ_of_le hposition),
      if_pos (Nat.lt_succ_of_le (Nat.le_trans hposition h))]

end UpTo

/-! ### Runs with fewer slots -/

namespace Run

/-- The run with the slots of the positions up to `last`. -/
def upTo (run : Run) (last : Nat) : Run := { run with chart := run.chart.upTo last }

variable {run run' : Run} {position last limit : Nat} {e : Edge}

theorem add_upTo (h : e.stop ≤ last) (hlast : last < run.chart.size) :
    (run.upTo last).add e = (run.add e).map (·.upTo last) := by
  have hcontains : (run.upTo last).chart.contains e = run.chart.contains e := contains_upTo h
  have hinsert : (run.upTo last).chart.insert e = (run.chart.insert e).map (·.upTo last) :=
    insert_upTo h hlast
  rw [add, add, hcontains, hinsert]
  split
  · rfl
  · cases run.chart.insert e <;> rfl

/-- Storing edges that stop up to `last` concerns the slots up to `last` only. -/
theorem addAll_upTo {edges : List Edge} {predicting : Option Edge}
    (h : Moment.Sound g words sym ⟨position, run, edges, predicting⟩) (hle : position ≤ last)
    (hlast : last ≤ words.length) :
    (run.upTo last).addAll edges = (run.addAll edges).map (·.upTo last) := by
  induction edges generalizing run with
  | nil => rfl
  | cons e edges ih =>
    have hstop : e.stop ≤ last := Nat.le_trans (Nat.le_of_eq (h.rest List.mem_cons_self).2) hle
    have hsize : last < run.chart.size := Nat.lt_of_lt_of_eq (Nat.lt_succ_of_le hlast) h.size.symm
    rw [addAll, addAll, List.foldlM_cons, List.foldlM_cons, add_upTo hstop hsize]
    cases hadd : run.add e with
    | error cause => rfl
    | ok next => exact ih (h.store hadd)

/-- Advancing what is read from a slot up to `last` concerns the slots up to `last` only, if this
holds of storing the advances. -/
theorem advances_upTo {α : Type} {items : Slot → List α} {advanced : α → Except ChartError Edge}
    (hle : position ≤ last)
    (hadd : ∀ slot edges, run.chart.slot position = .ok slot →
      (items slot).mapM advanced = .ok edges →
      (run.upTo last).addAll edges = (run.addAll edges).map (·.upTo last)) :
    ((run.upTo last).chart.slot position >>= fun slot =>
        (items slot).mapM advanced >>= (run.upTo last).addAll) =
      (run.chart.slot position >>= fun slot =>
        (items slot).mapM advanced >>= run.addAll).map (·.upTo last) := by
  have hread : (run.upTo last).chart.slot position = run.chart.slot position := slot_upTo hle
  rw [hread]
  cases hslot : run.chart.slot position with
  | error cause => rfl
  | ok slot =>
    change (items slot).mapM advanced >>= _ = Except.map _ ((items slot).mapM advanced >>= _)
    cases hedges : (items slot).mapM advanced with
    | error cause => rfl
    | ok edges => exact hadd slot edges hslot hedges

/-- A closed slot stays as it is. -/
theorem closeWithin_upTo_of_nil (h : run.agenda = []) :
    (run.upTo last).closeWithin g limit = (run.closeWithin g limit).map (·.upTo last) := by
  have h' : (run.upTo last).agenda = [] := h
  rw [closeWithin_of_agenda_nil h, closeWithin_of_agenda_nil h']
  rfl

section Dispatch

variable {before after : List Edge} (h : Moment.Sound g words sym ⟨position, run, [], none⟩)
  (hle : position ≤ last) (hlast : last ≤ words.length)

include h hle hlast

/-- Dispatching a finished edge at a position up to `last` concerns the slots up to `last` only. -/
theorem complete_upTo (hagenda : run.agenda = before ++ e :: after)
    (hcomplete : e.isComplete = true) :
    (upTo { run with agenda := before ++ after } last).complete e =
      (complete { run with agenda := before ++ after } e).map (·.upTo last) := by
  obtain ⟨hstored, hstop⟩ := h.pending (hagenda ▸ List.mem_append_right _ List.mem_cons_self)
  have hstart : e.start ≤ last := calc
    e.start ≤ e.stop := (h.supported hstored).derivable.start_le_stop
    _ = position := hstop
    _ ≤ last := hle
  refine advances_upTo hstart ?_
  intro slot edges hslot hedges
  exact addAll_upTo (h.step (.complete hagenda hcomplete hslot hedges)) hle hlast

/-- Dispatching an edge that expects a symbol, at a position up to `last`, concerns the slots up to
`last` only. -/
theorem predict_upTo (hagenda : run.agenda = before ++ e :: after)
    (hactive : e.isComplete = false) :
    (upTo { run with agenda := before ++ after } last).predict g e =
      (predict g { run with agenda := before ++ after } e).map (·.upTo last) := by
  obtain ⟨-, hstop⟩ := h.pending (hagenda ▸ List.mem_append_right _ List.mem_cons_self)
  have hpredicting := h.step (.predict hagenda hactive)
  rw [predict, predict, addAll_upTo hpredicting hle hlast]
  cases hadd : addAll { run with agenda := before ++ after } (predictions g e) with
  | error cause => rfl
  | ok predicted =>
    have hpredicted := hpredicting.leads (Moment.steps_addAll hadd)
    refine advances_upTo (Nat.le_trans (Nat.le_of_eq hstop) hle) ?_
    intro slot edges hslot hedges
    exact addAll_upTo (hpredicted.step (.advance hslot hedges)) hle hlast

/-- A dispatch at a position up to `last` concerns the slots up to `last` only. -/
theorem dispatch_upTo (hagenda : run.agenda = before ++ e :: after) :
    (upTo { run with agenda := before ++ after } last).dispatch g e =
      (dispatch g { run with agenda := before ++ after } e).map (·.upTo last) := by
  unfold dispatch
  split
  · next hcomplete => exact complete_upTo h hle hlast hagenda hcomplete
  · next hactive =>
    rw [Bool.not_eq_true] at hactive
    exact predict_upTo h hle hlast hagenda hactive

/-- Closing a slot up to `last` concerns the slots up to `last` only. -/
theorem closeWithin_upTo :
    (run.upTo last).closeWithin g limit = (run.closeWithin g limit).map (·.upTo last) := by
  induction limit generalizing run with
  | zero =>
    cases hagenda : run.agenda with
    | nil => exact closeWithin_upTo_of_nil hagenda
    | cons e rest =>
      have hagenda' : (run.upTo last).agenda = e :: rest := hagenda
      rw [closeWithin_zero_of_cons hagenda, closeWithin_zero_of_cons hagenda']
      rfl
  | succ limit ih =>
    cases hagenda : run.agenda with
    | nil => exact closeWithin_upTo_of_nil hagenda
    | cons e rest =>
      have hagenda' : (run.upTo last).agenda = e :: rest := hagenda
      -- first in, first out: nothing is pending before the edge that is dispatched
      have hfirst : run.agenda = [] ++ e :: rest := hagenda
      have hdispatch := dispatch_upTo h hle hlast hfirst
      rw [closeWithin_cons hagenda, closeWithin_cons hagenda']
      change dispatch g (upTo { run with agenda := [] ++ rest } last) e >>= _ = _
      rw [hdispatch]
      cases hnext : dispatch g { run with agenda := [] ++ rest } e with
      | error cause =>
        rw [List.nil_append] at hnext
        rw [hnext]
        rfl
      | ok next =>
        have hsound := h.leads (Moment.steps_dispatch hfirst hnext)
        rw [List.nil_append] at hnext
        rw [hnext]
        exact ih hsound

end Dispatch

/-- Scanning the word at a position before `last` concerns the slots up to `last` only. -/
theorem scan_upTo {word : Word} (h : Moment.Sound g words sym ⟨position, run, [], none⟩)
    (hagenda : run.agenda = []) (hword : words[position]? = some word) (hlt : position < last)
    (hlast : last ≤ words.length) :
    (run.upTo last).scan g position word = (run.scan g position word).map (·.upTo last) := by
  refine advances_upTo (Nat.le_of_lt hlt) ?_
  intro slot edges hslot hedges
  exact addAll_upTo (h.step (.scan hagenda hword hslot hedges)) hlt hlast

/-- Consuming words before `last` concerns the slots up to `last` only. -/
theorem foldlM_upTo {rest after : List Word} (hlast : last ≤ words.length) :
    ∀ {before : List Word} {run : Run}, words = before ++ rest ++ after →
      last = before.length + rest.length →
      Moment.Sound g words sym ⟨before.length, run, [], none⟩ → run.agenda = [] →
      (rest.zipIdx before.length).foldlM (consumeWithin g limit) (run.upTo last) =
        ((rest.zipIdx before.length).foldlM (consumeWithin g limit) run).map (·.upTo last) := by
  induction rest with
  | nil =>
    intro before run _ _ _ _
    rfl
  | cons word rest ih =>
    intro before run hwords hlength h hagenda
    have hword : words[before.length]? = some word := by simp [hwords]
    have hbefore : (before ++ [word]).length = before.length + 1 := by simp
    have hwords' : words = (before ++ [word]) ++ rest ++ after := by
      rw [hwords, List.append_assoc before [word] rest, List.singleton_append]
    have hlength' : last = (before ++ [word]).length + rest.length := by
      rw [hlength, hbefore, List.length_cons]
      omega
    have hlt : before.length < last := by
      rw [hlength, List.length_cons]
      omega
    rw [List.zipIdx_cons, List.foldlM_cons, List.foldlM_cons, consumeWithin, consumeWithin,
      scan_upTo h hagenda hword hlt hlast]
    cases hscan : run.scan g before.length word with
    | error cause => rfl
    | ok scanned =>
      have hscanned := h.leads (Moment.steps_scan hagenda hword hscan)
      change ((scanned.upTo last).closeWithin g limit >>= _) =
        Except.map _ (scanned.closeWithin g limit >>= _)
      rw [closeWithin_upTo hscanned hlt hlast]
      cases hclose : scanned.closeWithin g limit with
      | error cause => rfl
      | ok closed =>
        obtain ⟨hsteps, hclosed⟩ := Moment.steps_closeWithin hclose
        have hsound := hscanned.leads hsteps
        rw [← hbefore] at hsound ⊢
        exact ih hwords' hlength' hsound hclosed

/-- If a parse ends, so does the parse of the first words, with the same slots. -/
theorem exists_parseWithin_of_append {first more : List Word}
    (h : parseWithin limit g (first ++ more) sym = .ok run) :
    ∃ run', parseWithin limit g first sym = .ok run' ∧
      run'.chart = run.chart.upTo first.length := by
  obtain ⟨seeded, hadd, h⟩ := exists_of_bind_eq_ok h
  obtain ⟨closed, hclose, h⟩ := exists_of_bind_eq_ok h
  rw [List.zipIdx_append, List.foldlM_append, Nat.zero_add] at h
  obtain ⟨middle, hfirst, hmore⟩ := exists_of_bind_eq_ok h
  -- the moments of the longer parse before and after its first words
  have hseeded : Moment.Passes g (first ++ more) sym ⟨0, seeded, [], none⟩ :=
    .single (.store hadd)
  obtain ⟨hclosed, hagenda⟩ := Moment.passes_of_close hadd hclose
  have hwords : first ++ more = [] ++ first ++ more := rfl
  obtain ⟨hsteps, hagenda'⟩ := Moment.steps_foldlM hwords hagenda hfirst
  have hpasses : Moment.Passes g (first ++ more) sym ⟨first.length, middle, [], none⟩ :=
    hclosed.trans hsteps
  have hmiddle := hpasses.sound
  have hlast : first.length ≤ (first ++ more).length := by simp
  refine ⟨middle.upTo first.length, ?_, ?_⟩
  · have hstart : start first.length = (start (first ++ more).length).upTo first.length :=
      congrArg (fun chart => Run.mk chart [] #[]) (empty_eq_upTo hlast)
    have hsize : first.length < (start (first ++ more).length).chart.size := by
      rw [Run.start, size_empty]
      exact Nat.lt_succ_of_le hlast
    have hadd' : (start first.length).add (seed sym) = .ok (seeded.upTo first.length) := by
      rw [hstart, add_upTo (Nat.zero_le _) hsize, hadd]
      rfl
    have hclose' : (seeded.upTo first.length).closeWithin g limit =
        .ok (closed.upTo first.length) := by
      rw [closeWithin_upTo hseeded.sound (Nat.zero_le _) hlast, hclose]
      rfl
    have hfirst' : first.zipIdx.foldlM (consumeWithin g limit) (closed.upTo first.length) =
        .ok (middle.upTo first.length) := by
      refine (foldlM_upTo hlast hwords (Nat.zero_add _).symm hclosed.sound hagenda).trans ?_
      exact congrArg (Except.map (·.upTo first.length)) hfirst
    rw [parseWithin, hadd']
    change (seeded.upTo first.length).closeWithin g limit >>= _ = _
    rw [hclose']
    exact hfirst'
  · -- what comes after the first words leaves their slots as they are
    have hwords' : first ++ more = first ++ more ++ [] := (List.append_nil _).symm
    have hrest := Moment.steps_foldlM hwords' hagenda' hmore
    have hsize : middle.chart.size = run.chart.size :=
      hmiddle.size.trans (hmiddle.leads hrest.1).size.symm
    refine upTo_eq_upTo hsize ?_ ?_
    · rw [← hsize, hmiddle.size]
      exact Nat.lt_succ_of_le hlast
    · intro position hposition
      exact (hrest.1.edgesAt_eq_of_closed hmiddle hagenda' hposition).symm

end Run

/-- If the parse of a sentence ends, the parse of its first words ends as well, and its chart has
the slots of the longer chart up to the last of these words. At every moment of a parse, the slots
after the current position are empty, and the slots before it are finished: none of them changes at
a later moment. -/
theorem slots_of_append (g : Grammar) (sym : Symbol) :
    (∀ limit first more,
      Run.parseWithin limit g (first ++ more) sym ≠ .error .limitReached →
        ∃ run run', Run.parseWithin limit g (first ++ more) sym = .ok run ∧
          Run.parseWithin limit g first sym = .ok run' ∧
          run'.chart = run.chart.upTo first.length) ∧
    ∀ (words : List Word) (m : Moment), m.Passes g words sym →
      (∀ position, m.position < position → m.run.chart.edgesAt position = []) ∧
        ∀ m', Moment.Leads g words m m' → ∀ position < m.position,
          m'.run.chart.edgesAt position = m.run.chart.edgesAt position := by
  refine ⟨?_, ?_⟩
  · intro limit first more hlimit
    obtain ⟨run, hparse, -, -⟩ := Run.exists_of_parseWithin hlimit
    obtain ⟨run', hparse', hchart⟩ := Run.exists_parseWithin_of_append hparse
    exact ⟨run, run', hparse, hparse', hchart⟩
  · intro words m hm
    refine ⟨?_, ?_⟩
    · intro position hlt
      exact hm.sound.edgesAt_eq_nil hlt
    · intro m' hleads position hlt
      exact (hleads.edgesAt_eq hm.sound hlt).1

theorem slots_of_append_lateEmpty :
    Run.parseWithin 8 Run.lateEmpty (["b"] ++ ["b"]) "S" ≠ .error .limitReached ∧
      ∃ run run', Run.parseWithin 8 Run.lateEmpty (["b"] ++ ["b"]) "S" = .ok run ∧
        Run.parseWithin 8 Run.lateEmpty ["b"] "S" = .ok run' ∧
        run'.chart = run.chart.upTo 1 ∧
        Moment.Passes Run.lateEmpty ["b"] "S" ⟨1, run', [], none⟩ ∧
        (∀ position, 1 < position → run'.chart.edgesAt position = []) ∧
        ∀ m', Moment.Leads Run.lateEmpty ["b"] ⟨1, run', [], none⟩ m' → ∀ position < 1,
          m'.run.chart.edgesAt position = run'.chart.edgesAt position := by
  have hlimit : Run.parseWithin 8 Run.lateEmpty (["b"] ++ ["b"]) "S" ≠ .error .limitReached :=
    Run.ne_limitReached_of_isOk (by decide +kernel)
  obtain ⟨hcharts, hmoments⟩ := slots_of_append Run.lateEmpty "S"
  obtain ⟨run, run', hparse, hparse', hchart⟩ := hcharts 8 ["b"] ["b"] hlimit
  have hpasses : Moment.Passes Run.lateEmpty ["b"] "S" ⟨1, run', [], none⟩ :=
    (Moment.passes_of_parseWithin hparse').1
  exact ⟨hlimit, run, run', hparse, hparse', hchart, hpasses, hmoments ["b"] _ hpasses⟩

end NaturalLanguage.Chart

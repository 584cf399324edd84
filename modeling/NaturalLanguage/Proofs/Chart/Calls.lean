import NaturalLanguage.Proofs.Chart.WellFormed

/-!
# No call of a parse is refused

An edge refuses an advance that does not fit, and a chart refuses a position that has no slot. A
parse never asks for either, but what this rests on lies apart from the calls: in the filters that
select the edges, and in the slots where the edges are. Here every call is shown to fit, at every
moment of every parse, and so a parse goes on until it is finished.

* `Call`, `Call.outcome`, `Call.Fits`: calls, how they turn out and what they rely on; by
  `Call.fits_iff` nothing else is refused.
* `Moment.Calls`: the calls that a parse makes at a moment.
* `Moment.Sound.fits`: all of them fit.
* `Moment.Sound.finished_or_exists_step`: a parse that is not finished has a next moment.
* `calls_fit`: both for every parse, and the one way in which a parse with a limit fails.
-/

namespace NaturalLanguage.Chart

open Edge

/-! ### Calls -/

/-- A call to an edge or to a chart. -/
inductive Call where
  /-- An edge advances over a word. -/
  | scan (e : Edge) (category : Symbol) (word : Word)
  /-- An edge advances over a part. -/
  | extend (e part : Edge)
  /-- The slot of a position is read. -/
  | read (position : Nat)
  /-- An edge is inserted into the slot where it stops. -/
  | insert (e : Edge)

namespace Call

/-- How a call turns out. -/
def outcome (c : Chart) : Call → Except ChartError Unit
  | scan e category word => (e.scan category word).map fun _ => ()
  | extend e part => (e.extend part).map fun _ => ()
  | read position => (c.slot position).map fun _ => ()
  | insert e => (c.insert e).map fun _ => ()

/-- What a call relies on. An advance also takes the first of the expected symbols away, so there
has to be one. -/
def Fits (c : Chart) : Call → Prop
  | scan e category _ => e.next? = some category ∧ e.expects ≠ []
  | extend e part => part.isComplete = true ∧ e.stop = part.start ∧
      e.next? = some part.head ∧ e.expects ≠ []
  | read position => position < c.size
  | insert e => e.stop < c.size

/-- A result that is thrown away tells whether there was one. -/
theorem map_unit_eq_ok_iff {ε α : Type} {result : Except ε α} :
    (result.map fun _ => ()) = .ok () ↔ ∃ a, result = .ok a := by
  cases result with
  | error cause => exact ⟨nofun, nofun⟩
  | ok a => exact ⟨fun _ => ⟨a, rfl⟩, fun _ => rfl⟩

theorem expects_ne_nil {e : Edge} {sym : Symbol} (h : e.next? = some sym) : e.expects ≠ [] := by
  obtain ⟨rest, hrest⟩ := next?_eq_some_iff.1 h
  rw [hrest]
  exact List.cons_ne_nil sym rest

/-- A call that fits is not refused, and no other call succeeds. -/
theorem fits_iff {c : Chart} {call : Call} : call.Fits c ↔ call.outcome c = .ok () := by
  cases call with
  | scan e category word =>
    refine Iff.trans ?_ map_unit_eq_ok_iff.symm
    constructor
    · rintro ⟨hnext, -⟩
      exact ⟨_, scan_eq_ok hnext word⟩
    · rintro ⟨d, hd⟩
      have hnext := (of_scan_eq_ok hd).1
      exact ⟨hnext, expects_ne_nil hnext⟩
  | extend e part =>
    refine Iff.trans ?_ map_unit_eq_ok_iff.symm
    constructor
    · rintro ⟨hcomplete, hstop, hnext, -⟩
      exact ⟨_, extend_eq_ok hcomplete hstop hnext⟩
    · rintro ⟨d, hd⟩
      obtain ⟨hcomplete, hstop, hnext, -⟩ := of_extend_eq_ok hd
      exact ⟨hcomplete, hstop, hnext, expects_ne_nil hnext⟩
  | read position =>
    refine Iff.trans ?_ map_unit_eq_ok_iff.symm
    constructor
    · intro hlt
      obtain ⟨slot, hslot, -⟩ := exists_slot hlt
      exact ⟨slot, hslot⟩
    · rintro ⟨slot, hslot⟩
      unfold Chart.slot at hslot
      split at hslot
      · next hsome => exact (Array.getElem?_eq_some_iff.1 hsome).1
      · cases hslot
  | insert e =>
    refine Iff.trans ?_ map_unit_eq_ok_iff.symm
    constructor
    · intro hlt
      exact ⟨_, if_pos hlt⟩
    · rintro ⟨c', hc'⟩
      unfold Chart.insert at hc'
      split at hc'
      · next hlt => exact hlt
      · cases hc'

end Call

/-! ### The calls of a parse -/

namespace Moment

open Run

/-- The calls that a parse makes at a moment: for the next of the edges that it stores, or for the
operation that it begins. -/
inductive Calls (g : Grammar) (words : List Word) : Moment → Call → Prop
  /-- The next edge is stored. -/
  | insert {position : Nat} {run : Run} {e : Edge} {rest : List Edge} {predicting : Option Edge} :
      Calls g words ⟨position, run, e :: rest, predicting⟩ (.insert e)
  /-- After its predictions, an edge looks for empty parts where it stops. -/
  | readEmpty {position : Nat} {run : Run} {e : Edge} :
      Calls g words ⟨position, run, [], some e⟩ (.read e.stop)
  /-- It advances over each of them. -/
  | extendOver {position : Nat} {run : Run} {e part : Edge} {slot : Slot} :
      run.chart.slot e.stop = .ok slot → part ∈ emptyParts slot e →
      Calls g words ⟨position, run, [], some e⟩ (.extend e part)
  /-- A finished edge that is dispatched looks for waiting edges where it begins. -/
  | readWaiting {position : Nat} {run : Run} {part : Edge} :
      part ∈ run.agenda → part.isComplete = true →
      Calls g words ⟨position, run, [], none⟩ (.read part.start)
  /-- Each of them advances over the finished edge. -/
  | extendWaiting {position : Nat} {run : Run} {e part : Edge} {slot : Slot} :
      part ∈ run.agenda → part.isComplete = true → run.chart.slot part.start = .ok slot →
      e ∈ waiting slot part → Calls g words ⟨position, run, [], none⟩ (.extend e part)
  /-- The scan of the next word looks for edges that accept it. -/
  | readScannable {position : Nat} {run : Run} {word : Word} :
      run.agenda = [] → words[position]? = some word →
      Calls g words ⟨position, run, [], none⟩ (.read position)
  /-- Each of them advances over the word. -/
  | scan {position : Nat} {run : Run} {e : Edge} {category : Symbol} {word : Word} {slot : Slot} :
      run.agenda = [] → words[position]? = some word → run.chart.slot position = .ok slot →
      (e, category) ∈ scannable g slot word →
      Calls g words ⟨position, run, [], none⟩ (.scan e category word)

/-- Nothing is left to do: all words were scanned and no edge is pending or to be stored. -/
structure Finished (words : List Word) (m : Moment) : Prop where
  position_eq : m.position = words.length
  agenda_eq : m.run.agenda = []
  rest_eq : m.rest = []
  predicting_eq : m.predicting = none

variable {g : Grammar} {words : List Word} {sym : Symbol} {m : Moment} {call : Call}

/-- The slot of a word and the one after it exist. -/
theorem Sound.lt_size {position : Nat} {word : Word} (h : Sound g words sym m)
    (hword : words[position]? = some word) : position < m.run.chart.size := by
  rw [h.size]
  exact Nat.lt_succ_of_lt (List.getElem?_eq_some_iff.1 hword).1

/-- Every call of a parse fits. -/
theorem Sound.fits (h : Sound g words sym m) (hcall : Calls g words m call) :
    call.Fits m.run.chart := by
  cases hcall with
  | insert => exact h.stop_lt_size (h.rest List.mem_cons_self).1.derivable
  | readEmpty => exact h.stop_lt_size (h.supported (h.predicting rfl).1).derivable
  | extendOver hslot hpart =>
    obtain ⟨-, hcomplete, hstart, hnext⟩ := mem_emptyParts_iff.1 hpart
    exact ⟨hcomplete, hstart.symm, hnext, Call.expects_ne_nil hnext⟩
  | readWaiting hpart hcomplete =>
    -- a finished edge begins before it stops, or at the same position
    have hderivable := (h.supported (h.pending hpart).1).derivable
    exact Nat.lt_of_le_of_lt hderivable.start_le_stop (h.stop_lt_size hderivable)
  | extendWaiting hpart hcomplete hslot he =>
    obtain ⟨he, hnext⟩ := mem_waiting_iff.1 he
    exact ⟨hcomplete, (h.of_mem_slot hslot he).2, hnext, Call.expects_ne_nil hnext⟩
  | readScannable hagenda hword => exact h.lt_size hword
  | scan hagenda hword hslot he =>
    obtain ⟨-, hnext, -⟩ := mem_scannable_iff.1 he
    exact ⟨hnext, Call.expects_ne_nil hnext⟩

/-! ### Parses go on -/

/-- A call of a parse succeeds. -/
theorem Sound.outcome (h : Sound g words sym m) (hcall : Calls g words m call) :
    call.outcome m.run.chart = .ok () :=
  Call.fits_iff.1 (h.fits hcall)

/-- A parse is finished or has a next moment. -/
theorem Sound.finished_or_exists_step (h : Sound g words sym m) (hle : m.position ≤ words.length) :
    m.Finished words ∨ ∃ m', Step g words m m' := by
  obtain ⟨position, run, rest, predicting⟩ := m
  cases rest with
  | cons e rest =>
    have hlt : e.stop < run.chart.size :=
      h.stop_lt_size (h.rest List.mem_cons_self).1.derivable
    obtain ⟨-, run', hadd, -⟩ := exists_add hlt
    exact .inr ⟨_, .store hadd⟩
  | nil =>
    cases predicting with
    | some e =>
      obtain ⟨slot, hslot⟩ := Call.map_unit_eq_ok_iff.1 (h.outcome .readEmpty)
      obtain ⟨edges, hedges⟩ := exists_mapM_eq_ok_iff.2 fun part hpart =>
        Call.map_unit_eq_ok_iff.1 (h.outcome (.extendOver hslot hpart))
      exact .inr ⟨_, .advance hslot hedges⟩
    | none =>
      cases hagenda : run.agenda with
      | cons e after =>
        -- the oldest pending edge is dispatched
        have hfirst : run.agenda = [] ++ e :: after := hagenda
        have he : e ∈ run.agenda := hagenda ▸ List.mem_cons_self
        cases hcomplete : e.isComplete with
        | false => exact .inr ⟨_, .predict hfirst hcomplete⟩
        | true =>
          obtain ⟨slot, hslot⟩ :=
            Call.map_unit_eq_ok_iff.1 (h.outcome (.readWaiting he hcomplete))
          obtain ⟨edges, hedges⟩ := exists_mapM_eq_ok_iff.2 fun d hd =>
            Call.map_unit_eq_ok_iff.1 (h.outcome (.extendWaiting he hcomplete hslot hd))
          exact .inr ⟨_, .complete hfirst hcomplete hslot hedges⟩
      | nil =>
        cases hword : words[position]? with
        | none =>
          have hlength : position = words.length :=
            Nat.le_antisymm hle (List.getElem?_eq_none_iff.1 hword)
          exact .inl ⟨hlength, hagenda, rfl, rfl⟩
        | some word =>
          obtain ⟨slot, hslot⟩ :=
            Call.map_unit_eq_ok_iff.1 (h.outcome (.readScannable hagenda hword))
          obtain ⟨edges, hedges⟩ := exists_mapM_eq_ok_iff.2 fun (item : Edge × Symbol) hitem =>
            Call.map_unit_eq_ok_iff.1 (h.outcome (.scan hagenda hword hslot hitem))
          exact .inr ⟨_, .scan hagenda hword hslot hedges⟩

/-- A parse scans no more words than there are. -/
theorem Passes.position_le_length (h : Passes g words sym m) : m.position ≤ words.length := by
  induction h with
  | refl => exact Nat.zero_le _
  | tail _ hstep ih =>
    cases hstep with
    | scan _ hword => exact (List.getElem?_eq_some_iff.1 hword).1
    | _ => exact ih

end Moment

/-- At every moment of a parse, be it one that ends or not, the chart has a slot for each position
of the sentence, every call that the parse makes fits and is not refused, and there is a next moment
unless the parse is finished. A parse with a limited number of dispatches therefore fails in one way
only: the limit does not suffice. -/
theorem calls_fit (g : Grammar) (words : List Word) (sym : Symbol) :
    (∀ m : Moment, m.Passes g words sym →
      m.run.chart.size = words.length + 1 ∧
      (∀ call, m.Calls g words call →
        call.Fits m.run.chart ∧ call.outcome m.run.chart = .ok ()) ∧
      (m.Finished words ∨ ∃ m', Moment.Step g words m m')) ∧
    ∀ limit, (∃ run, Run.parseWithin limit g words sym = .ok run) ∨
      Run.parseWithin limit g words sym = .error .limitReached := by
  refine ⟨?_, ?_⟩
  · intro m hm
    refine ⟨hm.sound.size, ?_, ?_⟩
    · intro call hcall
      exact ⟨hm.sound.fits hcall, hm.sound.outcome hcall⟩
    · exact hm.sound.finished_or_exists_step hm.position_le_length
  · intro limit
    by_cases hlimit : Run.parseWithin limit g words sym = .error .limitReached
    · exact .inr hlimit
    · obtain ⟨run, hparse, -, -⟩ := Run.exists_of_parseWithin hlimit
      exact .inl ⟨run, hparse⟩

/-- When the first slot is closed, the edge for `A` has advanced over the late empty `X` and is
scanned next. -/
theorem calls_fit_lateEmpty :
    ∃ run e, Moment.Passes Run.lateEmpty ["b"] "S" ⟨0, run, [], none⟩ ∧
      Moment.Calls Run.lateEmpty ["b"] ⟨0, run, [], none⟩ (.scan e "b" "b") ∧
      (Call.scan e "b" "b").Fits run.chart ∧
      (Call.scan e "b" "b").outcome run.chart = .ok () ∧
      ∃ m', Moment.Step Run.lateEmpty ["b"] ⟨0, run, [], none⟩ m' := by
  have hclosed : (((Run.start ["b"].length).add (Run.seed "S") >>= fun run =>
        run.closeWithin Run.lateEmpty 8 >>= fun run =>
          run.chart.slot 0 >>= fun slot => .ok (run, slot)).map fun (run, slot) =>
      (run.agenda, (Run.scannable Run.lateEmpty slot "b").map Prod.snd)).toOption =
        some ([], ["b"]) := by
    decide +kernel
  obtain ⟨⟨run, slot⟩, hread, hlists⟩ := Run.exists_of_toOption_map hclosed
  obtain ⟨seeded, hadd, hread⟩ := exists_of_bind_eq_ok hread
  obtain ⟨closed, hclose, hread⟩ := exists_of_bind_eq_ok hread
  obtain ⟨first, hslot, hread⟩ := exists_of_bind_eq_ok hread
  cases hread
  obtain ⟨hagenda, hsymbols⟩ := Prod.mk.inj hlists
  -- one edge of the slot accepts the word
  have hscan : "b" ∈ (Run.scannable Run.lateEmpty slot "b").map Prod.snd := by
    rw [hsymbols]
    exact List.mem_singleton_self "b"
  obtain ⟨⟨e, category⟩, he, rfl⟩ := List.mem_map.1 hscan
  have hpasses := (Moment.passes_of_close hadd hclose).1
  have hcall : Moment.Calls Run.lateEmpty ["b"] ⟨0, run, [], none⟩ (.scan e "b" "b") :=
    .scan hagenda rfl hslot he
  obtain ⟨-, hcalls, hnext⟩ := (calls_fit Run.lateEmpty ["b"] "S").1 _ hpasses
  obtain ⟨hfits, houtcome⟩ := hcalls _ hcall
  -- the word is still to be scanned
  have hunfinished : ¬ Moment.Finished ["b"] ⟨0, run, [], none⟩ := fun h => by cases h.position_eq
  exact ⟨run, e, hpasses, hcall, hfits, houtcome, hnext.resolve_left hunfinished⟩

end NaturalLanguage.Chart
